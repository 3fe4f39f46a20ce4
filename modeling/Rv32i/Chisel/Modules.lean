import Rv32i.Isa.Step

/-!
# The Chisel core: its modules

`rv32I/`, module by module.  The inputs of a module are one structure; each output is a function of them
and of the registers of the module, and each register or memory has a function for its next value.
-/

namespace Chisel

open Rv32

/-! ## `utils` -/

def opNop : BitVec 4 := 0b0000
def opAdd : BitVec 4 := 0b0001
def opSub : BitVec 4 := 0b0010
def opAnd : BitVec 4 := 0b0100
def opOr : BitVec 4 := 0b0101
def opSll : BitVec 4 := 0b1000
def opSrl : BitVec 4 := 0b1001
def opSra : BitVec 4 := 0b1011
def opEq : BitVec 4 := 0b1100
def opNeq : BitVec 4 := 0b1101

def immX : BitVec 3 := 0b000
def immI : BitVec 3 := 0b001
def immS : BitVec 3 := 0b010
def immB : BitVec 3 := 0b011
def immJ : BitVec 3 := 0b100

structure BundleControl where
  ctrlJump : Bool
  ctrlJAL : Bool
  ctrlBranch : Bool
  ctrlRegWrite : Bool
  ctrlLoad : Bool
  ctrlStore : Bool
  ctrlALUSrc : Bool
  ctrlOP : BitVec 4

structure BundleReg where
  rs1 : RegIdx
  rs2 : RegIdx
  rd : RegIdx

structure BundleAluControl where
  ctrlALUSrc : Bool
  ctrlJump : Bool
  ctrlJAL : Bool
  ctrlOP : BitVec 4
  ctrlBranch : Bool

structure BundleMemDataControl where
  ctrlLoad : Bool
  ctrlStore : Bool

/-! ## Memories -/

/-- A memory of `MEM_INST_SIZE = MEM_DATA_SIZE = 1024` words. -/
abbrev Mem := BitVec 10 → Word

/-- `addr >> 2`, cut to the 10 address bits of the memory. -/
def wordAddr (addr : Word) : BitVec 10 := (addr >>> 2).setWidth 10

def Mem.write (mem : Mem) (a : BitVec 10) (v : Word) : Mem := fun q => if q = a then v else mem q

structure MemInstIn where
  addr : Word
  extWriteEn : Bool
  extWriteAddr : Word
  extWriteData : Word

def MemInst.inst (mem : Mem) (io : MemInstIn) : Word := mem (wordAddr io.addr)

def MemInst.next (mem : Mem) (io : MemInstIn) : Mem :=
  if io.extWriteEn then mem.write (wordAddr io.extWriteAddr) io.extWriteData else mem

structure MemDataIn where
  bundleMemDataControl : BundleMemDataControl
  resultALU : Word
  dataStore : Word
  extWriteEn : Bool
  extWriteAddr : Word
  extWriteData : Word

def MemData.result (mem : Mem) (io : MemDataIn) : Word :=
  if io.bundleMemDataControl.ctrlLoad then mem (wordAddr io.resultALU) else io.resultALU

/-- The external port has priority over a store of the core. -/
def MemData.next (mem : Mem) (io : MemDataIn) : Mem :=
  if io.extWriteEn then mem.write (wordAddr io.extWriteAddr) io.extWriteData
  else if io.bundleMemDataControl.ctrlStore then mem.write (wordAddr io.resultALU) io.dataStore
  else mem

/-! ## `PCReg` -/

structure PCRegIn where
  ctrlJump : Bool
  ctrlBranch : Bool
  resultBranch : Bool
  addrTarget : Word

def PCReg.next (regPC : Word) (io : PCRegIn) : Word :=
  if io.ctrlJump || (io.ctrlBranch && io.resultBranch) then io.addrTarget else regPC + 4

/-! ## `ImmGen` -/

/-- `Fill(n, b)` -/
def fill (n : ℕ) (b : BitVec 1) : BitVec n := if b = 1 then BitVec.allOnes n else 0

def ImmGen.immI (inst : Word) : Word := fill 20 (inst.extractLsb' 31 1) ++ inst.extractLsb' 20 12
def ImmGen.immS (inst : Word) : Word :=
  fill 20 (inst.extractLsb' 31 1) ++ inst.extractLsb' 25 7 ++ inst.extractLsb' 7 5
def ImmGen.immB (inst : Word) : Word :=
  fill 19 (inst.extractLsb' 31 1) ++ inst.extractLsb' 31 1 ++ inst.extractLsb' 7 1 ++ inst.extractLsb' 25 6 ++
    inst.extractLsb' 8 4 ++ 0#1
def ImmGen.immJ (inst : Word) : Word :=
  fill 11 (inst.extractLsb' 31 1) ++ inst.extractLsb' 31 1 ++ inst.extractLsb' 12 8 ++ inst.extractLsb' 20 1 ++
    inst.extractLsb' 21 10 ++ 0#1

def ImmGen.imm (inst : Word) (immSel : BitVec 3) : Word :=
  if immSel = Chisel.immI then ImmGen.immI inst
  else if immSel = Chisel.immS then ImmGen.immS inst
  else if immSel = Chisel.immB then ImmGen.immB inst
  else if immSel = Chisel.immJ then ImmGen.immJ inst
  else 0

/-! ## `Decoder` -/

/-- The control wires of the decoder, with their default values. -/
structure DecoderWires where
  immSel : BitVec 3 := immX
  ctrlJump : Bool := false
  ctrlJAL : Bool := false
  ctrlBranch : Bool := false
  ctrlRegWrite : Bool := false
  ctrlLoad : Bool := false
  ctrlStore : Bool := false
  ctrlALUSrc : Bool := false
  ctrlOP : BitVec 4 := opAdd

/-- The `switch` on the opcode. -/
def Decoder.switch (opcode : BitVec 7) (funct3 : BitVec 3) (bit30 : Bool) : DecoderWires :=
  if opcode = 0b0110011 then
    { ctrlRegWrite := true
      ctrlALUSrc := false
      ctrlOP :=
        if funct3 = 0b000 then if bit30 then opSub else opAdd
        else if funct3 = 0b111 then opAnd
        else if funct3 = 0b110 then opOr
        else if funct3 = 0b001 then opSll
        else if funct3 = 0b101 then opSrl
        else opAdd }
  else if opcode = 0b0010011 then
    { ctrlRegWrite := true
      ctrlALUSrc := true
      immSel := immI
      ctrlOP := if funct3 = 0b000 then opAdd else if funct3 = 0b110 then opOr else opAdd }
  else if opcode = 0b0000011 then
    { ctrlRegWrite := true, ctrlLoad := true, ctrlALUSrc := true, ctrlOP := opAdd, immSel := immI }
  else if opcode = 0b1100111 then
    { ctrlJump := true, ctrlJAL := false, ctrlRegWrite := true, ctrlALUSrc := true, ctrlOP := opAdd,
      immSel := immI }
  else if opcode = 0b0100011 then
    { ctrlStore := true, ctrlALUSrc := true, ctrlOP := opAdd, immSel := immS }
  else if opcode = 0b1100011 then
    { ctrlBranch := true
      ctrlALUSrc := false
      immSel := immB
      ctrlOP := if funct3 = 0b000 then opEq else if funct3 = 0b001 then opNeq else opAdd }
  else if opcode = 0b1101111 then
    { ctrlJump := true, ctrlJAL := true, ctrlRegWrite := true, ctrlALUSrc := true, ctrlOP := opAdd,
      immSel := immJ }
  else {}

def Decoder.wires (inst : Word) : DecoderWires :=
  Decoder.switch (inst.extractLsb' 0 7) (inst.extractLsb' 12 3) (inst.getLsbD 30)

def Decoder.bundleReg (inst : Word) : BundleReg where
  rs1 := inst.extractLsb' 15 5
  rs2 := inst.extractLsb' 20 5
  rd := inst.extractLsb' 7 5

def Decoder.imm (inst : Word) : Word := ImmGen.imm inst (Decoder.wires inst).immSel

def Decoder.bundleCtrl (inst : Word) : BundleControl :=
  let w := Decoder.wires inst
  { ctrlJump := w.ctrlJump, ctrlJAL := w.ctrlJAL, ctrlBranch := w.ctrlBranch, ctrlRegWrite := w.ctrlRegWrite,
    ctrlLoad := w.ctrlLoad, ctrlStore := w.ctrlStore, ctrlALUSrc := w.ctrlALUSrc, ctrlOP := w.ctrlOP }

/-! ## `Controller` -/

def Controller.bundleAluControl (io : BundleControl) : BundleAluControl where
  ctrlALUSrc := io.ctrlALUSrc
  ctrlJump := io.ctrlJump
  ctrlJAL := io.ctrlJAL
  ctrlOP := io.ctrlOP
  ctrlBranch := io.ctrlBranch

def Controller.bundleMemDataControl (io : BundleControl) : BundleMemDataControl where
  ctrlLoad := io.ctrlLoad
  ctrlStore := io.ctrlStore

def Controller.bundleControlOut (io : BundleControl) : BundleControl := io

/-! ## `Registers` -/

abbrev Regs := RegIdx → Word

/-- `dataRead1` and `dataRead2`: register number 0 reads as 0, whatever is stored there. -/
def Registers.dataRead (regs : Regs) (r : RegIdx) : Word := if r = 0 then 0 else regs r

structure RegistersIn where
  ctrlRegWrite : Bool
  dataWrite : Word
  bundleReg : BundleReg
  ctrlJump : Bool
  pc : Word

def Registers.next (regs : Regs) (io : RegistersIn) : Regs :=
  if io.ctrlRegWrite && io.bundleReg.rd != 0 then
    fun q => if q = io.bundleReg.rd then if io.ctrlJump then io.pc + 4 else io.dataWrite else regs q
  else regs

/-! ## `Alu` -/

structure AluIn where
  bundleAluControl : BundleAluControl
  dataRead1 : Word
  dataRead2 : Word
  imm : Word
  pc : Word

def Alu.operand1 (io : AluIn) : Word := if io.bundleAluControl.ctrlJAL then io.pc else io.dataRead1
def Alu.operand2 (io : AluIn) : Word := if io.bundleAluControl.ctrlALUSrc then io.imm else io.dataRead2
def Alu.addResult (io : AluIn) : Word := Alu.operand1 io + Alu.operand2 io

/-- The shifted-out bits of a Chisel shift are cut when the wire is assigned. -/
def Alu.resultAlu (io : AluIn) : Word :=
  let op := io.bundleAluControl.ctrlOP
  if op = opNop then 0
  else if op = opAdd then
    if io.bundleAluControl.ctrlJump && !io.bundleAluControl.ctrlJAL then Alu.addResult io &&& ~~~1#32
    else Alu.addResult io
  else if op = opSub then Alu.operand1 io - Alu.operand2 io
  else if op = opAnd then Alu.operand1 io &&& Alu.operand2 io
  else if op = opOr then Alu.operand1 io ||| Alu.operand2 io
  else if op = opSll then Alu.operand1 io <<< ((Alu.operand2 io).extractLsb' 0 5)
  else if op = opSrl then Alu.operand1 io >>> ((Alu.operand2 io).extractLsb' 0 5)
  else if op = opSra then (Alu.operand1 io).sshiftRight' ((Alu.operand2 io).extractLsb' 0 5)
  else if op = opEq then io.pc + io.imm
  else if op = opNeq then io.pc + io.imm
  else 0

def Alu.resultBranch (io : AluIn) : Bool :=
  let op := io.bundleAluControl.ctrlOP
  if op = opEq then Alu.operand1 io == Alu.operand2 io
  else if op = opNeq then Alu.operand1 io != Alu.operand2 io
  else false

end Chisel
