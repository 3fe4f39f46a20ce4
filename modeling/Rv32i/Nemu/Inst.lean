import Rv32i.Nemu.Memory

/-!
# NEMU: one instruction

`src/isa/riscv32/inst.c` with the pattern mechanism of `include/cpu/decode.h`: the `INSTPAT` table in
source order, `decode_operand`, `decode_exec` and `isa_exec_once`.

An entry of the table keeps its pattern as the string of the source; `patternDecode` turns it into key,
mask and shift, and `instpat` tries the entries in order, as the macro expansion does.
-/

namespace Nemu

open Rv32

/-! ## State -/

/-- `riscv32_CPU_state`.  `check_reg_idx` asserts that an index is below 32; the index type carries it. -/
structure CPUState where
  gpr : RegIdx → Word
  pc : Word

inductive RunState
  | running | stop | «end» | abort | quit
  deriving DecidableEq, Repr

structure NEMUState where
  state : RunState
  haltPc : Word
  haltRet : Word
  deriving DecidableEq, Repr

/-- What an instruction can read and write: `cpu`, `pmem` and `nemu_state`. -/
structure Machine where
  cpu : CPUState
  pmem : Pmem
  nemuState : NEMUState

/-- `R(rd) = v`; slot 0 is written like any other. -/
def Machine.setR (m : Machine) (rd : RegIdx) (v : Word) : Machine :=
  { m with cpu.gpr := fun q => if q = rd then v else m.cpu.gpr q }

structure Decode where
  pc : Word
  snpc : Word
  dnpc : Word
  inst : Word

/-! ## Patterns -/

/-- Key, mask and shift of a pattern string. -/
structure PatKey where
  key : BitVec 64
  mask : BitVec 64
  shift : BitVec 64
  deriving DecidableEq, Repr

/-- `macro(i)` on one character. -/
def patternStep (k : PatKey) (c : Char) : Exec PatKey :=
  if c = ' ' then .ok k
  else if c = '0' ∨ c = '1' ∨ c = '?' then
    .ok { key := (k.key <<< 1) ||| (if c = '1' then 1 else 0)
          mask := (k.mask <<< 1) ||| (if c = '?' then 0 else 1)
          shift := if c = '?' then k.shift + 1 else 0 }
  else .error .panic

/-- `macro64(0)`: at most 64 expansions, and a panic if they do not reach the end of the string. -/
def patternLoop : ℕ → List Char → PatKey → Exec PatKey
  | 0, _, _ => .error .panic
  | _ + 1, [], k => .ok { key := k.key >>> k.shift, mask := k.mask >>> k.shift, shift := k.shift }
  | n + 1, c :: str, k => do patternLoop n str (← patternStep k c)

def patternDecode (str : List Char) : Exec PatKey := patternLoop 64 str ⟨0, 0, 0⟩

/-- The test of `INSTPAT`. -/
def PatKey.test (k : PatKey) (inst : Word) : Bool := (inst.setWidth 64 >>> k.shift) &&& k.mask == k.key

/-! ## Operands -/

inductive OpType
  | R | I | S | B | U | J | N
  deriving DecidableEq, Repr

structure Operands where
  rd : RegIdx
  src1 : Word
  src2 : Word
  imm : Word

def immI (i : Word) : Word := (sext (bits i 31 20) 12).setWidth 32
def immU (i : Word) : Word := (sext (bits i 31 12) 20 <<< 12).setWidth 32
def immS (i : Word) : Word := ((sext (bits i 31 25) 7 <<< 5) ||| bits i 11 7).setWidth 32
def immB (i : Word) : Word :=
  ((sext (bits i 31 31) 1 <<< 12) ||| bits i 30 25 <<< 5 ||| bits i 11 8 <<< 1 ||| bits i 7 7 <<< 11).setWidth 32
def immJ (i : Word) : Word :=
  ((sext (bits i 31 31) 1 <<< 20) ||| bits i 30 21 <<< 1 ||| bits i 20 20 <<< 11 ||| bits i 19 12 <<< 12).setWidth 32

def decodeOperand (s : Decode) (cpu : CPUState) (type : OpType) : Operands :=
  let i := s.inst
  let rs1 : RegIdx := (bits i 19 15).setWidth 5
  let rs2 : RegIdx := (bits i 24 20).setWidth 5
  let rd : RegIdx := (bits i 11 7).setWidth 5
  match type with
  | .R => { rd, src1 := cpu.gpr rs1, src2 := cpu.gpr rs2, imm := 0 }
  | .I => { rd, src1 := cpu.gpr rs1, src2 := 0, imm := immI i }
  | .S => { rd, src1 := cpu.gpr rs1, src2 := cpu.gpr rs2, imm := immS i }
  | .U => { rd, src1 := 0, src2 := 0, imm := immU i }
  | .B => { rd, src1 := cpu.gpr rs1, src2 := cpu.gpr rs2, imm := immB i }
  | .J => { rd, src1 := 0, src2 := 0, imm := immJ i }
  | .N => { rd, src1 := 0, src2 := 0, imm := 0 }

/-! ## Instruction bodies -/

/-- The execute body of an entry. -/
abbrev Body := Operands → Decode → Machine → Exec (Decode × Machine)

/-- `R(rd) = f` -/
def wr (f : Operands → Decode → Word) : Body := fun o s m => .ok (s, m.setR o.rd (f o s))

/-- `R(rd) = f` where `f` is a C division: undefined on the operands of `undef`. -/
def wrDiv (undef : Word → Word → Bool) (f : Word → Word → Word) : Body := fun o s m =>
  if undef o.src1 o.src2 then .error .trap else .ok (s, m.setR o.rd (f o.src1 o.src2))

/-- `R(rd) = f(Mr(src1 + imm, len))` -/
def ld (len : ℕ) (f : Word → Word) : Body := fun o s m => do
  let v ← vaddrRead m.pmem (o.src1 + o.imm) len
  return (s, m.setR o.rd (f v))

/-- `Mw(src1 + imm, len, f(src2))` -/
def st (len : ℕ) (f : Word → Word) : Body := fun o s m => do
  let pmem ← vaddrWrite m.pmem (o.src1 + o.imm) len (f o.src2)
  return (s, { m with pmem })

/-- `s->dnpc = c ? s->pc + imm : s->snpc` -/
def br (c : Word → Word → Bool) : Body := fun o s m =>
  .ok ({ s with dnpc := if c o.src1 o.src2 then s.pc + o.imm else s.snpc }, m)

def setNemuState (m : Machine) (state : RunState) (pc haltRet : Word) : Machine :=
  { m with nemuState := { state, haltPc := pc, haltRet } }

/-- `NEMUTRAP(s->pc, R(10))` -/
def nemuTrap : Body := fun _ s m => .ok (s, setNemuState m .end s.pc (m.cpu.gpr 10))

/-- `INV(s->pc)`: two words are fetched for the message before the state is set. -/
def invalidInst : Body := fun _ s m => do
  let (_, pc) ← instFetch m.pmem s.pc 4
  let _ ← instFetch m.pmem pc 4
  return (s, setNemuState m .abort s.pc (-1))

/-- The C division on `int32_t`: a zero divisor and `INT_MIN / -1` are undefined. -/
def sdivUndef (a b : Word) : Bool := b = 0 ∨ (a = intMin ∧ b = -1)

def udivUndef (_ b : Word) : Bool := b = 0

/-! ## The table -/

/-- One `INSTPAT(pattern, name, type, body)`; the name of `inv` is `none`. -/
structure InstPat where
  pattern : String
  name : Option Mnemonic
  type : OpType
  body : Body

def instpatTable : List InstPat := [
  ⟨"??????? ????? ????? ??? ????? 00101 11", some .auipc, .U, wr fun o s => s.pc + o.imm⟩,
  ⟨"??????? ????? ????? 100 ????? 00000 11", some .lbu, .I, ld 1 id⟩,
  ⟨"??????? ????? ????? 000 ????? 01000 11", some .sb, .S, st 1 id⟩,

  ⟨"0000000 ????? ????? 000 ????? 01100 11", some .add, .R, wr fun o _ => o.src1 + o.src2⟩,
  ⟨"0100000 ????? ????? 000 ????? 01100 11", some .sub, .R, wr fun o _ => o.src1 - o.src2⟩,
  ⟨"0000000 ????? ????? 111 ????? 01100 11", some .and, .R, wr fun o _ => o.src1 &&& o.src2⟩,
  ⟨"0000000 ????? ????? 110 ????? 01100 11", some .or, .R, wr fun o _ => o.src1 ||| o.src2⟩,
  ⟨"0000000 ????? ????? 100 ????? 01100 11", some .xor, .R, wr fun o _ => o.src1 ^^^ o.src2⟩,
  ⟨"0000000 ????? ????? 001 ????? 01100 11", some .sll, .R, wr fun o _ => o.src1 <<< (o.src2 &&& 0x1f)⟩,
  ⟨"0000000 ????? ????? 101 ????? 01100 11", some .srl, .R, wr fun o _ => o.src1 >>> (o.src2 &&& 0x1f)⟩,
  ⟨"0100000 ????? ????? 101 ????? 01100 11", some .sra, .R, wr fun o _ => o.src1.sshiftRight' (o.src2 &&& 0x1f)⟩,
  ⟨"0000000 ????? ????? 010 ????? 01100 11", some .slt, .R, wr fun o _ => flag (o.src1.slt o.src2)⟩,
  ⟨"0000000 ????? ????? 011 ????? 01100 11", some .sltu, .R, wr fun o _ => flag (o.src1.ult o.src2)⟩,
  ⟨"0000001 ????? ????? 000 ????? 01100 11", some .mul, .R, wr fun o _ => o.src1 * o.src2⟩,
  ⟨"0000001 ????? ????? 001 ????? 01100 11", some .mulh, .R,
    wr fun o _ => ((sext o.src1 32 * sext o.src2 32) >>> 32).setWidth 32⟩,
  ⟨"0000001 ????? ????? 100 ????? 01100 11", some .div, .R, wrDiv sdivUndef BitVec.sdiv⟩,
  ⟨"0000001 ????? ????? 101 ????? 01100 11", some .divu, .R, wrDiv udivUndef BitVec.udiv⟩,
  ⟨"0000001 ????? ????? 110 ????? 01100 11", some .rem, .R, wrDiv sdivUndef BitVec.srem⟩,
  ⟨"0000001 ????? ????? 111 ????? 01100 11", some .remu, .R, wrDiv udivUndef BitVec.umod⟩,

  ⟨"??????? ????? ????? 000 ????? 00100 11", some .addi, .I, wr fun o _ => o.src1 + o.imm⟩,
  ⟨"??????? ????? ????? 111 ????? 00100 11", some .andi, .I, wr fun o _ => o.src1 &&& o.imm⟩,
  ⟨"??????? ????? ????? 110 ????? 00100 11", some .ori, .I, wr fun o _ => o.src1 ||| o.imm⟩,
  ⟨"??????? ????? ????? 100 ????? 00100 11", some .xori, .I, wr fun o _ => o.src1 ^^^ o.imm⟩,
  ⟨"0000000 ????? ????? 001 ????? 00100 11", some .slli, .I, wr fun o _ => o.src1 <<< (o.imm &&& 0x1f)⟩,
  ⟨"0000000 ????? ????? 101 ????? 00100 11", some .srli, .I, wr fun o _ => o.src1 >>> (o.imm &&& 0x1f)⟩,
  ⟨"0100000 ????? ????? 101 ????? 00100 11", some .srai, .I, wr fun o _ => o.src1.sshiftRight' (o.imm &&& 0x1f)⟩,
  -- `(int32_t)src1 < imm`: `imm` is a `word_t`, so C converts the left side back to unsigned
  ⟨"??????? ????? ????? 010 ????? 00100 11", some .slti, .I, wr fun o _ => flag (o.src1.ult o.imm)⟩,
  ⟨"??????? ????? ????? 011 ????? 00100 11", some .sltiu, .I, wr fun o _ => flag (o.src1.ult (o.imm &&& 0xfff))⟩,
  ⟨"??????? ????? ????? 010 ????? 00000 11", some .lw, .I, ld 4 id⟩,
  ⟨"??????? ????? ????? 001 ????? 00000 11", some .lh, .I, ld 2 fun v => (sext v 16).setWidth 32⟩,
  ⟨"??????? ????? ????? 101 ????? 00000 11", some .lhu, .I, ld 2 id⟩,
  ⟨"??????? ????? ????? 000 ????? 11001 11", some .jalr, .I,
    fun o s m => .ok ({ s with dnpc := o.src1 + o.imm }, m.setR o.rd s.snpc)⟩,

  ⟨"??????? ????? ????? 010 ????? 01000 11", some .sw, .S, st 4 id⟩,
  ⟨"??????? ????? ????? 001 ????? 01000 11", some .sh, .S, st 2 fun v => v &&& 0xffff⟩,
  ⟨"??????? ????? ????? 000 ????? 01000 11", some .sb, .S, st 1 fun v => v &&& 0xff⟩,

  ⟨"??????? ????? ????? ??? ????? 01101 11", some .lui, .U, wr fun o _ => o.imm⟩,

  ⟨"??????? ????? ????? 000 ????? 11000 11", some .beq, .B, br fun a b => a == b⟩,
  ⟨"??????? ????? ????? 001 ????? 11000 11", some .bne, .B, br fun a b => a != b⟩,
  ⟨"??????? ????? ????? 100 ????? 11000 11", some .blt, .B, br fun a b => a.slt b⟩,
  ⟨"??????? ????? ????? 101 ????? 11000 11", some .bge, .B, br fun a b => b.sle a⟩,
  ⟨"??????? ????? ????? 110 ????? 11000 11", some .bltu, .B, br fun a b => a.ult b⟩,
  ⟨"??????? ????? ????? 111 ????? 11000 11", some .bgeu, .B, br fun a b => b.ule a⟩,

  ⟨"??????? ????? ????? ??? ????? 11011 11", some .jal, .J,
    fun o s m => .ok ({ s with dnpc := s.pc + o.imm }, m.setR o.rd s.snpc)⟩,

  ⟨"0000000 00001 00000 000 00000 11100 11", some .ebreak, .N, nemuTrap⟩,
  ⟨"??????? ????? ????? ??? ????? ????? ??", none, .N, invalidInst⟩]

/-! ## Decode and execute -/

/-- The expansion of the `INSTPAT`s: the first entry that matches runs, and control goes to the end. -/
def instpat : List InstPat → Decode → Machine → Exec (Decode × Machine)
  | [], s, m => .ok (s, m)
  | e :: rest, s, m => do
    let k ← patternDecode e.pattern.toList
    if k.test s.inst then e.body (decodeOperand s m.cpu e.type) s m else instpat rest s m

def decodeExec (s : Decode) (m : Machine) : Exec (Decode × Machine) := do
  let (s, m) ← instpat instpatTable { s with dnpc := s.snpc } m
  return (s, m.setR 0 0)  -- reset $zero to 0

def isaExecOnce (s : Decode) (m : Machine) : Exec (Decode × Machine) := do
  let (inst, snpc) ← instFetch m.pmem s.snpc 4
  decodeExec { s with inst, snpc } m

/-! ## Reset -/

/-- The built-in image. -/
def img : List Word := [
  0b00000000000100000000011000010011, 0b00000001111100000000011010010011, 0b00000000110101100001011100110011,
  0b00000000000001110010011110000011, 0b00000000000100000000011010010011, 0b00000000110101100000010001100011,
  0b00000000000000001000000001100111, 0b11111111110111111111000011101111, 0x00100073]

/-- `RESET_VECTOR`, with `CONFIG_PC_RESET_OFFSET = 0`. -/
def resetVector : Word := configMbase

def restart (m : Machine) : Machine :=
  { m with cpu := { gpr := fun q => if q = 0 then 0 else m.cpu.gpr q, pc := resetVector } }

def initIsa (m : Machine) : Machine := restart { m with pmem := m.pmem.load img }

end Nemu
