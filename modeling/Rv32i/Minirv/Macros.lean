import Rv32i.Minirv.Tables

/-!
# minirv: the macros

The macros of `inst-replace.h` for comparisons, branches and shifts, and those that they use, as the base instructions
that the assembler leaves.  The symbols are those of `Symbols`; a macro that jumps gets the address of its target and the
address behind its own expansion, which is where its `LABEL_NAME` is.
-/

namespace Minirv

open Rv32

/-! ## Pseudo-instructions -/

/-- `%hi(addr)`. -/
def hi (addr : Word) : BitVec 20 := (addr + 0x800).extractLsb' 12 20

/-- `%lo(addr)`. -/
def lo (addr : Word) : BitVec 12 := addr.extractLsb' 0 12

def la (r : RegIdx) (addr : Word) : Code := [.lui r (hi addr), .addi r r (lo addr)]

/-- `li` with a 12-bit immediate. -/
def li (r : RegIdx) (imm : BitVec 12) : Inst := .addi r zero imm

def mv (rd rs : RegIdx) : Inst := .addi rd rs 0

def jr (r : RegIdx) : Inst := .jalr zero (at0 r)

/-! ## Arithmetic -/

/-- One byte of `not`: it is looked up in the last row of `_xor8_table`. -/
def notByte (b : ℕ) : Code :=
  [.lbu gp (spVarByte varC b), .add gp gp tp, .lbu gp (at0 gp), .sb gp (spVarByte varD b)]

def not (L : Symbols) (rd rs1 : RegIdx) : Code := List.flatten
  [[push gp 3, .sw rs1 (spVar varC)], la tp L.xor8LastRow,
    notByte 3, notByte 2, notByte 1, notByte 0,
    [pop gp 3, .lw rd (spVar varD)]]

def sub (L : Symbols) (rd rs1 rs2 : RegIdx) : Code :=
  not L tp rs2 ++ [.add rd rs1 tp, .addi rd rd 1]

def getbyte (rd rs1 : RegIdx) (b : ℕ) : Code := [.sw rs1 (spVar varC), .lbu rd (spVarByte varC b)]

/-- The lines of `sh`, to `0 + addr` and `1 + addr`. -/
def shLines (rs : RegIdx) (addr0 addr1 : Addr) : Code := List.flatten
  [[.sb rs addr0], getbyte tp rs 1, [.sb tp addr1]]

/-- `sh`, where `1 + addr` has an encoding. -/
def sh (rs : RegIdx) (addr : Addr) : Code := shLines rs addr ⟨1 + addr.offset, addr.base⟩

def slli (rd rs1 : RegIdx) (imm : ℕ) : Code :=
  if imm = 0 then
    if rd ≠ rs1 then [mv rd rs1] else []
  else if imm ≥ 24 then
    List.flatten [[.sw zero (spVar varA), .sb rs1 (spVarByte varA 3), .lw rd (spVar varA)], slli rd rd (imm - 24)]
  else if imm ≥ 16 then
    List.flatten
      [[.sw zero (spVar varA)], sh rs1 (spVarByte varA 2), [.lw rd (spVar varA)], slli rd rd (imm - 16)]
  else
    .add rd rs1 rs1 :: List.replicate (imm - 1) (.add rd rd rd)
  termination_by imm

def msb (rd rs1 : RegIdx) : Code := List.flatten [getbyte rd rs1 3, slli rd rd 1, getbyte rd rd 1]

/-! ## Comparisons -/

def sltTemplate (L : Symbols) (lut : Word) (rd rs1 rs2 : RegIdx) : Code := List.flatten
  [[push s0 1, push s1 2, .sw rs2 (spVar varA), mv s0 rs1, .lw s1 (spVar varA)],
    msb gp s0, slli gp gp 1,
    msb tp s1, [.add gp gp tp], slli gp gp 1,
    sub L tp s0 s1, msb tp tp, [.add gp gp tp],
    la tp lut, [.add tp tp gp],
    [pop s1 2, pop s0 1],
    [.lbu rd (at0 tp)]]

def slt (L : Symbols) (rd rs1 rs2 : RegIdx) : Code := sltTemplate L L.slt1Table rd rs1 rs2
def sltu (L : Symbols) (rd rs1 rs2 : RegIdx) : Code := sltTemplate L L.sltu1Table rd rs1 rs2

/-- `def_itype`. -/
def itype (rtype : RegIdx → RegIdx → RegIdx → Code) (rd rs1 : RegIdx) (imm : BitVec 12) : Code :=
  li tp imm :: rtype rd rs1 tp

def slti (L : Symbols) : RegIdx → RegIdx → BitVec 12 → Code := itype (slt L)
def sltiu (L : Symbols) : RegIdx → RegIdx → BitVec 12 → Code := itype (sltu L)

def snez (L : Symbols) (rd rs : RegIdx) : Code := sltu L rd zero rs
def sltz (rd rs : RegIdx) : Code := msb rd rs
def sgt (L : Symbols) (rd rs1 rs2 : RegIdx) : Code := slt L rd rs2 rs1
def sgtu (L : Symbols) (rd rs1 rs2 : RegIdx) : Code := sltu L rd rs2 rs1
def sgtz (L : Symbols) (rd rs : RegIdx) : Code := slt L rd zero rs

/-! ## Equality -/

/-- Byte `b` of `VAR_A` marks its entry of the array, byte `b` of `VAR_B` clears its own. -/
def check8bitSame (table rd : RegIdx) (b : ℕ) : Code :=
  [.lbu rd (spVarByte varA b), .add tp table rd, .addi rd zero 1, .sb rd (at0 tp),
    .lbu rd (spVarByte varB b), .add rd table rd, .sb zero (at0 rd), .lbu rd (at0 tp)]

def seq (L : Symbols) (rd rs1 rs2 : RegIdx) : Code := List.flatten
  [[.sw rs1 (spVar varA), .sw rs2 (spVar varB), push s0 1, push s1 2],
    la s0 L.checkSameArray,
    check8bitSame s0 gp 0,
    check8bitSame s0 s1 1, [.add gp gp s1],
    check8bitSame s0 s1 2, [.add gp gp s1],
    check8bitSame s0 s1 3, [.add gp gp s1],
    la tp L.sameResultTable, [.add tp tp gp, .lbu rd (at0 tp)],
    [pop s1 2, pop s0 1]]

def check8bit0 (table rd : RegIdx) (b : ℕ) : Code :=
  [.lbu rd (spVarByte varA b), .add rd table rd, .lbu rd (at0 rd)]

def seqz (L : Symbols) (rd rs1 : RegIdx) : Code := List.flatten
  [[.sw rs1 (spVar varA), push s0 1],
    la s0 L.check8bit0Table,
    check8bit0 s0 gp 0,
    check8bit0 s0 tp 1, [.add gp gp tp],
    check8bit0 s0 tp 2, [.add gp gp tp],
    check8bit0 s0 tp 3, [.add gp gp tp],
    la tp L.sameResultTable, [.add tp tp gp, .lbu rd (at0 tp)],
    [pop s0 1]]

/-! ## Branches -/

/-- `branch_resolve`: `tp`, which is 0 or 1, chooses between the lower and the higher of two stack words. -/
def branchResolve (target : Word) (isTpHighSelTarget : Bool) (nonTaken : Word) : Code := List.flatten
  [slli tp tp 2, [.add tp sp tp],
    if isTpHighSelTarget then
      List.flatten [la gp target, [.sw gp (spVar varA)], la gp nonTaken, [.sw gp (spVar varB)]]
    else
      List.flatten [la gp nonTaken, [.sw gp (spVar varA)], la gp target, [.sw gp (spVar varB)]],
    [.lw tp ⟨BitVec.ofInt 12 (-(varB : ℤ) * 4), tp⟩, jr tp]]

def beq (L : Symbols) (rs1 rs2 : RegIdx) (target nonTaken : Word) : Code :=
  if rs2 = zero then seqz L tp rs1 ++ branchResolve target true nonTaken
  else if rs1 = zero then beq L rs2 rs1 target nonTaken
  else seq L tp rs1 rs2 ++ branchResolve target true nonTaken
  termination_by if rs2 = zero then 0 else 1
  decreasing_by
    rename_i h2 h1
    rw [if_neg h2, if_pos h1]
    exact Nat.zero_lt_one

def bne (L : Symbols) (rs1 rs2 : RegIdx) (target nonTaken : Word) : Code :=
  if rs2 = zero then seqz L tp rs1 ++ branchResolve target false nonTaken
  else if rs1 = zero then bne L rs2 rs1 target nonTaken
  else seq L tp rs1 rs2 ++ branchResolve target false nonTaken
  termination_by if rs2 = zero then 0 else 1
  decreasing_by
    rename_i h2 h1
    rw [if_neg h2, if_pos h1]
    exact Nat.zero_lt_one

/-- What `blt` and `bge` compute when `rs1` is `x0`: whether `rs2` is not positive. -/
def notPositive (L : Symbols) (rs2 : RegIdx) : Code := List.flatten
  [msb gp rs2, [.addi tp rs2 (-1)], msb tp tp, [.add gp gp tp],
    la tp L.or1Table, [.add tp gp tp, .lbu tp (at0 tp)]]

def blt (L : Symbols) (rs1 rs2 : RegIdx) (target nonTaken : Word) : Code :=
  if rs2 = zero then msb tp rs1 ++ branchResolve target true nonTaken
  else if rs1 = zero then notPositive L rs2 ++ branchResolve target false nonTaken
  else slt L tp rs1 rs2 ++ branchResolve target true nonTaken

def bltu (L : Symbols) (rs1 rs2 : RegIdx) (target nonTaken : Word) : Code :=
  sltu L tp rs1 rs2 ++ branchResolve target true nonTaken

def bge (L : Symbols) (rs1 rs2 : RegIdx) (target nonTaken : Word) : Code :=
  if rs1 = zero then notPositive L rs2 ++ branchResolve target true nonTaken
  else slt L tp rs1 rs2 ++ branchResolve target false nonTaken

def bgeu (L : Symbols) (rs1 rs2 : RegIdx) (target nonTaken : Word) : Code :=
  sltu L tp rs1 rs2 ++ branchResolve target false nonTaken

def beqz (L : Symbols) (rs : RegIdx) : Word → Word → Code := beq L rs zero
def bnez (L : Symbols) (rs : RegIdx) : Word → Word → Code := bne L rs zero
def blez (L : Symbols) (rs : RegIdx) : Word → Word → Code := bge L zero rs
def bgez (L : Symbols) (rs : RegIdx) : Word → Word → Code := bge L rs zero
def bltz (L : Symbols) (rs : RegIdx) : Word → Word → Code := blt L rs zero
def bgtz (L : Symbols) (rs : RegIdx) : Word → Word → Code := blt L zero rs
def bgt (L : Symbols) (rs rt : RegIdx) : Word → Word → Code := blt L rt rs
def ble (L : Symbols) (rs rt : RegIdx) : Word → Word → Code := bge L rt rs
def bgtu (L : Symbols) (rs rt : RegIdx) : Word → Word → Code := bltu L rt rs
def bleu (L : Symbols) (rs rt : RegIdx) : Word → Word → Code := bgeu L rt rs

/-! ## Shifts -/

/-- `getshamt`: the low five bits of `rs1`, by a lookup in row `0x1f` of `_and8_table`. -/
def getshamt (L : Symbols) (rd rs1 : RegIdx) : Code := List.flatten
  [[.sb rs1 (spVarByte varB 0), .lbu rd (spVarByte varB 0)],
    la tp (L.and8Table + (0x1f : Word) <<< 8), [.add rd rd tp, .lbu rd (at0 rd)]]

def getShiftByteInTp (base : RegIdx) (b : ℕ) : Code := List.flatten
  [[.lbu tp (spVarByte varA b)], slli tp tp 2, [.add tp base tp, .lw tp (at0 tp)]]

/-- The lines of `sll` and of `shift_right_template` that make `s0` point to the row of a table for the amount in
`rs2`. -/
def shiftRow (L : Symbols) (table : Word) (rs2 : RegIdx) : Code := List.flatten
  [getshamt L s0 rs2,
    [.sw zero (spVar varB), .sb s0 (spVarByte varB 1), .lw s0 (spVar varB)], slli s0 s0 2,
    la tp table, [.add s0 s0 tp]]

def sll (L : Symbols) (rd rs1 rs2 : RegIdx) : Code := List.flatten
  [[push s0 1, .sw rs1 (spVar varA)], shiftRow L L.sll8Table rs2, [.sw zero (spVar varB)],
    getShiftByteInTp s0 3, [.sb tp (spVarByte varB 3), .lw gp (spVar varB)],
    getShiftByteInTp s0 2, sh tp (spVarByte varB 2), [.lw tp (spVar varB), .add gp gp tp],
    getShiftByteInTp s0 1, slli tp tp 8, [.add gp gp tp],
    getShiftByteInTp s0 0,
    [pop s0 1, .add rd gp tp]]

/-- The amount of a shift: a register, or an immediate (`is_rs2_imm`). -/
inductive Amount
  | reg (rs2 : RegIdx)
  | imm (n : ℕ)
  deriving DecidableEq

/-- The lines that make `s0` point to the row of `_srl8_table`. -/
def rightRow (L : Symbols) : Amount → Code
  | .reg rs2 => shiftRow L L.srl8Table rs2
  | .imm n => la s0 (L.srl8Table + BitVec.ofNat 32 (n <<< 10))

/-- The lines that leave the bytes 2 to 0 of the result in `gp`. -/
def rightLower : Code := List.flatten
  [getShiftByteInTp s0 2, [.sw tp (spVar varB)],
    getShiftByteInTp s0 1, [.sw tp (spVar varC)],
    getShiftByteInTp s0 0, [.sw tp (spVar varD)],
    [.lbu gp (spVarByte varB 1), .lbu tp (spVarByte varC 2), .add gp gp tp, .lbu tp (spVarByte varD 3),
      .add gp gp tp, .sw gp (spVar varD)],
    [.lbu gp (spVarByte varB 2), .lbu tp (spVarByte varC 3), .add gp gp tp, .sb gp (spVarByte varD 1)],
    [.lbu gp (spVarByte varB 3), .sb gp (spVarByte varD 2)],
    [.lw gp (spVar varD)]]

def shiftRightTemplate (L : Symbols) (rd rs1 : RegIdx) (rs2 : Amount) (isArith : Bool) : Code :=
  -- fast path
  if rs2 = .imm 24 then
    if isArith then List.flatten
      [[.sw rs1 (spVar varA)], la tp (L.sra8Table + BitVec.ofNat 32 (24 <<< 10)),
        [.lbu rd (spVarByte varA 3)], slli rd rd 2, [.add tp tp rd, .lw rd (at0 tp)]]
    else getbyte rd rs1 3
  else List.flatten
    [[push s0 1, .sw rs1 (spVar varA)], rightRow L rs2, rightLower,
      if isArith then List.flatten [la tp (L.sra8Table - L.srl8Table), [.add s0 s0 tp]] else [],
      getShiftByteInTp s0 3, [pop s0 1, .add rd gp tp]]

def srl (L : Symbols) (rd rs1 rs2 : RegIdx) : Code := shiftRightTemplate L rd rs1 (.reg rs2) false
def sra (L : Symbols) (rd rs1 rs2 : RegIdx) : Code := shiftRightTemplate L rd rs1 (.reg rs2) true
def srli (L : Symbols) (rd rs1 : RegIdx) (imm : ℕ) : Code := shiftRightTemplate L rd rs1 (.imm imm) false
def srai (L : Symbols) (rd rs1 : RegIdx) (imm : ℕ) : Code := shiftRightTemplate L rd rs1 (.imm imm) true

end Minirv
