import Rv32i.Isa.Encoding
import Rv32i.Lib.Bytes

/-!
# The RISC-V step

What one instruction does, as the specification defines it.  The data memory is a parameter
(`DataMem`), so that the same step serves the flat byte memory of the architecture (`byteMem`) and the
word memory of a core that only has `lw` and `sw`.

The register file carries `x0 = 0` as a field: a write to `x0` is no write.
-/

namespace Rv32

/-! ## Registers -/

/-- The registers `x0`, …, `x31`; the first is always zero. -/
@[ext]
structure RegFile where
  x : RegIdx → Word
  zero : x 0 = 0

/-- Write `v` to register `r`. -/
def RegFile.set (f : RegFile) (r : RegIdx) (v : Word) : RegFile where
  x q := if q = r ∧ r ≠ 0 then v else f.x q
  zero := by
    rw [if_neg (fun h => h.2 h.1.symm)]
    exact f.zero

theorem RegFile.set_x (f : RegFile) (r : RegIdx) (v : Word) (q : RegIdx) :
    (f.set r v).x q = if q = r ∧ r ≠ 0 then v else f.x q := rfl

/-- A write to `x0` is no write. -/
theorem RegFile.set_zero (f : RegFile) (v : Word) : f.set 0 v = f := by
  ext q
  rw [RegFile.set_x, if_neg fun h => h.2 rfl]

theorem set_self (f : RegFile) {d : RegIdx} (hd : d ≠ 0) (v : Word) : (f.set d v).x d = v := by
  rw [RegFile.set_x, if_pos ⟨rfl, hd⟩]

theorem set_ne (f : RegFile) {d q : RegIdx} (h : q ≠ d) (v : Word) : (f.set d v).x q = f.x q := by
  rw [RegFile.set_x, if_neg fun hq => h hq.1]

/-! ## Memory -/

/-- The width of a memory access. -/
inductive Width
  | byte | half | word
  deriving DecidableEq, Repr

def Width.bytes : Width → ℕ
  | .byte => 1
  | .half => 2
  | .word => 4

/-- A data memory: loads give the addressed bytes zero-extended, stores write the low bytes. -/
structure DataMem (μ : Type) where
  load : μ → Word → Width → Word
  store : μ → Word → Width → Word → μ

/-- The bytes at `a`, `a + 1`, … as a little-endian number. -/
def loadBytes (m : Word → Byte) (a : Word) : Width → Word
  | .byte => (m a).setWidth 32
  | .half => (m (a + 1) ++ m a).setWidth 32
  | .word => m (a + 3) ++ m (a + 2) ++ m (a + 1) ++ m a

theorem loadBytes_word (m : Word → Byte) (a : Word) :
    loadBytes m a .word = Bytes.ofBytes fun j => m (a + BitVec.ofNat 32 j) := by
  show m (a + 3) ++ m (a + 2) ++ m (a + 1) ++ m a = m (a + 3) ++ m (a + 2) ++ m (a + 1) ++ m (a + 0)
  rw [show a + 0 = a from BitVec.add_zero a]

/-- Byte `i` of `v` at `a + i`, for the bytes of the access; every other byte stays. -/
def storeBytes (m : Word → Byte) (a : Word) (n : Width) (v : Word) : Word → Byte :=
  fun q => if (q - a).toNat < n.bytes then v.extractLsb' (8 * (q - a).toNat) 8 else m q

section Store

variable (m : Word → Byte) (a v : Word)

theorem storeBytes_byte : storeBytes m a .byte v =
    fun q => if (q - a).toNat < 1 then v.extractLsb' (8 * (q - a).toNat) 8 else m q := rfl

theorem storeBytes_byte_apply (q : Word) : storeBytes m a .byte v q = if q = a then Bytes.byte v 0 else m q := by
  rw [storeBytes_byte]
  have hself : (q - a).toNat < 1 ↔ q = a := by bv_omega
  by_cases h : q = a
  · rw [if_pos h, h]
    simp [Bytes.byte]
  · rw [if_neg h]
    exact if_neg (mt hself.mp h)

theorem storeBytes_half : storeBytes m a .half v =
    fun q => if (q - a).toNat < 2 then v.extractLsb' (8 * (q - a).toNat) 8 else m q := rfl

theorem storeBytes_word : storeBytes m a .word v =
    fun q => if (q - a).toNat < 4 then v.extractLsb' (8 * (q - a).toNat) 8 else m q := rfl

end Store

/-- The flat little-endian memory of the architecture; addresses wrap modulo `2 ^ 32`. -/
def byteMem : DataMem (Word → Byte) where
  load := loadBytes
  store := storeBytes

/-! ## One instruction -/

/-- What an instruction is for. -/
inductive Kind
  | compute | muldiv | jump | branch | load | store | system
  deriving DecidableEq, Repr

def Mnemonic.kind : Mnemonic → Kind
  | .jal | .jalr => .jump
  | .beq | .bne | .blt | .bge | .bltu | .bgeu => .branch
  | .lb | .lh | .lw | .lbu | .lhu => .load
  | .sb | .sh | .sw => .store
  | .ebreak => .system
  | .mul | .mulh | .div | .divu | .rem | .remu => .muldiv
  | .lui | .auipc | .addi | .slti | .sltiu | .xori | .ori | .andi | .slli | .srli | .srai
  | .add | .sub | .sll | .slt | .sltu | .xor | .srl | .sra | .or | .and => .compute

/-- `1` or `0`, the value of a set-if instruction. -/
def flag (b : Bool) : Word := if b then 1 else 0

/-- `-2 ^ 31`. -/
def intMin : Word := 0x80000000

/-- The value of a register instruction, from the word, the pc and the two source registers. -/
def result (op : Mnemonic) (w pc x1 x2 : Word) : Word :=
  match op with
  | .lui => immU w
  | .auipc => pc + immU w
  | .addi => x1 + immI w
  | .slti => flag (x1.toInt < (immI w).toInt)
  | .sltiu => flag (x1.toNat < (immI w).toNat)
  | .xori => x1 ^^^ immI w
  | .ori => x1 ||| immI w
  | .andi => x1 &&& immI w
  | .slli => x1 <<< (shamt w).toNat
  | .srli => x1 >>> (shamt w).toNat
  | .srai => x1.sshiftRight (shamt w).toNat
  | .add => x1 + x2
  | .sub => x1 - x2
  | .sll => x1 <<< (x2.toNat % 32)
  | .slt => flag (x1.toInt < x2.toInt)
  | .sltu => flag (x1.toNat < x2.toNat)
  | .xor => x1 ^^^ x2
  | .srl => x1 >>> (x2.toNat % 32)
  | .sra => x1.sshiftRight (x2.toNat % 32)
  | .or => x1 ||| x2
  | .and => x1 &&& x2
  | .mul => x1 * x2
  | .mulh => BitVec.ofInt 32 (x1.toInt * x2.toInt / 2 ^ 32)
  | .div =>
    if x2 = 0 then -1
    else if x1 = intMin ∧ x2 = -1 then intMin
    else BitVec.ofInt 32 (x1.toInt.tdiv x2.toInt)
  | .divu => if x2 = 0 then -1 else BitVec.ofNat 32 (x1.toNat / x2.toNat)
  | .rem =>
    if x2 = 0 then x1
    else if x1 = intMin ∧ x2 = -1 then 0
    else BitVec.ofInt 32 (x1.toInt.tmod x2.toInt)
  | .remu => if x2 = 0 then x1 else BitVec.ofNat 32 (x1.toNat % x2.toNat)
  | _ => 0

/-- Whether a branch is taken. -/
def taken (op : Mnemonic) (x1 x2 : Word) : Bool :=
  match op with
  | .beq => x1 = x2
  | .bne => x1 ≠ x2
  | .blt => x1.toInt < x2.toInt
  | .bge => x2.toInt ≤ x1.toInt
  | .bltu => x1.toNat < x2.toNat
  | .bgeu => x2.toNat ≤ x1.toNat
  | _ => false

/-- Where a jump goes. -/
def target (op : Mnemonic) (w pc x1 : Word) : Word :=
  match op with
  | .jalr => (x1 + immI w) &&& ~~~1#32
  | _ => pc + immJ w

def Mnemonic.width : Mnemonic → Width
  | .lb | .lbu | .sb => .byte
  | .lh | .lhu | .sh => .half
  | _ => .word

/-- The value a load writes, from the zero-extended bytes. -/
def extend (op : Mnemonic) (v : Word) : Word :=
  match op with
  | .lb => (v.setWidth 8).signExtend 32
  | .lh => (v.setWidth 16).signExtend 32
  | _ => v

/-- The architectural state over a data memory. -/
structure State (μ : Type) where
  regs : RegFile
  pc : Word
  mem : μ

/-- One instruction `op`, encoded as `w`.  An `ebreak` hands over to the environment and leaves the
state as it is. -/
def step {μ : Type} (dm : DataMem μ) (op : Mnemonic) (w : Word) (s : State μ) : State μ :=
  let x1 := s.regs.x (rs1 w)
  let x2 := s.regs.x (rs2 w)
  match op.kind with
  | .compute | .muldiv => { s with regs := s.regs.set (rd w) (result op w s.pc x1 x2), pc := s.pc + 4 }
  | .jump => { s with regs := s.regs.set (rd w) (s.pc + 4), pc := target op w s.pc x1 }
  | .branch => { s with pc := if taken op x1 x2 then s.pc + immB w else s.pc + 4 }
  | .load =>
    { s with
      regs := s.regs.set (rd w) (extend op (dm.load s.mem (x1 + immI w) op.width))
      pc := s.pc + 4 }
  | .store => { s with mem := dm.store s.mem (x1 + immS w) op.width x2, pc := s.pc + 4 }
  | .system => s

end Rv32
