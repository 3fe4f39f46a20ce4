import Rv32i.Lib.Ternary

/-!
# The RISC-V encoding

The part of the RISC-V unprivileged specification that the repository implements, stated on its own
terms: the instructions, which words encode them, and the five immediates.

* `Encodes op w` — the word `w` is a valid encoding of `op`, read off the opcode, funct3 and funct7
  fields;
* `Encodes.unique` — a word encodes at most one instruction;
* `encodes_iff_matches` — the same condition as one ternary pattern.
-/

namespace Rv32

abbrev Word := BitVec 32
abbrev Byte := BitVec 8
abbrev RegIdx := BitVec 5

/-- RV32I without `fence`, `ecall` and the CSR instructions, and six instructions of the M extension. -/
inductive Mnemonic
  | lui | auipc | jal | jalr
  | beq | bne | blt | bge | bltu | bgeu
  | lb | lh | lw | lbu | lhu
  | sb | sh | sw
  | addi | slti | sltiu | xori | ori | andi | slli | srli | srai
  | add | sub | sll | slt | sltu | xor | srl | sra | or | and
  | ebreak
  | mul | mulh | div | divu | rem | remu
  deriving DecidableEq, Repr

/-! ## Fields and immediates -/

def opcode (w : Word) : BitVec 7 := w.extractLsb' 0 7
def rd (w : Word) : RegIdx := w.extractLsb' 7 5
def funct3 (w : Word) : BitVec 3 := w.extractLsb' 12 3
def rs1 (w : Word) : RegIdx := w.extractLsb' 15 5
def rs2 (w : Word) : RegIdx := w.extractLsb' 20 5
def funct7 (w : Word) : BitVec 7 := w.extractLsb' 25 7

def immI (w : Word) : Word := (w.extractLsb' 20 12).signExtend 32
def immS (w : Word) : Word := (w.extractLsb' 25 7 ++ w.extractLsb' 7 5).signExtend 32
def immB (w : Word) : Word :=
  (w.extractLsb' 31 1 ++ w.extractLsb' 7 1 ++ w.extractLsb' 25 6 ++ w.extractLsb' 8 4 ++ 0#1).signExtend 32
def immU (w : Word) : Word := w.extractLsb' 12 20 ++ 0#12
def immJ (w : Word) : Word :=
  (w.extractLsb' 31 1 ++ w.extractLsb' 12 8 ++ w.extractLsb' 20 1 ++ w.extractLsb' 21 10 ++ 0#1).signExtend 32

/-- The shift amount of `slli`, `srli` and `srai`. -/
def shamt (w : Word) : BitVec 5 := w.extractLsb' 20 5

/-! ## Encodings -/

/-- The bits of a word that an instruction fixes. -/
inductive Fixed
  | op (o : BitVec 7)
  | op3 (o : BitVec 7) (f3 : BitVec 3)
  | op37 (o : BitVec 7) (f3 : BitVec 3) (f7 : BitVec 7)
  | whole (v : Word)

def Fixed.Holds : Fixed → Word → Prop
  | .op o, w => opcode w = o
  | .op3 o f3, w => opcode w = o ∧ funct3 w = f3
  | .op37 o f3 f7, w => opcode w = o ∧ funct3 w = f3 ∧ funct7 w = f7
  | .whole v, w => w = v

instance (f : Fixed) (w : Word) : Decidable (f.Holds w) := by
  cases f <;> unfold Fixed.Holds <;> infer_instance

/-- The opcode map of RV32I and of the M extension. -/
def Mnemonic.fixed : Mnemonic → Fixed
  | .lui => .op 0b0110111 | .auipc => .op 0b0010111
  | .jal => .op 0b1101111 | .jalr => .op3 0b1100111 0b000
  | .beq => .op3 0b1100011 0b000 | .bne => .op3 0b1100011 0b001
  | .blt => .op3 0b1100011 0b100 | .bge => .op3 0b1100011 0b101
  | .bltu => .op3 0b1100011 0b110 | .bgeu => .op3 0b1100011 0b111
  | .lb => .op3 0b0000011 0b000 | .lh => .op3 0b0000011 0b001 | .lw => .op3 0b0000011 0b010
  | .lbu => .op3 0b0000011 0b100 | .lhu => .op3 0b0000011 0b101
  | .sb => .op3 0b0100011 0b000 | .sh => .op3 0b0100011 0b001 | .sw => .op3 0b0100011 0b010
  | .addi => .op3 0b0010011 0b000 | .slti => .op3 0b0010011 0b010 | .sltiu => .op3 0b0010011 0b011
  | .xori => .op3 0b0010011 0b100 | .ori => .op3 0b0010011 0b110 | .andi => .op3 0b0010011 0b111
  | .slli => .op37 0b0010011 0b001 0b0000000
  | .srli => .op37 0b0010011 0b101 0b0000000 | .srai => .op37 0b0010011 0b101 0b0100000
  | .add => .op37 0b0110011 0b000 0b0000000 | .sub => .op37 0b0110011 0b000 0b0100000
  | .sll => .op37 0b0110011 0b001 0b0000000
  | .slt => .op37 0b0110011 0b010 0b0000000 | .sltu => .op37 0b0110011 0b011 0b0000000
  | .xor => .op37 0b0110011 0b100 0b0000000
  | .srl => .op37 0b0110011 0b101 0b0000000 | .sra => .op37 0b0110011 0b101 0b0100000
  | .or => .op37 0b0110011 0b110 0b0000000 | .and => .op37 0b0110011 0b111 0b0000000
  | .ebreak => .whole 0x00100073
  | .mul => .op37 0b0110011 0b000 0b0000001 | .mulh => .op37 0b0110011 0b001 0b0000001
  | .div => .op37 0b0110011 0b100 0b0000001 | .divu => .op37 0b0110011 0b101 0b0000001
  | .rem => .op37 0b0110011 0b110 0b0000001 | .remu => .op37 0b0110011 0b111 0b0000001

/-- The word is a valid encoding of the instruction. -/
def Encodes (op : Mnemonic) (w : Word) : Prop := op.fixed.Holds w

instance (op : Mnemonic) (w : Word) : Decidable (Encodes op w) := by
  unfold Encodes; infer_instance

/-! ## Encodings as ternary patterns -/

open Ternary

/-- The fixed bits as a pattern on the whole word. -/
def Fixed.pattern : Fixed → Pattern 32
  | .op o => field 32 0 7 o
  | .op3 o f3 => (field 32 0 7 o).both (field 32 12 3 f3)
  | .op37 o f3 f7 => (field 32 0 7 o).both ((field 32 12 3 f3).both (field 32 25 7 f7))
  | .whole v => ⟨BitVec.allOnes 32, v⟩

theorem both_tidy {n : ℕ} {s t : Pattern n} (hs : s.Tidy) (ht : t.Tidy) : (s.both t).Tidy := by
  unfold Pattern.Tidy Pattern.both at *
  rw [← hs, ← ht]
  apply BitVec.eq_of_getLsbD_eq
  intro i hi
  simp only [BitVec.getLsbD_and, BitVec.getLsbD_or]
  grind

theorem Fixed.holds_iff (f : Fixed) (w : Word) : f.Holds w ↔ f.pattern.Matches w := by
  cases f with
  | op o => exact (field_matches_iff (by decide) o w).symm
  | op3 o f3 =>
    unfold Fixed.Holds Fixed.pattern
    rw [both_matches_iff (field_tidy ..) (field_tidy ..) (by simp only [field]; decide),
      field_matches_iff (by decide), field_matches_iff (by decide)]
    rfl
  | op37 o f3 f7 =>
    unfold Fixed.Holds Fixed.pattern
    rw [both_matches_iff (field_tidy ..) (both_tidy (field_tidy ..) (field_tidy ..))
        (by simp only [field, Pattern.both]; decide),
      both_matches_iff (field_tidy ..) (field_tidy ..) (by simp only [field]; decide),
      field_matches_iff (by decide), field_matches_iff (by decide), field_matches_iff (by decide)]
    rfl
  | whole v =>
    show w = v ↔ w &&& BitVec.allOnes 32 = v
    rw [BitVec.and_allOnes]

/-- The encodings of an instruction, as one pattern. -/
def Mnemonic.pattern (op : Mnemonic) : Pattern 32 := op.fixed.pattern

theorem encodes_iff_matches (op : Mnemonic) (w : Word) : Encodes op w ↔ op.pattern.Matches w :=
  op.fixed.holds_iff w

/-- Every instruction once, for checks that run over all of them. -/
def Mnemonic.all : List Mnemonic :=
  [.lui, .auipc, .jal, .jalr, .beq, .bne, .blt, .bge, .bltu, .bgeu, .lb, .lh, .lw, .lbu, .lhu, .sb, .sh, .sw,
    .addi, .slti, .sltiu, .xori, .ori, .andi, .slli, .srli, .srai, .add, .sub, .sll, .slt, .sltu, .xor, .srl,
    .sra, .or, .and, .ebreak, .mul, .mulh, .div, .divu, .rem, .remu]

theorem Mnemonic.mem_all (op : Mnemonic) : op ∈ Mnemonic.all := by
  cases op <;> decide

theorem pattern_unambiguous : Unambiguous Mnemonic.pattern id Mnemonic.all := by
  unfold Unambiguous
  decide +kernel

theorem pattern_clash (op op' : Mnemonic) (h : op ≠ op') : Clash op.pattern op'.pattern :=
  pattern_unambiguous op op.mem_all op' op'.mem_all h

/-- A word encodes at most one instruction. -/
theorem Encodes.unique {op op' : Mnemonic} {w : Word} (h : Encodes op w) (h' : Encodes op' w) : op = op' := by
  by_contra hne
  rw [encodes_iff_matches] at h h'
  exact (pattern_clash op op' hne).not_matches h h'

end Rv32
