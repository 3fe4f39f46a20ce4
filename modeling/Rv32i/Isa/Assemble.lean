import Rv32i.Isa.Encoding

/-!
# Assembling instructions

The instruction formats the other way round: the word of given fields, and that the fields of that word are those.
-/

namespace Rv32

def encodeR (f7 : BitVec 7) (r2 r1 : RegIdx) (f3 : BitVec 3) (d : RegIdx) (o : BitVec 7) : Word :=
  f7 ++ r2 ++ r1 ++ f3 ++ d ++ o

def encodeI (imm : BitVec 12) (r1 : RegIdx) (f3 : BitVec 3) (d : RegIdx) (o : BitVec 7) : Word :=
  imm ++ r1 ++ f3 ++ d ++ o

def encodeS (imm : BitVec 12) (r2 r1 : RegIdx) (f3 : BitVec 3) (o : BitVec 7) : Word :=
  imm.extractLsb' 5 7 ++ r2 ++ r1 ++ f3 ++ imm.extractLsb' 0 5 ++ o

/-- The offset without its low bit. -/
def encodeB (imm : BitVec 12) (r2 r1 : RegIdx) (f3 : BitVec 3) (o : BitVec 7) : Word :=
  imm.extractLsb' 11 1 ++ imm.extractLsb' 4 6 ++ r2 ++ r1 ++ f3 ++ imm.extractLsb' 0 4 ++ imm.extractLsb' 10 1 ++ o

/-- The offset without its low bit. -/
def encodeJ (imm : BitVec 20) (d : RegIdx) (o : BitVec 7) : Word :=
  imm.extractLsb' 19 1 ++ imm.extractLsb' 0 10 ++ imm.extractLsb' 10 1 ++ imm.extractLsb' 11 8 ++ d ++ o

def encodeU (imm : BitVec 20) (d : RegIdx) (o : BitVec 7) : Word := imm ++ d ++ o

section Fields

variable (f7 o : BitVec 7) (r1 r2 d : RegIdx) (f3 : BitVec 3) (imm : BitVec 12) (upper : BitVec 20)

theorem fieldsR : opcode (encodeR f7 r2 r1 f3 d o) = o ∧ rd (encodeR f7 r2 r1 f3 d o) = d ∧
    funct3 (encodeR f7 r2 r1 f3 d o) = f3 ∧ rs1 (encodeR f7 r2 r1 f3 d o) = r1 ∧
    rs2 (encodeR f7 r2 r1 f3 d o) = r2 ∧ funct7 (encodeR f7 r2 r1 f3 d o) = f7 := by
  have h : ∀ k l, (encodeR f7 r2 r1 f3 d o).extractLsb' k l =
      BitVec.extractLsb' (n := 7 + 5 + 5 + 3 + 5 + 7) k l (f7 ++ r2 ++ r1 ++ f3 ++ d ++ o) := fun _ _ => rfl
  unfold opcode rd funct3 rs1 rs2 funct7
  simp (disch := decide) only [h, BitVec.extractLsb'_append_eq_of_le, BitVec.extractLsb'_append_eq_of_add_le]
  simp

theorem fieldsI : opcode (encodeI imm r1 f3 d o) = o ∧ rd (encodeI imm r1 f3 d o) = d ∧
    funct3 (encodeI imm r1 f3 d o) = f3 ∧ rs1 (encodeI imm r1 f3 d o) = r1 ∧
    immI (encodeI imm r1 f3 d o) = imm.signExtend 32 := by
  have h : ∀ k l, (encodeI imm r1 f3 d o).extractLsb' k l =
      BitVec.extractLsb' (n := 12 + 5 + 3 + 5 + 7) k l (imm ++ r1 ++ f3 ++ d ++ o) := fun _ _ => rfl
  unfold opcode rd funct3 rs1 immI
  simp (disch := decide) only [h, BitVec.extractLsb'_append_eq_of_le, BitVec.extractLsb'_append_eq_of_add_le]
  simp

theorem fieldsS : opcode (encodeS imm r2 r1 f3 o) = o ∧ funct3 (encodeS imm r2 r1 f3 o) = f3 ∧
    rs1 (encodeS imm r2 r1 f3 o) = r1 ∧ rs2 (encodeS imm r2 r1 f3 o) = r2 ∧
    immS (encodeS imm r2 r1 f3 o) = imm.signExtend 32 := by
  have h : ∀ k l, (encodeS imm r2 r1 f3 o).extractLsb' k l = BitVec.extractLsb' (n := 7 + 5 + 5 + 3 + 5 + 7) k l
      (imm.extractLsb' 5 7 ++ r2 ++ r1 ++ f3 ++ imm.extractLsb' 0 5 ++ o) := fun _ _ => rfl
  have himm : (imm.extractLsb' 5 7 ++ imm.extractLsb' 0 5 : BitVec 12) = imm :=
    BitVec.extractLsb'_append_extractLsb'
  unfold opcode funct3 rs1 rs2 immS
  simp (disch := decide) only [h, BitVec.extractLsb'_append_eq_of_le, BitVec.extractLsb'_append_eq_of_add_le]
  refine ⟨by simp, by simp, by simp, by simp, ?_⟩
  conv_rhs => rw [← himm]
  simp

theorem fieldsB : opcode (encodeB imm r2 r1 f3 o) = o ∧ funct3 (encodeB imm r2 r1 f3 o) = f3 ∧
    rs1 (encodeB imm r2 r1 f3 o) = r1 ∧ rs2 (encodeB imm r2 r1 f3 o) = r2 ∧
    immB (encodeB imm r2 r1 f3 o) = (imm ++ 0#1).signExtend 32 := by
  have h : ∀ k l, (encodeB imm r2 r1 f3 o).extractLsb' k l =
      BitVec.extractLsb' (n := 1 + 6 + 5 + 5 + 3 + 4 + 1 + 7) k l (imm.extractLsb' 11 1 ++ imm.extractLsb' 4 6 ++
        r2 ++ r1 ++ f3 ++ imm.extractLsb' 0 4 ++ imm.extractLsb' 10 1 ++ o) := fun _ _ => rfl
  have himm : imm.extractLsb' 11 1 ++ imm.extractLsb' 10 1 ++ imm.extractLsb' 4 6 ++ imm.extractLsb' 0 4 = imm := by
    simp (disch := decide) only [BitVec.extractLsb'_append_extractLsb'_eq_extractLsb']
    simp
  unfold opcode funct3 rs1 rs2 immB
  simp (disch := decide) only [h, BitVec.extractLsb'_append_eq_of_le, BitVec.extractLsb'_append_eq_of_add_le]
  refine ⟨by simp, by simp, by simp, by simp, ?_⟩
  conv_rhs => rw [← himm]
  simp

theorem fieldsJ : opcode (encodeJ upper d o) = o ∧ rd (encodeJ upper d o) = d ∧
    immJ (encodeJ upper d o) = (upper ++ 0#1).signExtend 32 := by
  have h : ∀ k l, (encodeJ upper d o).extractLsb' k l =
      BitVec.extractLsb' (n := 1 + 10 + 1 + 8 + 5 + 7) k l (upper.extractLsb' 19 1 ++ upper.extractLsb' 0 10 ++
        upper.extractLsb' 10 1 ++ upper.extractLsb' 11 8 ++ d ++ o) := fun _ _ => rfl
  have himm : upper.extractLsb' 19 1 ++ upper.extractLsb' 11 8 ++ upper.extractLsb' 10 1 ++ upper.extractLsb' 0 10 =
      upper := by
    simp (disch := decide) only [BitVec.extractLsb'_append_extractLsb'_eq_extractLsb']
    simp
  unfold opcode rd immJ
  simp (disch := decide) only [h, BitVec.extractLsb'_append_eq_of_le, BitVec.extractLsb'_append_eq_of_add_le]
  refine ⟨by simp, by simp, ?_⟩
  conv_rhs => rw [← himm]
  simp

theorem fieldsU : opcode (encodeU upper d o) = o ∧ rd (encodeU upper d o) = d ∧
    immU (encodeU upper d o) = upper ++ 0#12 := by
  have h : ∀ k l, (encodeU upper d o).extractLsb' k l = BitVec.extractLsb' (n := 20 + 5 + 7) k l (upper ++ d ++ o) :=
    fun _ _ => rfl
  unfold opcode rd immU
  simp (disch := decide) only [h, BitVec.extractLsb'_append_eq_of_le, BitVec.extractLsb'_append_eq_of_add_le]
  simp

end Fields

end Rv32
