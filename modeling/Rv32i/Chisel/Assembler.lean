import Rv32i.Isa.Assemble

/-!
# The assemblers of the core's tests

Two small assemblers, and that both write the words of the instruction formats.

* `Isa` — `sim/TopTestFramework.h`, on `uint32_t` and `int32_t`;
* `TinyRv32Asm` — `TopFibProgramTest.scala`, on `Int`, with a `BigInt` as the result.
-/

namespace Chisel

open Rv32

/-! ## `TopTestFramework.h` -/

namespace Isa

def maskSignedImmediate (value : Word) (width : ℕ) : Word :=
  value &&& if width = 32 then 0xffffffff else ((1 : Word) <<< width) - 1

def encodeR (funct7 rs2 rs1 funct3 rd opcode : Word) : Word :=
  ((funct7 &&& 0x7f) <<< 25) ||| ((rs2 &&& 0x1f) <<< 20) ||| ((rs1 &&& 0x1f) <<< 15) |||
    ((funct3 &&& 0x7) <<< 12) ||| ((rd &&& 0x1f) <<< 7) ||| (opcode &&& 0x7f)

def encodeI (imm rs1 funct3 rd opcode : Word) : Word :=
  let imm12 := maskSignedImmediate imm 12
  (imm12 <<< 20) ||| ((rs1 &&& 0x1f) <<< 15) ||| ((funct3 &&& 0x7) <<< 12) ||| ((rd &&& 0x1f) <<< 7) |||
    (opcode &&& 0x7f)

def encodeS (imm rs2 rs1 funct3 opcode : Word) : Word :=
  let imm12 := maskSignedImmediate imm 12
  let immHi := (imm12 >>> 5) &&& 0x7f
  let immLo := imm12 &&& 0x1f
  (immHi <<< 25) ||| ((rs2 &&& 0x1f) <<< 20) ||| ((rs1 &&& 0x1f) <<< 15) ||| ((funct3 &&& 0x7) <<< 12) |||
    (immLo <<< 7) ||| (opcode &&& 0x7f)

def encodeB (offset rs2 rs1 funct3 opcode : Word) : Except String Word :=
  if offset &&& 1 ≠ 0 then .error "B-type offset must be 2-byte aligned"
  else
    let imm13 := maskSignedImmediate offset 13
    let bit12 := (imm13 >>> 12) &&& 0x1
    let bit11 := (imm13 >>> 11) &&& 0x1
    let bits10To5 := (imm13 >>> 5) &&& 0x3f
    let bits4To1 := (imm13 >>> 1) &&& 0xf
    .ok ((bit12 <<< 31) ||| (bits10To5 <<< 25) ||| ((rs2 &&& 0x1f) <<< 20) ||| ((rs1 &&& 0x1f) <<< 15) |||
      ((funct3 &&& 0x7) <<< 12) ||| (bits4To1 <<< 8) ||| (bit11 <<< 7) ||| (opcode &&& 0x7f))

def add (rd rs1 rs2 : Word) : Word := encodeR 0x00 rs2 rs1 0x0 rd 0x33
def addi (rd rs1 imm : Word) : Word := encodeI imm rs1 0x0 rd 0x13
def lw (rd rs1 imm : Word) : Word := encodeI imm rs1 0x2 rd 0x03
def sw (rs2 rs1 imm : Word) : Word := encodeS imm rs2 rs1 0x2 0x23
def beq (rs1 rs2 offset : Word) : Except String Word := encodeB offset rs2 rs1 0x0 0x63

end Isa

/-! ## `TopFibProgramTest.scala` -/

namespace TinyRv32Asm

/-- An `Int`, which wraps; a `BigInt` does not, and is never negative here. -/
abbrev Int32 := BitVec 32

/-- `BigInt(value) & allOnes`: on an integer of any size, the remainder modulo `2 ^ width`. -/
def mask (value : Int32) (width : ℕ) : ℕ := (value.toInt % 2 ^ width).toNat

def encodeR (funct7 rs2 rs1 funct3 rd opcode : Int32) : ℕ :=
  ((funct7 &&& 0x7f).toNat <<< 25) ||| ((rs2 &&& 0x1f).toNat <<< 20) ||| ((rs1 &&& 0x1f).toNat <<< 15) |||
    ((funct3 &&& 0x7).toNat <<< 12) ||| ((rd &&& 0x1f).toNat <<< 7) ||| (opcode &&& 0x7f).toNat

def encodeI (imm rs1 funct3 rd opcode : Int32) : ℕ :=
  let imm12 := mask imm 12
  (imm12 <<< 20) ||| ((rs1 &&& 0x1f).toNat <<< 15) ||| ((funct3 &&& 0x7).toNat <<< 12) |||
    ((rd &&& 0x1f).toNat <<< 7) ||| (opcode &&& 0x7f).toNat

def encodeS (imm rs2 rs1 funct3 opcode : Int32) : ℕ :=
  let imm12 := mask imm 12
  let immHi := (imm12 >>> 5) &&& 0x7f
  let immLo := imm12 &&& 0x1f
  (immHi <<< 25) ||| ((rs2 &&& 0x1f).toNat <<< 20) ||| ((rs1 &&& 0x1f).toNat <<< 15) |||
    ((funct3 &&& 0x7).toNat <<< 12) ||| (immLo <<< 7) ||| (opcode &&& 0x7f).toNat

def encodeB (offset rs2 rs1 funct3 opcode : Int32) : Except String ℕ :=
  if offset.toInt.tmod 2 ≠ 0 then .error ("B-type offset must be 2-byte aligned, got " ++ toString offset.toInt)
  else
    let imm13 := mask offset 13
    let bit12 := (imm13 >>> 12) &&& 0x1
    let bit11 := (imm13 >>> 11) &&& 0x1
    let bits10To5 := (imm13 >>> 5) &&& 0x3f
    let bits4To1 := (imm13 >>> 1) &&& 0xf
    .ok ((bit12 <<< 31) ||| (bits10To5 <<< 25) ||| ((rs2 &&& 0x1f).toNat <<< 20) |||
      ((rs1 &&& 0x1f).toNat <<< 15) ||| ((funct3 &&& 0x7).toNat <<< 12) ||| (bits4To1 <<< 8) ||| (bit11 <<< 7) |||
      (opcode &&& 0x7f).toNat)

def encodeJ (offset rd opcode : Int32) : Except String ℕ :=
  if offset.toInt.tmod 2 ≠ 0 then .error ("J-type offset must be 2-byte aligned, got " ++ toString offset.toInt)
  else
    let imm21 := mask offset 21
    let bit20 := (imm21 >>> 20) &&& 0x1
    let bits10To1 := (imm21 >>> 1) &&& 0x3ff
    let bit11 := (imm21 >>> 11) &&& 0x1
    let bits19To12 := (imm21 >>> 12) &&& 0xff
    .ok ((bit20 <<< 31) ||| (bits19To12 <<< 12) ||| (bit11 <<< 20) ||| (bits10To1 <<< 21) |||
      ((rd &&& 0x1f).toNat <<< 7) ||| (opcode &&& 0x7f).toNat)

def add (rd rs1 rs2 : Int32) : ℕ := encodeR 0x00 rs2 rs1 0x0 rd 0x33
def addi (rd rs1 imm : Int32) : ℕ := encodeI imm rs1 0x0 rd 0x13
def lw (rd rs1 imm : Int32) : ℕ := encodeI imm rs1 0x2 rd 0x03
def sw (rs2 rs1 imm : Int32) : ℕ := encodeS imm rs2 rs1 0x2 0x23
def beq (rs1 rs2 offset : Int32) : Except String ℕ := encodeB offset rs2 rs1 0x0 0x63

end TinyRv32Asm

/-! ## The words they write -/

section Words

variable (imm r1 r2 d f3 f7 o : Word)

/-! Every bit of a word comes from one field. -/

theorem Isa.encodeR_eq : Isa.encodeR f7 r2 r1 f3 d o = Rv32.encodeR (f7.setWidth 7) (r2.setWidth 5) (r1.setWidth 5)
    (f3.setWidth 3) (d.setWidth 5) (o.setWidth 7) := by
  unfold Isa.encodeR Rv32.encodeR
  apply BitVec.eq_of_getLsbD_eq
  intro i hi
  interval_cases i <;>
    simp (disch := decide) only [BitVec.getLsbD_or, BitVec.getLsbD_and, BitVec.getLsbD_shiftLeft,
      BitVec.getLsbD_append, BitVec.getLsbD_setWidth] <;> simp

theorem Isa.encodeI_eq : Isa.encodeI imm r1 f3 d o =
    Rv32.encodeI (imm.setWidth 12) (r1.setWidth 5) (f3.setWidth 3) (d.setWidth 5) (o.setWidth 7) := by
  unfold Isa.encodeI Rv32.encodeI Isa.maskSignedImmediate
  apply BitVec.eq_of_getLsbD_eq
  intro i hi
  interval_cases i <;>
    simp (disch := decide) only [BitVec.getLsbD_or, BitVec.getLsbD_and, BitVec.getLsbD_shiftLeft,
      BitVec.getLsbD_append, BitVec.getLsbD_setWidth] <;> simp

theorem Isa.encodeS_eq : Isa.encodeS imm r2 r1 f3 o =
    Rv32.encodeS (imm.setWidth 12) (r2.setWidth 5) (r1.setWidth 5) (f3.setWidth 3) (o.setWidth 7) := by
  unfold Isa.encodeS Rv32.encodeS Isa.maskSignedImmediate
  apply BitVec.eq_of_getLsbD_eq
  intro i hi
  interval_cases i <;>
    simp (disch := decide) only [BitVec.getLsbD_or, BitVec.getLsbD_and, BitVec.getLsbD_shiftLeft,
      BitVec.getLsbD_ushiftRight, BitVec.getLsbD_append, BitVec.getLsbD_setWidth, BitVec.getLsbD_extractLsb'] <;>
    simp

theorem Isa.encodeB_eq (h : imm &&& 1 = 0) : Isa.encodeB imm r2 r1 f3 o =
    .ok (Rv32.encodeB (imm.extractLsb' 1 12) (r2.setWidth 5) (r1.setWidth 5) (f3.setWidth 3) (o.setWidth 7)) := by
  unfold Isa.encodeB Rv32.encodeB Isa.maskSignedImmediate
  rw [if_neg fun hne => hne h]
  refine congrArg Except.ok (BitVec.eq_of_getLsbD_eq fun i hi => ?_)
  interval_cases i <;>
    simp (disch := decide) only [BitVec.getLsbD_or, BitVec.getLsbD_and, BitVec.getLsbD_shiftLeft,
      BitVec.getLsbD_ushiftRight, BitVec.getLsbD_append, BitVec.getLsbD_setWidth, BitVec.getLsbD_extractLsb'] <;>
    simp

end Words

/-! ## Both assemblers write the same words -/

theorem ofNat_shiftLeft (x n : ℕ) : BitVec.ofNat 32 (x <<< n) = BitVec.ofNat 32 x <<< n := by
  apply BitVec.eq_of_toNat_eq
  simp [Nat.shiftLeft_eq]

theorem TinyRv32Asm.toNat_mask (value : Word) {width : ℕ} (h : width < 32) :
    TinyRv32Asm.mask value width = (Isa.maskSignedImmediate value width).toNat := by
  have hmod : TinyRv32Asm.mask value width = value.toNat % 2 ^ width := by
    have hdvd : (2 ^ 32 : ℤ) = 2 ^ width * 2 ^ (32 - width) := by
      rw [← pow_add]
      congr 1
      omega
    unfold TinyRv32Asm.mask
    rw [BitVec.toInt_eq_toNat_cond]
    split
    · norm_cast
    · rw [Nat.cast_pow, Nat.cast_ofNat, hdvd, Int.sub_mul_emod_self_left]
      norm_cast
  have hmask : ((1 : Word) <<< width - 1).toNat = 2 ^ width - 1 := by
    have hlt : 2 ^ width < 2 ^ 32 := Nat.pow_lt_pow_right (by decide) h
    have hpos := Nat.two_pow_pos width
    rw [BitVec.toNat_sub, BitVec.toNat_shiftLeft, Nat.shiftLeft_eq]
    show (2 ^ 32 - 1 + 1 * 2 ^ width % 2 ^ 32) % 2 ^ 32 = 2 ^ width - 1
    omega
  unfold Isa.maskSignedImmediate
  rw [if_neg (by omega), hmod, BitVec.toNat_and, hmask, Nat.and_two_pow_sub_one_eq_mod]

theorem tmod_eq_zero_iff (value : Word) : value.toInt.tmod 2 = 0 ↔ value &&& 1 = 0 := by
  have hand : (value &&& 1).toNat = value.toNat % 2 := by
    rw [BitVec.toNat_and]
    exact Nat.and_one_is_mod _
  rw [← BitVec.toNat_inj, hand, ← Int.dvd_iff_tmod_eq_zero, BitVec.toInt_eq_toNat_cond]
  have := value.isLt
  show _ ↔ value.toNat % 2 = 0
  split <;> omega

section Same

variable (imm r1 r2 d f3 f7 o : Word)

theorem TinyRv32Asm.encodeR_eq :
    BitVec.ofNat 32 (TinyRv32Asm.encodeR f7 r2 r1 f3 d o) = Isa.encodeR f7 r2 r1 f3 d o := by
  unfold TinyRv32Asm.encodeR Isa.encodeR
  simp only [BitVec.ofNat_or, ofNat_shiftLeft, BitVec.ofNat_toNat, BitVec.setWidth_eq]

theorem TinyRv32Asm.encodeI_eq :
    BitVec.ofNat 32 (TinyRv32Asm.encodeI imm r1 f3 d o) = Isa.encodeI imm r1 f3 d o := by
  unfold TinyRv32Asm.encodeI Isa.encodeI
  simp only [TinyRv32Asm.toNat_mask imm (show 12 < 32 by decide), BitVec.ofNat_or, ofNat_shiftLeft,
    BitVec.ofNat_toNat, BitVec.setWidth_eq]

theorem TinyRv32Asm.encodeS_eq :
    BitVec.ofNat 32 (TinyRv32Asm.encodeS imm r2 r1 f3 o) = Isa.encodeS imm r2 r1 f3 o := by
  unfold TinyRv32Asm.encodeS Isa.encodeS
  simp only [TinyRv32Asm.toNat_mask imm (show 12 < 32 by decide), ← BitVec.toNat_ushiftRight, BitVec.ofNat_or,
    BitVec.ofNat_and, ofNat_shiftLeft, BitVec.ofNat_toNat, BitVec.setWidth_eq]
  rfl

theorem TinyRv32Asm.encodeB_eq :
    (TinyRv32Asm.encodeB imm r2 r1 f3 o).toOption.map (BitVec.ofNat 32) = (Isa.encodeB imm r2 r1 f3 o).toOption := by
  unfold TinyRv32Asm.encodeB Isa.encodeB
  by_cases h : imm &&& 1 = 0
  · rw [if_neg fun hne => hne ((tmod_eq_zero_iff imm).mpr h), if_neg fun hne => hne h]
    refine congrArg some ?_
    simp only [TinyRv32Asm.toNat_mask imm (show 13 < 32 by decide), ← BitVec.toNat_ushiftRight, BitVec.ofNat_or,
      BitVec.ofNat_and, ofNat_shiftLeft, BitVec.ofNat_toNat, BitVec.setWidth_eq]
    rfl
  · rw [if_pos fun h0 => h ((tmod_eq_zero_iff imm).mp h0), if_pos h]
    rfl

theorem TinyRv32Asm.encodeJ_eq (h : imm &&& 1 = 0) :
    (TinyRv32Asm.encodeJ imm d o).map (BitVec.ofNat 32) =
      .ok (Rv32.encodeJ (imm.extractLsb' 1 20) (d.setWidth 5) (o.setWidth 7)) := by
  unfold TinyRv32Asm.encodeJ Rv32.encodeJ
  rw [if_neg fun hne => hne ((tmod_eq_zero_iff imm).mpr h)]
  refine congrArg Except.ok ?_
  simp only [TinyRv32Asm.toNat_mask imm (show 21 < 32 by decide), ← BitVec.toNat_ushiftRight, BitVec.ofNat_or,
    BitVec.ofNat_and, ofNat_shiftLeft, BitVec.ofNat_toNat, BitVec.setWidth_eq]
  unfold Isa.maskSignedImmediate
  apply BitVec.eq_of_getLsbD_eq
  intro i hi
  interval_cases i <;>
    simp (disch := decide) only [BitVec.getLsbD_or, BitVec.getLsbD_and, BitVec.getLsbD_shiftLeft,
      BitVec.getLsbD_ushiftRight, BitVec.getLsbD_append, BitVec.getLsbD_setWidth, BitVec.getLsbD_extractLsb'] <;>
    simp

end Same

end Chisel
