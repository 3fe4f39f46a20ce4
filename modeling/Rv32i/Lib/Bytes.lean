import Mathlib.Data.BitVec
import Mathlib.Tactic.IntervalCases

/-!
# The four bytes of a word

A 32-bit word as its four little-endian bytes: `byte v j` is byte `j`, `ofBytes` puts four bytes together, `setByte`
replaces one of them.  A word is known from its bytes (`eq_of_byte_eq`).
-/

namespace Bytes

/-- Byte `j` of a word. -/
def byte (v : BitVec 32) (j : ℕ) : BitVec 8 := v.extractLsb' (8 * j) 8

theorem byte_toNat (v : BitVec 32) (j : ℕ) : (byte v j).toNat = v.toNat / 2 ^ (8 * j) % 2 ^ 8 := by
  unfold byte
  rw [BitVec.extractLsb'_toNat, Nat.shiftRight_eq_div_pow]

/-- The word of the bytes `f 0`, …, `f 3`. -/
def ofBytes (f : ℕ → BitVec 8) : BitVec 32 := f 3 ++ f 2 ++ f 1 ++ f 0

theorem byte_ofBytes (f : ℕ → BitVec 8) {j : ℕ} (hj : j < 4) : byte (ofBytes f) j = f j := by
  have h : ∀ k, (ofBytes f).extractLsb' k 8 = BitVec.extractLsb' (n := 8 + 8 + 8 + 8) k 8 (f 3 ++ f 2 ++ f 1 ++ f 0) :=
    fun _ => rfl
  unfold byte
  rw [h]
  interval_cases j <;>
    simp (disch := decide) only [BitVec.extractLsb'_append_eq_of_le, BitVec.extractLsb'_append_eq_of_add_le] <;> simp

/-- A word is known from its bytes. -/
theorem eq_of_byte_eq {v v' : BitVec 32} (h : ∀ j < 4, byte v j = byte v' j) : v = v' := by
  apply BitVec.eq_of_getLsbD_eq
  intro i hi
  have hbyte := congrArg (fun b => b.getLsbD (i % 8)) (h (i / 8) (by omega))
  simp only [byte, BitVec.getLsbD_extractLsb', show i % 8 < 8 by omega, decide_true, Bool.true_and,
    Nat.div_add_mod] at hbyte
  exact hbyte

theorem ofBytes_byte (v : BitVec 32) : ofBytes (byte v) = v := eq_of_byte_eq fun _ hj => byte_ofBytes _ hj

theorem ofBytes_congr {f g : ℕ → BitVec 8} (h : ∀ j < 4, f j = g j) : ofBytes f = ofBytes g :=
  eq_of_byte_eq fun j hj => by rw [byte_ofBytes f hj, byte_ofBytes g hj, h j hj]

/-- The word with byte `b` replaced. -/
def setByte (v : BitVec 32) (b : ℕ) (x : BitVec 8) : BitVec 32 := ofBytes fun j => if j = b then x else byte v j

theorem byte_setByte (v : BitVec 32) (b : ℕ) (x : BitVec 8) {j : ℕ} (hj : j < 4) :
    byte (setByte v b x) j = if j = b then x else byte v j := byte_ofBytes _ hj

theorem byte_zero {j : ℕ} (hj : j < 4) : byte 0 j = 0 := by interval_cases j <;> rfl

/-- A byte as a word. -/
theorem byte_setWidth (x : BitVec 8) : byte (x.setWidth 32) 0 = x := by
  unfold byte
  apply BitVec.eq_of_getLsbD_eq
  intro i hi
  simp [hi, show i < 32 by omega]

/-- A word is zero if its bytes are. -/
theorem eq_zero_iff (v : BitVec 32) : v = 0 ↔ ∀ j < 4, byte v j = 0 := by
  constructor
  · rintro rfl j hj
    exact byte_zero hj
  · intro h
    exact eq_of_byte_eq fun j hj => (h j hj).trans (byte_zero hj).symm

end Bytes
