import Mathlib

/-!
# Double words by halves

A word of `w + w` bits as `h ++ l`, and its operations on the halves.

* `append_ushiftRight`, `append_shiftLeft` — a shift by at most `w`; with `_add`, by at least `w`;
* `append_shiftConcat` — a bit shifted in from below;
* `mul_split` — a product by the lowest bit of a factor;
* `signMask_eq`, `condNeg_eq` — the arithmetic shift that leaves the sign alone, and what negates with it.
-/

namespace Halves

open BitVec (shiftConcat)

variable {w : ℕ} (h l : BitVec w)

theorem append_toNat : (h ++ l).toNat = h.toNat * 2 ^ w + l.toNat := by
  rw [BitVec.toNat_append, Nat.shiftLeft_eq, mul_comm, ← Nat.two_pow_add_eq_or_of_lt l.isLt]

theorem append_getLsbD (i : ℕ) : (h ++ l).getLsbD i = if i < w then l.getLsbD i else h.getLsbD (i - w) :=
  BitVec.getLsbD_append

/-! ## Shifts -/

theorem append_ushiftRight {s : ℕ} (hs : s ≤ w) : (h ++ l) >>> s = (h >>> s) ++ ((h <<< (w - s)) ||| (l >>> s)) := by
  apply BitVec.eq_of_getLsbD_eq
  intro i hi
  simp only [append_getLsbD, BitVec.getLsbD_ushiftRight, BitVec.getLsbD_or, BitVec.getLsbD_shiftLeft]
  by_cases hiw : i < w
  · by_cases his : i < w - s
    · simp [hiw, his, show s + i < w by omega]
    · have hlow : l.getLsbD (s + i) = false := BitVec.getLsbD_of_ge _ _ (by omega)
      simp [hiw, his, hlow, show ¬ s + i < w by omega, show i - (w - s) = s + i - w by omega]
  · simp [hiw, show ¬ s + i < w by omega, show s + (i - w) = s + i - w by omega]

theorem append_ushiftRight_add (s : ℕ) : (h ++ l) >>> (w + s) = (0 : BitVec w) ++ (h >>> s) := by
  apply BitVec.eq_of_getLsbD_eq
  intro i hi
  simp only [append_getLsbD, BitVec.getLsbD_ushiftRight]
  by_cases hiw : i < w
  · simp [hiw, show ¬ w + s + i < w by omega, show w + s + i - w = s + i by omega]
  · have hhigh : h.getLsbD (w + s + i - w) = false := BitVec.getLsbD_of_ge _ _ (by omega)
    rw [if_neg (by omega), hhigh, if_neg hiw]
    simp

theorem append_shiftLeft {s : ℕ} (hs : s ≤ w) : (h ++ l) <<< s = ((h <<< s) ||| (l >>> (w - s))) ++ (l <<< s) := by
  apply BitVec.eq_of_getLsbD_eq
  intro i hi
  simp only [append_getLsbD, BitVec.getLsbD_ushiftRight, BitVec.getLsbD_or, BitVec.getLsbD_shiftLeft]
  by_cases hiw : i < w
  · by_cases his : i < s
    · simp [hiw, his]
    · simp [hiw, his, hi, show i - s < w by omega]
  · have hnot : ¬ i < s := by omega
    by_cases his : i - w < s
    · simp [hiw, his, hi, hnot, show i - s < w by omega, show w - s + (i - w) = i - s by omega]
    · have hlow : l.getLsbD (w - s + (i - w)) = false := BitVec.getLsbD_of_ge _ _ (by omega)
      simp [hiw, his, hi, hnot, hlow, show ¬ i - s < w by omega, show i - w - s = i - s - w by omega,
        show i - w < w by omega]

theorem append_shiftLeft_add (s : ℕ) : (h ++ l) <<< (w + s) = (l <<< s) ++ (0 : BitVec w) := by
  apply BitVec.eq_of_getLsbD_eq
  intro i hi
  simp only [append_getLsbD, BitVec.getLsbD_shiftLeft]
  by_cases hiw : i < w
  · simp [hiw, show i < w + s by omega]
  · by_cases his : i - w < s
    · simp [hiw, his, show i < w + s by omega]
    · simp [hiw, his, hi, show ¬ i < w + s by omega, show i - (w + s) < w by omega, show i - w < w by omega,
        show i - w - s = i - (w + s) by omega]

/-- The bit shifted out of the low half goes into the high one. -/
theorem append_shiftConcat (b : Bool) : shiftConcat (h ++ l) b =
    ((h <<< 1) ||| (l >>> (w - 1))) ++ ((l <<< 1) ||| (BitVec.ofBool b).setWidth w) := by
  apply BitVec.eq_of_getLsbD_eq
  intro i hi
  rw [BitVec.getLsbD_shiftConcat]
  simp only [append_getLsbD, BitVec.getLsbD_ushiftRight, BitVec.getLsbD_or, BitVec.getLsbD_shiftLeft]
  by_cases hi0 : i = 0
  · subst hi0
    simp [show 0 < w by omega]
  · by_cases hiw : i < w
    · simp [hi0, hiw, hi, show i - 1 < w by omega]
    · by_cases hi1 : i = w
      · subst hi1
        simp [hi, hi0]
      · have hlow : l.getLsbD (w - 1 + (i - w)) = false := BitVec.getLsbD_of_ge _ _ (by omega)
        simp [hi0, hiw, hi, hlow, show ¬ i - 1 < w by omega, show i - w < w by omega,
          show i - w - 1 = i - 1 - w by omega, show ¬ i - w < 1 by omega]

theorem msb_setWidth (x : BitVec w) : x >>> (w - 1) = (BitVec.ofBool x.msb).setWidth w := by
  apply BitVec.eq_of_getLsbD_eq
  intro i hi
  rw [BitVec.getLsbD_ushiftRight, BitVec.getLsbD_setWidth, BitVec.msb_eq_getLsbD_last]
  by_cases hi0 : i = 0
  · subst hi0
    simp [hi]
  · have hhigh : x.getLsbD (w - 1 + i) = false := BitVec.getLsbD_of_ge _ _ (by omega)
    simp [hi0, hhigh]

/-! ## Products -/

/-- The lowest bit of a factor, for one summand, and its other bits. -/
theorem mul_split (x y : BitVec w) : y * x = (if y.getLsbD 0 then x else 0) + (y >>> 1) * (x <<< 1) := by
  have hhalf : y >>> 1 = BitVec.ofNat w (y.toNat / 2) := by
    apply BitVec.eq_of_toNat_eq
    rw [BitVec.toNat_ushiftRight, BitVec.toNat_ofNat, Nat.shiftRight_eq_div_pow, pow_one,
      Nat.mod_eq_of_lt ((Nat.div_le_self _ _).trans_lt y.isLt)]
  have hdouble : x <<< 1 = BitVec.ofNat w 2 * x := by
    apply BitVec.eq_of_toNat_eq
    rw [BitVec.toNat_shiftLeft, BitVec.toNat_mul, BitVec.toNat_ofNat, Nat.mod_mul_mod, Nat.shiftLeft_eq, mul_comm]
  have hbit : BitVec.ofNat w (y.toNat % 2) * x = if y.getLsbD 0 then x else 0 := by
    rw [← BitVec.testBit_toNat, Nat.testBit_zero]
    rcases Nat.mod_two_eq_zero_or_one y.toNat with h | h
    · rw [h]
      simp
    · rw [h]
      simp
  have hy : y = BitVec.ofNat w (y.toNat % 2) + BitVec.ofNat w (y.toNat / 2) * BitVec.ofNat w 2 := by
    rw [← BitVec.ofNat_mul, ← BitVec.ofNat_add, Nat.mod_add_div']
    simp
  rw [hhalf, hdouble, ← hbit]
  conv_lhs => rw [hy]
  ring

/-! ## The sign as a mask -/

theorem signMask_eq (x : BitVec w) : x.sshiftRight (w - 1) = if x.msb then BitVec.allOnes w else 0 := by
  apply BitVec.eq_of_getLsbD_eq
  intro i hi
  rw [BitVec.getLsbD_sshiftRight]
  cases hx : x.msb
  · by_cases hi0 : i = 0
    · subst hi0
      simp [← BitVec.msb_eq_getLsbD_last, hx]
    · simp [show ¬ w - 1 + i < w by omega]
  · by_cases hi0 : i = 0
    · subst hi0
      simp [hi, show ¬ w = 0 by omega, ← BitVec.msb_eq_getLsbD_last, hx]
    · simp [hi, show ¬ w - 1 + i < w by omega]

/-- Negation where the mask is all ones, nothing where it is zero. -/
theorem condNeg_eq (x : BitVec w) (b : Bool) :
    (x ^^^ if b then BitVec.allOnes w else 0) - (if b then BitVec.allOnes w else 0) = if b then -x else x := by
  cases b
  · simp
  · rw [if_pos rfl, if_pos rfl, BitVec.xor_allOnes, BitVec.neg_eq_not_add, ← BitVec.neg_one_eq_allOnes, sub_neg_eq_add]

end Halves
