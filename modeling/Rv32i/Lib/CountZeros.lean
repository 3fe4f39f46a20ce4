import Mathlib

/-!
# Counting zeros

The counts `BitVec.clz` and `BitVec.ctz` of a nonzero word from where its outermost bits are, and a word that is a power
of two from the test `x &&& (x - 1) = 0`.
-/

namespace CountZeros

variable {w : ℕ} {x : BitVec w}

/-- The leading zeros end at the highest bit. -/
theorem clz_eq {k : ℕ} (h1 : 2 ^ k ≤ x.toNat) (h2 : x.toNat < 2 ^ (k + 1)) : x.clz.toNat + k + 1 = w := by
  have hkw : k < w := (Nat.pow_lt_pow_iff_right (by omega)).mp (h1.trans_lt x.isLt)
  have hx : x ≠ 0#w := by
    rintro rfl
    have := Nat.two_pow_pos k
    simp only [BitVec.toNat_ofNat, Nat.zero_mod] at h1
    omega
  have hlow := BitVec.two_pow_sub_clz_le_toNat_of_ne_zero (by omega) hx
  have hhigh := BitVec.toNat_lt_two_pow_sub_clz (x := x)
  have h3 : w - 1 - x.clz.toNat < k + 1 := (Nat.pow_lt_pow_iff_right (by omega)).mp (hlow.trans_lt h2)
  have h4 : k < w - x.clz.toNat := (Nat.pow_lt_pow_iff_right (by omega)).mp (h1.trans_lt hhigh)
  omega

/-- A nonzero word between the powers of two that its leading zeros give. -/
theorem clz_bounds (hx : x ≠ 0#w) :
    ∃ k, x.clz.toNat + k + 1 = w ∧ 2 ^ k ≤ x.toNat ∧ x.toNat < 2 ^ (k + 1) := by
  have hw : 0 < w := by
    rcases Nat.eq_zero_or_pos w with rfl | hw
    · exact absurd (BitVec.of_length_zero (x := x)) hx
    · exact hw
  have hpos : 0 < x.toNat := Nat.pos_of_ne_zero fun h => hx (BitVec.eq_of_toNat_eq h)
  have h1 := Nat.log2_self_le (n := x.toNat) (by omega)
  have h2 := Nat.lt_log2_self (n := x.toNat)
  exact ⟨x.toNat.log2, clz_eq h1 h2, h1, h2⟩

/-- The trailing zeros end at the lowest bit. -/
theorem ctz_eq {k : ℕ} (h1 : x.getLsbD k = true) (h2 : ∀ i < k, x.getLsbD i = false) : x.ctz.toNat = k := by
  have hx : x ≠ 0#w := by
    rintro rfl
    simp at h1
  have hbit := BitVec.getLsbD_true_ctz_of_ne_zero hx
  rcases Nat.lt_trichotomy x.ctz.toNat k with h | h | h
  · rw [h2 _ h] at hbit
    cases hbit
  · exact h
  · rw [BitVec.getLsbD_false_of_lt_ctz h] at h1
    cases h1

/-- Where the test finds no second bit, the word is the power of two of its trailing zeros. -/
theorem eq_two_pow_ctz (hx : x ≠ 0#w) (h : x &&& (x - 1#w) = 0#w) : x.toNat = 2 ^ x.ctz.toNat := by
  have hpos : x.toNat ≠ 0 := fun h => hx (BitVec.eq_of_toNat_eq h)
  have hsub : (x - 1#w).toNat = x.toNat - 1 := by
    have hlt := x.isLt
    have hw : 1 < 2 ^ w ∨ w = 0 := by
      rcases w with _ | w
      · exact .inr rfl
      · exact .inl (Nat.one_lt_two_pow (by omega))
    rcases hw with hw | rfl
    · rw [BitVec.toNat_sub, BitVec.toNat_ofNat, Nat.mod_eq_of_lt hw, show 2 ^ w - 1 + x.toNat = x.toNat - 1 + 2 ^ w by omega,
        Nat.add_mod_right, Nat.mod_eq_of_lt (by omega)]
    · exact absurd (BitVec.of_length_zero (x := x)) hx
  have hand : x.toNat &&& (x.toNat - 1) = 0 := by
    rw [← hsub, ← BitVec.toNat_and, h]
    rfl
  obtain ⟨k, hk⟩ := (Nat.and_sub_one_eq_zero_iff_isPowerOfTwo hpos).mp hand
  have hctz : x.ctz.toNat = k := by
    refine ctz_eq ?_ fun i hi => ?_
    · show x.toNat.testBit k = true
      rw [hk, Nat.testBit_two_pow_self]
    · show x.toNat.testBit i = false
      rw [hk, Nat.testBit_two_pow_of_ne (by omega)]
  rw [hctz, hk]

end CountZeros
