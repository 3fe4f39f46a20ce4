import Rv32i.Klib.Signed

/-!
# klib: counting zeros

`__clzsi2`, `__ctzsi2`, `__clzdi2` and `__ctzdi2` of `abstract-machine/klib/src/int64.c`, which halve the word four times
and finish with a two-bit number, without a branch.

* `ClzInv`, `CtzInv` — what has been counted, and where the first one bit of the rest is;
* `clzHalf_inv`, `ctzHalf_inv` — a halving keeps it;
* `counts_zeros` — **the counts**, for every number but zero.
-/

namespace Klib

abbrev SiInt := BitVec 32

/-- `(b) << k` for a truth value `b`. -/
def flagShl (b : Bool) (k : ℕ) : SuInt := (if b then 1 else 0 : SuInt) <<< k

/-- `t = ((x & mask) == 0) << k; x >>= 2 ^ k - t; r += t` -/
def clzHalf (mask : SuInt) (k : ℕ) (x r : SuInt) : SuInt × SuInt :=
  let t := flagShl ((x &&& mask) = 0) k
  (x >>> (BitVec.ofNat 32 (2 ^ k) - t).toNat, r + t)

def clzsi2 (a : SiInt) : SiInt :=
  let (x, r) := clzHalf 0xFFFF0000 4 a 0
  let (x, r) := clzHalf 0xFF00 3 x r
  let (x, r) := clzHalf 0xF0 2 x r
  let (x, r) := clzHalf 0xC 1 x r
  r + ((2 - x) &&& -flagShl ((x &&& 2) = 0) 0)

/-- `t = ((x & mask) == 0) << k; x >>= t; r += t` -/
def ctzHalf (mask : SuInt) (k : ℕ) (x r : SuInt) : SuInt × SuInt :=
  let t := flagShl ((x &&& mask) = 0) k
  (x >>> t.toNat, r + t)

def ctzsi2 (a : SiInt) : SiInt :=
  let (x, r) := ctzHalf 0x0000FFFF 4 a 0
  let (x, r) := ctzHalf 0x00FF 3 x r
  let (x, r) := ctzHalf 0x0F 2 x r
  let (x, r) := ctzHalf 0x3 1 x r
  let x := x &&& 3
  r + ((2 - x >>> 1) &&& -flagShl ((x &&& 1) = 0) 0)

def ctzdi2 (a : DiInt) : SiInt :=
  let x := Udwords.ofAll a
  let f := -flagShl (x.low = 0) 0
  ctzsi2 ((x.high &&& f) ||| (x.low &&& ~~~f)) + (f &&& 32)

def clzdi2 (a : DiInt) : SiInt :=
  let x := Udwords.ofAll a
  let f := -flagShl (x.high = 0) 0
  clzsi2 ((x.high &&& ~~~f) ||| (x.low &&& f)) + (f &&& 32)

theorem flagShl_toNat (b : Bool) {k : ℕ} (hk : k ≤ 4) : (flagShl b k).toNat = if b then 2 ^ k else 0 := by
  cases b
  · unfold flagShl
    simp
  · have h4 : 2 ^ k ≤ 2 ^ 4 := Nat.pow_le_pow_right (by omega) hk
    unfold flagShl
    rw [if_pos rfl, if_pos rfl, BitVec.toNat_shiftLeft, Nat.shiftLeft_eq]
    show 1 * 2 ^ k % 2 ^ 32 = 2 ^ k
    omega

/-- Half of the bits that are left. -/
theorem half_le {k : ℕ} (hk : k ≤ 4) : 2 ^ k ≤ 16 ∧ 2 ^ (k + 1) = 2 ^ k + 2 ^ k :=
  ⟨Nat.pow_le_pow_right (by omega) hk, by rw [pow_succ]; omega⟩

/-! ## Leading zeros -/

/-- `r` zeros have been counted, and the highest bit of what is left of `a`, a number of `w` bits, is bit `k`. -/
def ClzInv (a : SuInt) (w : ℕ) (x r : SuInt) : Prop :=
  x.toNat < 2 ^ w ∧ ∃ k, 2 ^ k ≤ x.toNat ∧ x.toNat < 2 ^ (k + 1) ∧ r.toNat + w = a.clz.toNat + k + 1

/-- The mask of a halving: the upper half of the bits that are left. -/
def upper (w : ℕ) : SuInt := BitVec.ofNat 32 ((2 ^ w - 1) <<< w)

theorem and_upper_eq_zero {x : SuInt} {w : ℕ} (hw : w + w ≤ 32) (h : x.toNat < 2 ^ (w + w)) :
    x &&& upper w = 0 ↔ x.toNat < 2 ^ w := by
  have hpos := Nat.two_pow_pos w
  have hpow : 2 ^ (w + w) = 2 ^ w * 2 ^ w := pow_add ..
  have hmask : (2 ^ w - 1) <<< w < 2 ^ 32 := by
    have hle : 2 ^ (w + w) ≤ 2 ^ 32 := Nat.pow_le_pow_right (by omega) hw
    have hlt : (2 ^ w - 1) * 2 ^ w < 2 ^ w * 2 ^ w := Nat.mul_lt_mul_of_pos_right (by omega) hpos
    rw [Nat.shiftLeft_eq]
    omega
  have hand : (x &&& upper w).toNat = x.toNat / 2 ^ w * 2 ^ w := by
    have hdiv : x.toNat / 2 ^ w < 2 ^ w := Nat.div_lt_of_lt_mul (hpow ▸ h)
    have hsplit : x.toNat &&& (2 ^ w - 1) <<< w = ((x.toNat >>> w) &&& (2 ^ w - 1)) <<< w := by
      apply Nat.eq_of_testBit_eq
      intro i
      simp only [Nat.testBit_and, Nat.testBit_shiftLeft, Nat.testBit_shiftRight]
      by_cases hi : i ≥ w
      · simp [hi, show w + (i - w) = i by omega]
      · simp [hi]
    unfold upper
    rw [BitVec.toNat_and, BitVec.toNat_ofNat, Nat.mod_eq_of_lt hmask, hsplit, Nat.and_two_pow_sub_one_eq_mod,
      Nat.shiftRight_eq_div_pow, Nat.mod_eq_of_lt hdiv, Nat.shiftLeft_eq]
  rw [← BitVec.toNat_inj, hand]
  show x.toNat / 2 ^ w * 2 ^ w = 0 ↔ x.toNat < 2 ^ w
  rw [Nat.mul_eq_zero, Nat.div_eq_zero_iff]
  omega

theorem clzHalf_inv {a x r : SuInt} {k : ℕ} (hk : k ≤ 4) (h : ClzInv a (2 ^ (k + 1)) x r) :
    ClzInv a (2 ^ k) (clzHalf (upper (2 ^ k)) k x r).1 (clzHalf (upper (2 ^ k)) k x r).2 := by
  obtain ⟨hk16, hdouble⟩ := half_le hk
  obtain ⟨hx, j, hj1, hj2, hr⟩ := h
  have hclz : a.clz.toNat ≤ 32 := BitVec.clz_le (x := a)
  have hflag := flagShl_toNat (decide (x &&& upper (2 ^ k) = 0)) hk
  rw [hdouble] at hx hr
  have hj : j < 2 ^ k + 2 ^ k := (Nat.pow_lt_pow_iff_right (by omega)).mp (hj1.trans_lt hx)
  have hof : (BitVec.ofNat 32 (2 ^ k)).toNat = 2 ^ k := Nat.mod_eq_of_lt (by omega)
  unfold clzHalf
  dsimp only
  generalize flagShl (decide (x &&& upper (2 ^ k) = 0)) k = t at hflag ⊢
  simp only [decide_eq_true_eq, and_upper_eq_zero (show 2 ^ k + 2 ^ k ≤ 32 by omega) hx] at hflag
  by_cases hlt : x.toNat < 2 ^ 2 ^ k
  · rw [if_pos hlt] at hflag
    have hshift : (BitVec.ofNat 32 (2 ^ k) - t).toNat = 0 := by bv_omega
    rw [hshift, BitVec.ushiftRight_zero]
    exact ⟨hlt, j, hj1, hj2, by bv_omega⟩
  · rw [if_neg hlt] at hflag
    have hshift : (BitVec.ofNat 32 (2 ^ k) - t).toNat = 2 ^ k := by bv_omega
    have hjk : 2 ^ k ≤ j := by
      have := (Nat.pow_lt_pow_iff_right (a := 2) (by omega)).mp (lt_of_le_of_lt (Nat.not_lt.mp hlt) hj2)
      omega
    have hval : (x >>> 2 ^ k).toNat = x.toNat / 2 ^ 2 ^ k := by
      rw [BitVec.toNat_ushiftRight, Nat.shiftRight_eq_div_pow]
    rw [hshift]
    refine ⟨?_, j - 2 ^ k, ?_, ?_, by bv_omega⟩
    · rw [hval]
      exact Nat.div_lt_of_lt_mul (by rw [← pow_add]; exact hx)
    · rw [hval, Nat.le_div_iff_mul_le (Nat.two_pow_pos _), ← pow_add, Nat.sub_add_cancel hjk]
      exact hj1
    · rw [hval]
      apply Nat.div_lt_of_lt_mul
      rw [← pow_add, show 2 ^ k + (j - 2 ^ k + 1) = j + 1 by omega]
      exact hj2

/-- The last two bits. -/
theorem clz_two {a x r : SuInt} (h : ClzInv a 2 x r) : r + ((2 - x) &&& -flagShl ((x &&& 2) = 0) 0) = a.clz := by
  obtain ⟨hx, j, hj1, hj2, hr⟩ := h
  have hclz : a.clz.toNat ≤ 32 := BitVec.clz_le (x := a)
  have hj : j < 2 := (Nat.pow_lt_pow_iff_right (by omega)).mp (hj1.trans_lt hx)
  have hcases : j = 0 ∧ x = 1 ∨ j = 1 ∧ (x = 2 ∨ x = 3) := by
    rcases Nat.lt_succ_iff_lt_or_eq.mp hj with h0 | rfl
    · rw [show j = 0 by omega] at hj1 hj2
      exact .inl ⟨by omega, by bv_omega⟩
    · exact .inr ⟨rfl, by bv_omega⟩
  rcases hcases with ⟨rfl, rfl⟩ | ⟨rfl, rfl | rfl⟩
  · show r + 1 = a.clz
    bv_omega
  · show r + 0 = a.clz
    bv_omega
  · show r + 0 = a.clz
    bv_omega

theorem clzsi2_eq {a : SiInt} (ha : a ≠ 0) : clzsi2 a = a.clz := by
  obtain ⟨k, hk, h1, h2⟩ := CountZeros.clz_bounds ha
  have h32 : ClzInv a (2 ^ (4 + 1)) a 0 := ⟨a.isLt, k, h1, h2, by show 0 + 32 = _; omega⟩
  have h16 := clzHalf_inv (k := 4) (by omega) h32
  have h8 := clzHalf_inv (k := 3) (by omega) h16
  have h4 := clzHalf_inv (k := 2) (by omega) h8
  exact clz_two (clzHalf_inv (k := 1) (by omega) h4)

/-! ## Trailing zeros -/

/-- `r` zeros have been counted, and the lowest bit of what is left of `a` is bit `k`, among the `w` lowest. -/
def CtzInv (a : SuInt) (w : ℕ) (x r : SuInt) : Prop :=
  ∃ k < w, x.getLsbD k = true ∧ (∀ i < k, x.getLsbD i = false) ∧ r.toNat + k = a.ctz.toNat

/-- The mask of a halving: the lower half of the bits that count. -/
def lower (w : ℕ) : SuInt := BitVec.ofNat 32 (2 ^ w - 1)

theorem getLsbD_lower (w i : ℕ) : (lower w).getLsbD i = (decide (i < 32) && decide (i < w)) := by
  unfold lower
  rw [BitVec.getLsbD_ofNat, Nat.testBit_two_pow_sub_one]

theorem and_lower_eq_zero {x : SuInt} {w k : ℕ} (hk : x.getLsbD k = true) (hlow : ∀ i < k, x.getLsbD i = false) :
    x &&& lower w = 0 ↔ w ≤ k := by
  have hk32 : k < 32 := BitVec.lt_of_getLsbD hk
  constructor
  · intro h
    by_contra hlt
    have hbit : (x &&& lower w).getLsbD k = true := by
      rw [BitVec.getLsbD_and, getLsbD_lower, hk, decide_eq_true hk32, decide_eq_true (by omega)]
      rfl
    rw [h] at hbit
    simp at hbit
  · intro h
    apply BitVec.eq_of_getLsbD_eq
    intro i hi
    rw [BitVec.getLsbD_and, getLsbD_lower]
    by_cases hik : i < k
    · simp [hlow i hik]
    · simp [show ¬ i < w by omega]

theorem ctzHalf_inv {a x r : SuInt} {k : ℕ} (hk : k ≤ 4) (h : CtzInv a (2 ^ (k + 1)) x r) :
    CtzInv a (2 ^ k) (ctzHalf (lower (2 ^ k)) k x r).1 (ctzHalf (lower (2 ^ k)) k x r).2 := by
  obtain ⟨hk16, hdouble⟩ := half_le hk
  obtain ⟨j, hjw, hbit, hlow, hr⟩ := h
  have hctz := a.ctz.isLt
  have hflag := flagShl_toNat (decide (x &&& lower (2 ^ k) = 0)) hk
  unfold ctzHalf
  dsimp only
  generalize flagShl (decide (x &&& lower (2 ^ k) = 0)) k = t at hflag ⊢
  simp only [decide_eq_true_eq, and_lower_eq_zero hbit hlow] at hflag
  have hj32 : j < 32 := BitVec.lt_of_getLsbD hbit
  by_cases hjk : 2 ^ k ≤ j
  · rw [if_pos hjk] at hflag
    rw [hflag]
    refine ⟨j - 2 ^ k, by omega, ?_, fun i hi => ?_, by bv_omega⟩
    · rw [BitVec.getLsbD_ushiftRight, Nat.add_sub_cancel' hjk]
      exact hbit
    · rw [BitVec.getLsbD_ushiftRight]
      exact hlow _ (by omega)
  · rw [if_neg hjk] at hflag
    rw [hflag, BitVec.ushiftRight_zero]
    exact ⟨j, by omega, hbit, hlow, by bv_omega⟩

/-- The last two bits. -/
theorem ctz_two {a x r : SuInt} (h : CtzInv a 2 x r) :
    r + ((2 - (x &&& 3) >>> 1) &&& -flagShl (((x &&& 3) &&& 1) = 0) 0) = a.ctz := by
  obtain ⟨k, hk, hbit, hlow, hr⟩ := h
  have hctz := a.ctz.isLt
  have hand : (x &&& 3).toNat = x.toNat % 4 := Nat.and_two_pow_sub_one_eq_mod x.toNat 2
  have hcases : k = 0 ∧ (x &&& 3 = 1 ∨ x &&& 3 = 3) ∨ k = 1 ∧ x &&& 3 = 2 := by
    rcases Nat.lt_succ_iff_lt_or_eq.mp hk with h0 | rfl
    · obtain rfl : k = 0 := by omega
      have hodd : x.toNat % 2 = 1 := by
        rw [← BitVec.testBit_toNat, Nat.testBit_zero] at hbit
        exact of_decide_eq_true hbit
      exact .inl ⟨rfl, by bv_omega⟩
    · have heven : x.toNat % 2 = 0 := by
        have h0 := hlow 0 (by omega)
        rw [← BitVec.testBit_toNat, Nat.testBit_zero] at h0
        have := of_decide_eq_false h0
        omega
      have hodd : x.toNat / 2 % 2 = 1 := by
        rw [← BitVec.testBit_toNat, Nat.testBit_succ, Nat.testBit_zero] at hbit
        exact of_decide_eq_true hbit
      exact .inr ⟨rfl, by bv_omega⟩
  rcases hcases with ⟨rfl, hy | hy⟩ | ⟨rfl, hy⟩ <;> rw [hy]
  · show r + 0 = a.ctz
    bv_omega
  · show r + 0 = a.ctz
    bv_omega
  · show r + 1 = a.ctz
    bv_omega

theorem ctzsi2_eq {a : SiInt} (ha : a ≠ 0) : ctzsi2 a = a.ctz := by
  have hlt : a.ctz.toNat < 32 := BitVec.ctz_lt_iff_ne_zero.mpr ha
  have h32 : CtzInv a (2 ^ (4 + 1)) a 0 :=
    ⟨a.ctz.toNat, hlt, BitVec.getLsbD_true_ctz_of_ne_zero ha, fun i hi => BitVec.getLsbD_false_of_lt_ctz hi, Nat.zero_add _⟩
  have h16 := ctzHalf_inv (k := 4) (by omega) h32
  have h8 := ctzHalf_inv (k := 3) (by omega) h16
  have h4 := ctzHalf_inv (k := 2) (by omega) h8
  exact ctz_two (ctzHalf_inv (k := 1) (by omega) h4)

/-! ## Double words -/

theorem mask_flag (b : Bool) : -flagShl b 0 = if b then BitVec.allOnes 32 else 0 := by
  cases b <;> rfl

theorem select (x y : SuInt) (b : Bool) : (x &&& if b then BitVec.allOnes 32 else 0) |||
    (y &&& ~~~(if b then BitVec.allOnes 32 else 0)) = if b then x else y := by
  cases b
  · show (x &&& 0#32) ||| (y &&& ~~~0#32) = y
    rw [BitVec.not_zero, BitVec.and_allOnes, BitVec.and_zero, BitVec.zero_or]
  · show (x &&& BitVec.allOnes 32) ||| (y &&& ~~~BitVec.allOnes 32) = x
    rw [BitVec.not_allOnes, BitVec.and_allOnes, BitVec.and_zero, BitVec.or_zero]

theorem getLsbD_ofAll (a : DuInt) (i : ℕ) :
    a.getLsbD i = if i < 32 then (Udwords.ofAll a).low.getLsbD i else (Udwords.ofAll a).high.getLsbD (i - 32) := by
  conv_lhs => rw [← Udwords.all_ofAll a]
  exact Halves.append_getLsbD _ _ i

theorem ofAll_ne_zero {a : DuInt} (ha : a ≠ 0) (h : (Udwords.ofAll a).low = 0) : (Udwords.ofAll a).high ≠ 0 := by
  intro hhigh
  apply ha
  rw [← Udwords.all_ofAll a]
  unfold Udwords.all
  rw [h, hhigh]
  rfl

/-- **Trailing zeros** of a double word. -/
theorem ctzdi2_eq {a : DiInt} (ha : a ≠ 0) : (ctzdi2 a).toNat = a.ctz.toNat := by
  unfold ctzdi2
  dsimp only
  rw [mask_flag, select]
  by_cases hlow : (Udwords.ofAll a).low = 0
  · have hhigh := ofAll_ne_zero ha hlow
    have hlt : (Udwords.ofAll a).high.ctz.toNat < 32 := BitVec.ctz_lt_iff_ne_zero.mpr hhigh
    have hctz : a.ctz.toNat = 32 + (Udwords.ofAll a).high.ctz.toNat := by
      refine CountZeros.ctz_eq ?_ fun i hi => ?_
      · rw [getLsbD_ofAll, if_neg (by omega), Nat.add_sub_cancel_left]
        exact BitVec.getLsbD_true_ctz_of_ne_zero hhigh
      · rw [getLsbD_ofAll]
        by_cases hi32 : i < 32
        · rw [if_pos hi32, hlow]
          exact BitVec.getLsbD_zero
        · rw [if_neg hi32]
          exact BitVec.getLsbD_false_of_lt_ctz (by omega)
    rw [decide_eq_true hlow, if_pos rfl, if_pos rfl, ctzsi2_eq hhigh, BitVec.toNat_add, hctz]
    show (_ + 32) % 2 ^ 32 = _
    omega
  · have hlt : (Udwords.ofAll a).low.ctz.toNat < 32 := BitVec.ctz_lt_iff_ne_zero.mpr hlow
    have hctz : a.ctz.toNat = (Udwords.ofAll a).low.ctz.toNat := by
      refine CountZeros.ctz_eq ?_ fun i hi => ?_
      · rw [getLsbD_ofAll, if_pos hlt]
        exact BitVec.getLsbD_true_ctz_of_ne_zero hlow
      · rw [getLsbD_ofAll, if_pos (by omega)]
        exact BitVec.getLsbD_false_of_lt_ctz hi
    rw [decide_eq_false hlow, if_neg (by simp), if_neg (by simp), ctzsi2_eq hlow, BitVec.toNat_add, hctz]
    show (_ + 0) % 2 ^ 32 = _
    omega

/-- **Leading zeros** of a double word. -/
theorem clzdi2_eq {a : DiInt} (ha : a ≠ 0) : (clzdi2 a).toNat = a.clz.toNat := by
  have hall := Udwords.all_toNat (.ofAll a)
  rw [Udwords.all_ofAll] at hall
  unfold clzdi2
  dsimp only
  rw [mask_flag, BitVec.or_comm, select]
  by_cases hhigh : (Udwords.ofAll a).high = 0
  · have hlow : (Udwords.ofAll a).low ≠ 0 := fun h => ofAll_ne_zero ha h hhigh
    obtain ⟨k, hk, h1, h2⟩ := CountZeros.clz_bounds hlow
    have hval : a.toNat = (Udwords.ofAll a).low.toNat := by
      rw [hall, hhigh]
      exact Nat.zero_add _
    have hclz := CountZeros.clz_eq (x := a) (hval ▸ h1) (hval ▸ h2)
    rw [decide_eq_true hhigh, if_pos rfl, if_pos rfl, clzsi2_eq hlow, BitVec.toNat_add]
    show (_ + 32) % 2 ^ 32 = _
    omega
  · obtain ⟨k, hk, h1, h2⟩ := all_bounds hhigh
    rw [Udwords.all_ofAll] at h1 h2
    have hclz := CountZeros.clz_eq (x := a) h1 (by rw [show 32 + k + 1 = 33 + k by omega]; exact h2)
    rw [decide_eq_false hhigh, if_neg (by simp), if_neg (by simp), clzsi2_eq hhigh, BitVec.toNat_add]
    show (_ + 0) % 2 ^ 32 = _
    omega

/-- **The zeros are counted**, in words and in double words, wherever there is a one bit. -/
theorem counts_zeros {a : SiInt} {b : DiInt} (ha : a ≠ 0) (hb : b ≠ 0) :
    builtinClz a = some (clzsi2 a) ∧ builtinCtz a = some (ctzsi2 a) ∧
      (clzdi2 b).toNat = b.clz.toNat ∧ (ctzdi2 b).toNat = b.ctz.toNat := by
  rw [clzsi2_eq ha, ctzsi2_eq ha]
  exact ⟨builtinClz_eq ha, builtinCtz_eq ha, clzdi2_eq hb, ctzdi2_eq hb⟩

/-- A word whose low byte is zero and a double word whose low half is. -/
theorem counts_zeros_low : builtinClz 0x00fe1200 = some (clzsi2 0x00fe1200) ∧
    builtinCtz 0x00fe1200 = some (ctzsi2 0x00fe1200) ∧
    (clzdi2 0x0000a00000000000).toNat = (0x0000a00000000000 : DiInt).clz.toNat ∧
    (ctzdi2 0x0000a00000000000).toNat = (0x0000a00000000000 : DiInt).ctz.toNat :=
  counts_zeros (by simp) (by simp)

end Klib
