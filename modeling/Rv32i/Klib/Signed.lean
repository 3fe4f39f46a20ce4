import Rv32i.Klib.Udivmod

/-!
# klib: 64-bit division

`__udivdi3` and `__umoddi3` of `abstract-machine/klib/src/int64.c`, and `__divdi3`, `__moddi3` and `__divmoddi4`, which
divide the absolute values and set the sign with a mask.  A signed operation that overflows is undefined in C and `none`
here.

* `unsigned_division` — **the quotient and the remainder**, for every divisor but zero;
* `ssub_abs` — the absolute value is undefined exactly for the smallest number;
* `signed_division` — **the truncated quotient and its remainder**, and for which operands they are undefined.
-/

namespace Klib

abbrev DiInt := BitVec 64

def diMin : DiInt := 0x8000000000000000

/-- Signed subtraction. -/
def ssub (x y : DiInt) : Option DiInt := if x.ssubOverflow y then none else some (x - y)

/-- Signed multiplication. -/
def smul (x y : DiInt) : Option DiInt := if x.smulOverflow y then none else some (x * y)

def udivdi3 (a b : DuInt) : Option DuInt := (udivmoddi4 a b none).map Prod.fst

/-- `*rem`, from the uninitialised `r`. -/
def umoddi3 (a b : DuInt) : Option DuInt := (udivmoddi4 a b (some 0)).bind Prod.snd

def divdi3 (a b : DiInt) : Option DiInt := do
  let sa := a.sshiftRight 63
  let sb := b.sshiftRight 63
  let a ← ssub (a ^^^ sa) sa
  let b ← ssub (b ^^^ sb) sb
  let sa := sa ^^^ sb
  -- the quotient is unsigned, and so are the operations on it
  return ((← udivdi3 a b) ^^^ sa) - sa

/-- The quotient and `*rem`. -/
def divmoddi4 (a b : DiInt) : Option (DiInt × DiInt) := do
  let d ← divdi3 a b
  return (d, ← ssub a (← smul d b))

def moddi3 (a b : DiInt) : Option DiInt := do
  let s := b.sshiftRight 63
  let b ← ssub (b ^^^ s) s
  let s := a.sshiftRight 63
  let a ← ssub (a ^^^ s) s
  let r ← umoddi3 a b
  ssub (r ^^^ s) s

theorem udivdi3_eq {a b : DuInt} (hb : b ≠ 0) : udivdi3 a b = some (a / b) := by
  rw [udivdi3, udivmoddi4_eq, if_neg hb]
  rfl

theorem umoddi3_eq {a b : DuInt} (hb : b ≠ 0) : umoddi3 a b = some (a % b) := by
  rw [umoddi3, udivmoddi4_eq, if_neg hb]
  rfl

/-- **Unsigned division**: the quotient and the remainder, for every dividend and every divisor but zero; a division by zero
is all that can be undefined on the way. -/
theorem unsigned_division (a b : DuInt) (rem : Option DuInt) :
    udivmoddi4 a b rem = (if b = 0 then none else some (a / b, rem.map fun _ => a % b)) ∧
    udivdi3 a b = (if b = 0 then none else some (a / b)) ∧ umoddi3 a b = (if b = 0 then none else some (a % b)) := by
  refine ⟨udivmoddi4_eq a b rem, ?_, ?_⟩
  · by_cases hb : b = 0
    · rw [if_pos hb, udivdi3, udivmoddi4_eq, if_pos hb]
      rfl
    · rw [if_neg hb, udivdi3_eq hb]
  · by_cases hb : b = 0
    · rw [if_pos hb, umoddi3, udivmoddi4_eq, if_pos hb]
      rfl
    · rw [if_neg hb, umoddi3_eq hb]

/-! ## The sign as a mask -/

theorem eq_diMin_iff (x : DiInt) : x = diMin ↔ x.toInt = -2 ^ 63 := by
  rw [← BitVec.toInt_inj]
  rfl

theorem toInt_not (x : DiInt) : (~~~x).toInt = -1 - x.toInt := by
  have hx := x.isLt
  rw [BitVec.toInt_eq_toNat_cond, BitVec.toInt_eq_toNat_cond, BitVec.toNat_not]
  split <;> split <;> omega

/-- Negation under a mask, undefined for the smallest number. -/
theorem ssub_mask (x : DiInt) (b : Bool) :
    ssub (x ^^^ if b then BitVec.allOnes 64 else 0) (if b then BitVec.allOnes 64 else 0) =
      if b = true ∧ x = diMin then none else some (if b then -x else x) := by
  have hcond := Halves.condNeg_eq x b
  have h1 := BitVec.toInt_lt (x := x)
  have h2 := BitVec.le_toInt x
  unfold ssub
  rw [hcond]
  cases b
  · have hno : (x ^^^ 0).ssubOverflow 0 = false := by
      rw [show x ^^^ 0 = x from BitVec.xor_zero]
      unfold BitVec.ssubOverflow
      rw [show (0 : DiInt).toInt = 0 from rfl]
      simp only [Bool.or_eq_false_iff, decide_eq_false_iff_not]
      omega
    simp only [Bool.false_eq_true, if_false, false_and, hno]
  · have hover : (x ^^^ BitVec.allOnes 64).ssubOverflow (BitVec.allOnes 64) = true ↔ x = diMin := by
      rw [BitVec.xor_allOnes, eq_diMin_iff]
      unfold BitVec.ssubOverflow
      rw [toInt_not, show (BitVec.allOnes 64).toInt = -1 from rfl]
      simp only [Bool.or_eq_true, decide_eq_true_eq]
      omega
    simp only [if_true, true_and, hover]

/-- The absolute value. -/
theorem ssub_abs (x : DiInt) : ssub (x ^^^ x.sshiftRight 63) (x.sshiftRight 63) = if x = diMin then none else some x.abs := by
  rw [show 63 = 64 - 1 from rfl, Halves.signMask_eq, ssub_mask]
  by_cases hx : x = diMin
  · subst hx
    rfl
  · rw [if_neg fun h => hx h.2, if_neg hx]
    rfl

/-! ## The divisions -/

theorem abs_ne_zero {b : DiInt} (hb : b ≠ 0) : b.abs ≠ 0 := by
  unfold BitVec.abs
  split
  · exact fun h => hb (BitVec.neg_eq_zero_iff.mp h)
  · exact hb

/-- The absolute value, as a number of 63 bits. -/
theorem abs_toNat_lt {b : DiInt} (hb : b ≠ diMin) : b.abs.toNat < 2 ^ 63 := by
  have hlt := b.isLt
  have hne : b.toNat ≠ 2 ^ 63 := fun h => hb (BitVec.eq_of_toNat_eq h)
  unfold BitVec.abs
  by_cases hm : b.msb = true
  · rw [if_pos hm]
    show (-b).toNat < 2 ^ 63
    rw [BitVec.toNat_neg]
    rw [BitVec.msb_eq_decide, decide_eq_true_iff] at hm
    omega
  · rw [if_neg hm]
    rw [BitVec.msb_eq_decide, decide_eq_true_iff] at hm
    omega

theorem divdi3_eq (a b : DiInt) :
    divdi3 a b = if b = 0 ∨ a = diMin ∨ b = diMin then none else some (a.sdiv b) := by
  unfold divdi3
  dsimp only
  rw [ssub_abs, ssub_abs]
  by_cases ha : a = diMin
  · rw [if_pos ha, if_pos (show b = 0 ∨ a = diMin ∨ b = diMin from .inr (.inl ha))]
    rfl
  by_cases hb : b = diMin
  · rw [if_neg ha, if_pos hb, if_pos (show b = 0 ∨ a = diMin ∨ b = diMin from .inr (.inr hb))]
    rfl
  rw [if_neg ha, if_neg hb]
  dsimp only [Option.bind_eq_bind, Option.bind_some]
  by_cases hb0 : b = 0
  · subst hb0
    rw [if_pos (.inl rfl), udivdi3, udivmoddi4_eq]
    rfl
  · rw [udivdi3_eq (abs_ne_zero hb0), if_neg (by tauto)]
    have hmask : a.sshiftRight 63 ^^^ b.sshiftRight 63 = if a.msb ^^ b.msb then BitVec.allOnes 64 else 0 := by
      rw [show 63 = 64 - 1 from rfl, Halves.signMask_eq, Halves.signMask_eq]
      cases a.msb <;> cases b.msb <;> rfl
    dsimp only [Option.bind_some]
    rw [hmask, Halves.condNeg_eq]
    unfold BitVec.sdiv BitVec.abs
    cases a.msb <;> cases b.msb <;> rfl

theorem moddi3_eq (a b : DiInt) :
    moddi3 a b = if b = 0 ∨ a = diMin ∨ b = diMin then none else some (a.srem b) := by
  unfold moddi3
  dsimp only
  rw [ssub_abs, ssub_abs]
  by_cases hb : b = diMin
  · rw [if_pos hb, if_pos (show b = 0 ∨ a = diMin ∨ b = diMin from .inr (.inr hb))]
    rfl
  by_cases ha : a = diMin
  · rw [if_neg hb, if_pos ha, if_pos (show b = 0 ∨ a = diMin ∨ b = diMin from .inr (.inl ha))]
    rfl
  rw [if_neg ha, if_neg hb]
  dsimp only [Option.bind_eq_bind, Option.bind_some]
  by_cases hb0 : b = 0
  · subst hb0
    rw [if_pos (.inl rfl), umoddi3, udivmoddi4_eq]
    rfl
  · have hr : a.abs % b.abs ≠ diMin := by
      intro h
      have hlt := abs_toNat_lt ha
      have hle : (a.abs % b.abs).toNat ≤ a.abs.toNat := by
        rw [BitVec.toNat_umod]
        exact Nat.mod_le _ _
      rw [h] at hle
      exact absurd hle (Nat.not_le.mpr hlt)
    rw [umoddi3_eq (abs_ne_zero hb0), if_neg (by tauto)]
    dsimp only [Option.bind_some]
    rw [show 63 = 64 - 1 from rfl, Halves.signMask_eq, ssub_mask, if_neg fun h => hr h.2]
    unfold BitVec.srem BitVec.abs
    cases a.msb <;> cases b.msb <;> rfl

theorem divmoddi4_eq (a b : DiInt) :
    divmoddi4 a b = if b = 0 ∨ a = diMin ∨ b = diMin then none else some (a.sdiv b, a.srem b) := by
  unfold divmoddi4
  rw [divdi3_eq]
  by_cases hcase : b = 0 ∨ a = diMin ∨ b = diMin
  · rw [if_pos hcase, if_pos hcase]
    rfl
  rw [if_neg hcase, if_neg hcase]
  dsimp only [Option.bind_eq_bind, Option.bind_some]
  push Not at hcase
  obtain ⟨hb0, ha, hb⟩ := hcase
  have hq : (a.sdiv b).toInt = a.toInt.tdiv b.toInt := BitVec.toInt_sdiv_of_ne_or_ne a b (.inl ha)
  have hr : (a.srem b).toInt = a.toInt.tmod b.toInt := BitVec.toInt_srem a b
  have hdm : b.toInt * a.toInt.tdiv b.toInt + a.toInt.tmod b.toInt = a.toInt := Int.mul_tdiv_add_tmod ..
  have ha1 := BitVec.toInt_lt (x := a)
  have ha2 := BitVec.le_toInt a
  have ha3 : a.toInt ≠ -2 ^ 63 := mt (eq_diMin_iff a).mpr ha
  have habs : a.toInt.natAbs < 2 ^ 63 := by omega
  -- neither the product nor the difference leaves the range of the dividend
  have hprod : (b.toInt * a.toInt.tdiv b.toInt).natAbs ≤ a.toInt.natAbs := by
    rw [Int.natAbs_mul, Int.natAbs_tdiv]
    exact Nat.mul_div_le _ _
  have hmod : (a.toInt.tmod b.toInt).natAbs ≤ a.toInt.natAbs := by
    rw [Int.natAbs_tmod]
    exact Nat.mod_le _ _
  have hmul : (a.sdiv b).smulOverflow b = false := by
    unfold BitVec.smulOverflow
    rw [hq, mul_comm]
    simp only [Bool.or_eq_false_iff, decide_eq_false_iff_not]
    omega
  have hmulInt : (a.sdiv b * b).toInt = b.toInt * a.toInt.tdiv b.toInt := by
    rw [BitVec.toInt_mul_of_not_smulOverflow (by simp [hmul]), hq, mul_comm]
  have hsub : a.ssubOverflow (a.sdiv b * b) = false := by
    unfold BitVec.ssubOverflow
    rw [hmulInt]
    simp only [Bool.or_eq_false_iff, decide_eq_false_iff_not]
    omega
  have hrem : a - a.sdiv b * b = a.srem b := by
    apply BitVec.eq_of_toInt_eq
    rw [BitVec.toInt_sub_of_not_ssubOverflow (by simp [hsub]), hmulInt, hr]
    omega
  unfold smul ssub
  rw [hmul]
  rw [if_neg Bool.false_ne_true]
  dsimp only [Option.bind_some]
  rw [hsub, hrem]
  rfl

/-- **Signed division**: the quotient is truncated, the remainder has the sign of the dividend, and `__divmoddi4` gives
both.  A zero divisor and an operand without an absolute value are undefined, and nothing else is. -/
theorem signed_division (a b : DiInt) :
    divdi3 a b = (if b = 0 ∨ a = diMin ∨ b = diMin then none else some (a.sdiv b)) ∧
    moddi3 a b = (if b = 0 ∨ a = diMin ∨ b = diMin then none else some (a.srem b)) ∧
    divmoddi4 a b = (if b = 0 ∨ a = diMin ∨ b = diMin then none else some (a.sdiv b, a.srem b)) :=
  ⟨divdi3_eq a b, moddi3_eq a b, divmoddi4_eq a b⟩

end Klib
