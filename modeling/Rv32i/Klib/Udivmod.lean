import Rv32i.Lib.CountZeros
import Rv32i.Lib.Halves

/-!
# klib: 64-bit division

`__udivmoddi4` of `abstract-machine/klib/src/int64.c`, over 32-bit halves.  What C leaves undefined is `none`: a shift by
the width or more, a division by zero and the bit count of zero.

* `Start` — where the special cases end: at a result, or before the loop;
* `start_right` — the special cases are right, and `q` and `r` before the loop are what the comment in front of it says;
* `LoopInv.step` — a round of the loop is a round of the shift-subtract division `BitVec.divSubtractShift`;
* `udivmoddi4_eq` — **the quotient and the remainder**, for every dividend and every divisor but zero.
-/

namespace Klib

abbrev SuInt := BitVec 32
abbrev DuInt := BitVec 64

/-! ## Halves -/

/-- The union of a double word and its halves. -/
structure Udwords where
  low : SuInt
  high : SuInt

def Udwords.all (u : Udwords) : DuInt := u.high ++ u.low

def Udwords.ofAll (a : DuInt) : Udwords where
  low := a.extractLsb' 0 32
  high := a.extractLsb' 32 32

/-! ## Operations that C defines for some operands only -/

def shl (x k : SuInt) : Option SuInt := if k.toNat < 32 then some (x <<< k.toNat) else none
def shr (x k : SuInt) : Option SuInt := if k.toNat < 32 then some (x >>> k.toNat) else none
def div (x y : SuInt) : Option SuInt := if y = 0 then none else some (x / y)
def mod (x y : SuInt) : Option SuInt := if y = 0 then none else some (x % y)
def builtinClz (x : SuInt) : Option SuInt := if x = 0 then none else some x.clz
def builtinCtz (x : SuInt) : Option SuInt := if x = 0 then none else some x.ctz

/-! ## `__udivmoddi4` -/

/-- Where the special cases end: with what is returned and stored, or before the loop. -/
inductive Start
  | done (q r : DuInt)
  | loop (sr : SuInt) (q r : Udwords)

/-- `q.all = n.all << (64 - sr)` and `r.all = n.all >> sr` for `1 ≤ sr ≤ 31`, by halves. -/
def loopBelow (n : Udwords) (sr : SuInt) : Option Start := do
  let q : Udwords := ⟨0, ← shl n.low (32 - sr)⟩
  let r : Udwords := ⟨(← shl n.high (32 - sr)) ||| (← shr n.low sr), ← shr n.high sr⟩
  return .loop sr q r

/-- The same for `sr = 32`. -/
def loopAt (n : Udwords) (sr : SuInt) : Start := .loop sr ⟨0, n.low⟩ ⟨n.high, 0⟩

/-- The same for `33 ≤ sr ≤ 63`. -/
def loopAbove (n : Udwords) (sr : SuInt) : Option Start := do
  let q : Udwords := ⟨← shl n.low (64 - sr), (← shl n.high (64 - sr)) ||| (← shr n.low (sr - 32))⟩
  let r : Udwords := ⟨← shr n.high (sr - 32), 0⟩
  return .loop sr q r

/-- `K X / K 0` -/
def startHigh (n d : Udwords) : Option Start := do
  if n.low = 0 then
    let r : Udwords := ⟨0, ← mod n.high d.high⟩
    return .done ((← div n.high d.high).setWidth 64) r.all
  if d.high &&& (d.high - 1) = 0 then
    let r : Udwords := ⟨n.low, n.high &&& (d.high - 1)⟩
    return .done ((← shr n.high (← builtinCtz d.high)).setWidth 64) r.all
  let sr := (← builtinClz d.high) - (← builtinClz n.high)
  if sr.toNat > 32 - 2 then
    return .done 0 n.all
  loopBelow n (sr + 1)

/-- `K X / 0 K` -/
def startLow (n d : Udwords) : Option Start := do
  if d.low &&& (d.low - 1) = 0 then
    let r := (n.low &&& (d.low - 1)).setWidth 64
    if d.low = 1 then
      return .done n.all r
    let sr ← builtinCtz d.low
    let q : Udwords := ⟨(← shl n.high (32 - sr)) ||| (← shr n.low sr), ← shr n.high sr⟩
    return .done q.all r
  let sr := 1 + 32 + (← builtinClz d.low) - (← builtinClz n.high)
  if sr = 32 then
    return loopAt n sr
  if sr.toNat < 32 then
    loopBelow n sr
  else
    loopAbove n sr

/-- `K X / K K` -/
def startBoth (n d : Udwords) : Option Start := do
  let sr := (← builtinClz d.high) - (← builtinClz n.high)
  if sr.toNat > 32 - 1 then
    return .done 0 n.all
  let sr := sr + 1
  if sr = 32 then
    return loopAt n sr
  else
    loopBelow n sr

def start (n d : Udwords) : Option Start := do
  if n.high = 0 then
    if d.high = 0 then
      let r ← mod n.low d.low
      return .done ((← div n.low d.low).setWidth 64) (r.setWidth 64)
    return .done 0 (n.low.setWidth 64)
  if d.low = 0 then
    if d.high = 0 then
      let r ← mod n.high d.low
      return .done ((← div n.high d.low).setWidth 64) (r.setWidth 64)
    startHigh n d
  else if d.high = 0 then
    startLow n d
  else
    startBoth n d

/-- One round of the loop. -/
def divStep (d q r : Udwords) (carry : SuInt) : Udwords × Udwords × SuInt :=
  let r : Udwords := { r with high := (r.high <<< 1) ||| (r.low >>> 31) }
  let r : Udwords := { r with low := (r.low <<< 1) ||| (q.high >>> 31) }
  let q : Udwords := { q with high := (q.high <<< 1) ||| (q.low >>> 31) }
  let q : Udwords := { q with low := (q.low <<< 1) ||| carry }
  -- all ones when `r` is at least `d`
  let s := (d.all - r.all - 1).sshiftRight 63
  (q, .ofAll (r.all - (d.all &&& s)), (s &&& 1).setWidth 32)

def divLoop (d : Udwords) : ℕ → Udwords → Udwords → SuInt → Udwords × Udwords × SuInt
  | 0, q, r, carry => (q, r, carry)
  | sr + 1, q, r, carry =>
    let (q, r, carry) := divStep d q r carry
    divLoop d sr q r carry

/-- The quotient, and `*rem` afterwards, from `*rem` before; `none` there is the null pointer. -/
def udivmoddi4 (a b : DuInt) (rem : Option DuInt) : Option (DuInt × Option DuInt) := do
  let n := Udwords.ofAll a
  let d := Udwords.ofAll b
  match ← start n d with
  | .done q r => return (q, rem.map fun _ => r)
  | .loop sr q r =>
    let (q, r, carry) := divLoop d sr.toNat q r 0
    return ((q.all <<< 1) ||| carry.setWidth 64, rem.map fun _ => r.all)

/-! ## Double words -/

open BitVec (shiftConcat DivModState divSubtractShift)

theorem Udwords.all_toNat (u : Udwords) : u.all.toNat = u.high.toNat * 2 ^ 32 + u.low.toNat :=
  Halves.append_toNat u.high u.low

theorem Udwords.all_ofAll (a : DuInt) : (Udwords.ofAll a).all = a := by
  show a.extractLsb' 32 32 ++ a.extractLsb' 0 32 = a
  rw [BitVec.extractLsb'_append_extractLsb'_eq_extractLsb' (by rfl)]
  simp

theorem Udwords.high_msb (u : Udwords) : u.high.msb = u.all.msb := by
  unfold Udwords.all
  rw [BitVec.msb_append]
  rfl

/-! ## The loop -/

/-- The mask of a round: all ones when the shifted remainder is at least the divisor.  A difference of 64 bits would have
its sign elsewhere; it does not occur, for only the last round can see a divisor of 64 bits. -/
theorem mask_eq (d r : DuInt) (h : d.toNat ≤ 2 ^ 63 ∨ 2 ^ 63 ≤ r.toNat) (hr : r.toNat < 2 * d.toNat) :
    (d - r - 1).sshiftRight 63 = if decide (¬ r < d) then BitVec.allOnes 64 else 0 := by
  have hd := d.isLt
  have hlt := r.isLt
  have h1 : (1 : DuInt).toNat = 1 := rfl
  have hmsb : (d - r - 1).msb = decide (¬ r < d) := by
    rw [BitVec.msb_eq_decide, decide_eq_decide, BitVec.lt_def, BitVec.toNat_sub, BitVec.toNat_sub, h1]
    omega
  rw [show 63 = 64 - 1 from rfl, Halves.signMask_eq, hmsb]

/-- One round, on whole double words. -/
theorem divStep_all {d q r : Udwords} (b : Bool)
    (h : d.all.toNat ≤ 2 ^ 63 ∨ 2 ^ 63 ≤ (shiftConcat r.all q.all.msb).toNat)
    (hr : (shiftConcat r.all q.all.msb).toNat < 2 * d.all.toNat) :
    ∃ q' r' b', divStep d q r ((BitVec.ofBool b).setWidth 32) = (q', r', (BitVec.ofBool b').setWidth 32) ∧
      q'.all = shiftConcat q.all b ∧ b' = decide (¬ shiftConcat r.all q.all.msb < d.all) ∧
      r'.all = shiftConcat r.all q.all.msb - if b' then d.all else 0 := by
  have hshift : Udwords.all ⟨(r.low <<< 1) ||| (q.high >>> 31), (r.high <<< 1) ||| (r.low >>> 31)⟩ =
      shiftConcat r.all q.all.msb := by
    rw [← Udwords.high_msb, show q.high >>> 31 = q.high >>> (32 - 1) from rfl, Halves.msb_setWidth]
    exact (Halves.append_shiftConcat r.high r.low q.high.msb).symm
  have hcarry (b' : Bool) : ((if b' then BitVec.allOnes 64 else 0) &&& 1).setWidth 32 =
      (BitVec.ofBool b').setWidth 32 := by
    cases b' <;> rfl
  have hand (b' : Bool) : d.all &&& (if b' then BitVec.allOnes 64 else 0) = if b' then d.all else 0 := by
    cases b'
    · exact BitVec.and_zero
    · exact BitVec.and_allOnes
  unfold divStep
  dsimp only
  rw [hshift, mask_eq _ _ h hr, hand, hcarry]
  exact ⟨_, _, _, rfl, (Halves.append_shiftConcat q.high q.low b).symm, rfl, Udwords.all_ofAll _⟩

/-- The registers of the loop against the shift-subtract division: the remainder is in `r`; `q` and the carry, as one
number, hold the bits of the dividend that are to come and then the quotient. -/
structure LoopInv (n d : DuInt) (st : DivModState 64) (q r : Udwords) (b : Bool) : Prop where
  lawful : st.Lawful ⟨n, d⟩
  rem : r.all = st.r
  quot : 2 * q.all.toNat + b.toNat = n.toNat % 2 ^ st.wn * 2 ^ (65 - st.wn) + st.q.toNat
  large : 0 < st.wn → d.toNat ≤ 2 ^ 63 ∨ st.wn = 1 ∧ 2 ^ 63 ≤ (shiftConcat st.r (n.getLsbD 0)).toNat

theorem shiftConcat_toNat (x : DuInt) (b : Bool) : (shiftConcat x b).toNat = (2 * x.toNat + b.toNat) % 2 ^ 64 := by
  rw [BitVec.toNat_shiftConcat, Nat.shiftLeft_eq, Nat.pow_one, mul_comm]

/-- The next bit of the dividend is the top bit of `q`. -/
theorem LoopInv.msb {n d : DuInt} {st : DivModState 64} {q r : Udwords} {b : Bool} (h : LoopInv n d st q r b) {k : ℕ}
    (hk : st.wn = k + 1) : q.all.msb = n.getLsbD k ∧
      2 * (shiftConcat q.all b).toNat = n.toNat % 2 ^ k * 2 ^ (65 - k) + 2 * st.q.toNat := by
  have hquot := h.quot
  have hwidth := h.lawful.hwrn
  have hq := h.lawful.hqWidth
  have hb := b.toNat_le
  have hmod : n.toNat % 2 ^ k + 1 ≤ 2 ^ k := Nat.mod_lt _ (by positivity)
  have hsplit : n.toNat % 2 ^ (k + 1) = n.toNat % 2 ^ k + 2 ^ k * (n.getLsbD k).toNat := by
    rw [Nat.mod_pow_succ, ← Nat.toNat_testBit]
    rfl
  have hpow : 2 ^ k * 2 ^ (64 - k) = 2 ^ 64 := by
    rw [← pow_add]
    congr 1
    omega
  have hdouble : 2 ^ (65 - k) = 2 * 2 ^ (64 - k) := by
    rw [← pow_succ']
    congr 1
    omega
  rw [hk, hsplit, show 65 - (k + 1) = 64 - k by omega] at hquot
  rw [show st.wr = 63 - k by omega] at hq
  have hq' : st.q.toNat < 2 ^ (64 - k) := hq.trans (Nat.pow_lt_pow_right (by omega) (by omega))
  have hterm : (n.toNat % 2 ^ k + 1) * 2 ^ (64 - k) ≤ 2 ^ k * 2 ^ (64 - k) := Nat.mul_le_mul_right _ hmod
  have hval : 2 * q.all.toNat + b.toNat =
      n.toNat % 2 ^ k * 2 ^ (64 - k) + st.q.toNat + 2 ^ 64 * (n.getLsbD k).toNat := by
    rw [hquot, ← hpow]
    ring
  rw [hpow, add_mul, one_mul] at hterm
  constructor
  · rw [BitVec.msb_eq_decide]
    cases hbit : n.getLsbD k <;> rw [hbit] at hval <;> simp only [Bool.toNat_false, Bool.toNat_true] at hval
    · exact decide_eq_false (by omega)
    · exact decide_eq_true (by omega)
  · rw [shiftConcat_toNat, hval, Nat.add_mul_mod_self_left, Nat.mod_eq_of_lt (by omega), hdouble]
    ring

/-- A round of the shift-subtract division, without its case split. -/
theorem divSubtractShift_eq (n d : DuInt) (st : DivModState 64) :
    divSubtractShift ⟨n, d⟩ st =
      { wn := st.wn - 1
        wr := st.wr + 1
        q := st.q.shiftConcat (decide (¬ shiftConcat st.r (n.getLsbD (st.wn - 1)) < d))
        r := shiftConcat st.r (n.getLsbD (st.wn - 1)) -
          if decide (¬ shiftConcat st.r (n.getLsbD (st.wn - 1)) < d) then d else 0 } := by
  unfold divSubtractShift
  by_cases h : shiftConcat st.r (n.getLsbD (st.wn - 1)) < d <;> simp [h]

/-- **A round of the loop is a round of the division.** -/
theorem LoopInv.step {n : DuInt} {d : Udwords} {st : DivModState 64} {q r : Udwords} {b : Bool}
    (h : LoopInv n d.all st q r b) {k : ℕ} (hk : st.wn = k + 1) :
    ∃ q' r' b', divStep d q r ((BitVec.ofBool b).setWidth 32) = (q', r', (BitVec.ofBool b').setWidth 32) ∧
      LoopInv n d.all (divSubtractShift ⟨n, d.all⟩ st) q' r' b' := by
  have hwidth := h.lawful.hwrn
  have hpoised : st.Poised ⟨n, d.all⟩ := ⟨h.lawful, by omega⟩
  obtain ⟨hmsb, hquot⟩ := h.msb hk
  have hrd : st.r.toNat < d.all.toNat := h.lawful.hrLtDivisor
  have hbit := (n.getLsbD k).toNat_le
  have hshift : (shiftConcat st.r (n.getLsbD k)).toNat = 2 * st.r.toNat + (n.getLsbD k).toNat := by
    rw [BitVec.toNat_shiftConcat_eq_of_lt (by omega) h.lawful.hrWidth, mul_comm]
  have hlarge : d.all.toNat ≤ 2 ^ 63 ∨ 2 ^ 63 ≤ (shiftConcat r.all q.all.msb).toNat := by
    rw [hmsb, h.rem]
    rcases h.large (by omega) with h1 | ⟨h1, h2⟩
    · exact .inl h1
    · rw [show k = 0 by omega]
      exact .inr h2
  have hsmall : (shiftConcat r.all q.all.msb).toNat < 2 * d.all.toNat := by
    rw [hmsb, h.rem, hshift]
    omega
  obtain ⟨q', r', b', hstep, hq', hb', hr'⟩ := divStep_all b hlarge hsmall
  rw [hmsb, h.rem] at hb' hr'
  have hnext := divSubtractShift_eq n d.all st
  rw [show st.wn - 1 = k by omega, ← hb', ← hr'] at hnext
  have hlawful := BitVec.lawful_divSubtractShift st hpoised
  have hqw : (st.q.shiftConcat b').toNat = 2 * st.q.toNat + b'.toNat := by
    rw [BitVec.toNat_shiftConcat_eq_of_lt (by omega) h.lawful.hqWidth, mul_comm]
  rw [hnext] at hlawful ⊢
  refine ⟨q', r', b', hstep, hlawful, rfl, ?_, fun hpos => ?_⟩
  · rw [hqw, hq', hquot, add_assoc]
  · rcases h.large (by omega) with h1 | ⟨h1, h2⟩
    · exact .inl h1
    · exact absurd hpos (by show ¬ 0 < k; omega)

/-- The loop ends with the quotient, one bit short of the carry, and the remainder. -/
theorem divLoop_eq {n : DuInt} {d : Udwords} (k : ℕ) {st : DivModState 64} {q r : Udwords} {b : Bool}
    (h : LoopInv n d.all st q r b) (hk : st.wn = k) :
    ∃ q' r' b', divLoop d k q r ((BitVec.ofBool b).setWidth 32) = (q', r', (BitVec.ofBool b').setWidth 32) ∧
      (q'.all <<< 1) ||| ((BitVec.ofBool b').setWidth 32).setWidth 64 = n / d.all ∧ r'.all = n % d.all := by
  induction k generalizing st q r b with
  | zero =>
    refine ⟨q, r, b, rfl, ?_, h.rem.trans (BitVec.DivModState.umod_eq_of_lawful h.lawful hk).symm⟩
    rw [BitVec.DivModState.udiv_eq_of_lawful h.lawful hk]
    have hquot := h.quot
    have hlt := st.q.isLt
    rw [hk, Nat.pow_zero, Nat.mod_one, zero_mul, zero_add] at hquot
    have hshift : (q.all <<< 1) ||| ((BitVec.ofBool b).setWidth 32).setWidth 64 = shiftConcat q.all b := by
      apply BitVec.eq_of_getLsbD_eq
      intro i hi
      rw [BitVec.getLsbD_shiftConcat]
      by_cases hi0 : i = 0
      · subst hi0
        simp
      · simp [hi0, hi, show ¬ i < 1 by omega, BitVec.getLsbD_eq_getElem (show i - 1 < 64 by omega)]
    rw [hshift]
    apply BitVec.eq_of_toNat_eq
    rw [shiftConcat_toNat, hquot, Nat.mod_eq_of_lt hlt]
  | succ k ih =>
    obtain ⟨q', r', b', hstep, hinv⟩ := h.step hk
    obtain ⟨q'', r'', b'', hloop, hres⟩ := ih hinv (by rw [divSubtractShift_eq]; show st.wn - 1 = k; omega)
    refine ⟨q'', r'', b'', ?_, hres⟩
    unfold divLoop
    rw [hstep]
    exact hloop

/-! ## The special cases -/

/-- What is right where the special cases end. -/
def Start.Right (n d : DuInt) : Start → Prop
  | .done q r => q = n / d ∧ r = n % d
  | .loop sr q r => ∃ st, LoopInv n d st q r false ∧ st.wn = sr.toNat

/-- Before the loop, when the divisor has more bits than what is shifted into the remainder. -/
theorem LoopInv.init {n d : DuInt} {q r : Udwords} {s j : ℕ} (h1 : 1 ≤ s) (h2 : s ≤ 63) (hq : q.all = n <<< (64 - s))
    (hr : r.all = n >>> s) (hd : 2 ^ j ≤ d.toNat) (hn : n.toNat < 2 ^ (j + s))
    (hlarge : d.toNat ≤ 2 ^ 63 ∨ s = 1 ∧ 2 ^ 63 ≤ n.toNat) : ∃ st, LoopInv n d st q r false ∧ st.wn = s := by
  have hpow : 2 ^ j * 2 ^ s = 2 ^ (j + s) := (pow_add ..).symm
  have hwidth : 2 ^ (64 - s) * 2 ^ s = 2 ^ 64 := by
    rw [← pow_add]
    congr 1
    omega
  have hrem : (n >>> s).toNat = n.toNat / 2 ^ s := by
    rw [BitVec.toNat_ushiftRight, Nat.shiftRight_eq_div_pow]
  have hlt : n.toNat / 2 ^ s < 2 ^ j := Nat.div_lt_of_lt_mul (by rw [mul_comm, hpow]; exact hn)
  have hjpos := Nat.two_pow_pos j
  have hlawful : DivModState.Lawful ⟨n, d⟩ ⟨s, 64 - s, 0, n >>> s⟩ := by
    constructor
    · show 64 - s + s = 64
      omega
    · show (0 : DuInt) < d
      rw [BitVec.lt_def]
      show 0 < d.toNat
      omega
    · show (n >>> s).toNat < d.toNat
      omega
    · show (n >>> s).toNat < 2 ^ (64 - s)
      rw [hrem]
      exact Nat.div_lt_of_lt_mul (by rw [mul_comm, hwidth]; exact n.isLt)
    · exact Nat.two_pow_pos _
    · show n.toNat >>> s = d.toNat * 0 + (n >>> s).toNat
      rw [BitVec.toNat_ushiftRight, Nat.mul_zero, Nat.zero_add]
  refine ⟨⟨s, 64 - s, 0, n >>> s⟩, ⟨hlawful, hr, ?_, fun _ => ?_⟩, rfl⟩
  · show 2 * q.all.toNat + 0 = n.toNat % 2 ^ s * 2 ^ (65 - s) + 0
    rw [hq, BitVec.toNat_shiftLeft, Nat.shiftLeft_eq, ← hwidth, mul_comm (2 ^ (64 - s)), Nat.mul_mod_mul_right,
      show 65 - s = 64 - s + 1 by omega, pow_succ]
    ring
  · rcases hlarge with h | ⟨rfl, h⟩
    · exact .inl h
    · right
      refine ⟨rfl, ?_⟩
      show 2 ^ 63 ≤ (shiftConcat (n >>> 1) (n.getLsbD 0)).toNat
      have := BitVec.shiftRight_sub_one_eq_shiftConcat n (show 0 < 1 by omega)
      rw [← this]
      exact h

section Cases

variable {n d : Udwords}

theorem shl_eq (x : SuInt) {k : SuInt} (h : k.toNat < 32) : shl x k = some (x <<< k.toNat) := if_pos h
theorem shr_eq (x : SuInt) {k : SuInt} (h : k.toNat < 32) : shr x k = some (x >>> k.toNat) := if_pos h
theorem div_eq (x : SuInt) {y : SuInt} (h : y ≠ 0) : div x y = some (x / y) := if_neg h
theorem mod_eq (x : SuInt) {y : SuInt} (h : y ≠ 0) : mod x y = some (x % y) := if_neg h
theorem builtinClz_eq {x : SuInt} (h : x ≠ 0) : builtinClz x = some x.clz := if_neg h
theorem builtinCtz_eq {x : SuInt} (h : x ≠ 0) : builtinCtz x = some x.ctz := if_neg h

/-- `q` and `r` before the loop, whatever the number of rounds. -/
theorem loopBelow_eq {s : SuInt} (h1 : 1 ≤ s.toNat) (h2 : s.toNat ≤ 31) : ∃ q r, loopBelow n s = some (.loop s q r) ∧
    q.all = n.all <<< (64 - s.toNat) ∧ r.all = n.all >>> s.toNat := by
  have hsub : (32 - s).toNat = 32 - s.toNat := by bv_omega
  refine ⟨⟨0, n.low <<< (32 - s.toNat)⟩, ⟨(n.high <<< (32 - s.toNat)) ||| (n.low >>> s.toNat), n.high >>> s.toNat⟩,
    ?_, ?_, ?_⟩
  · unfold loopBelow
    rw [shl_eq _ (by omega), shl_eq _ (by omega), shr_eq _ (by omega), shr_eq _ (by omega), hsub]
    rfl
  · rw [show 64 - s.toNat = 32 + (32 - s.toNat) by omega]
    exact (Halves.append_shiftLeft_add n.high n.low _).symm
  · exact (Halves.append_ushiftRight n.high n.low (by omega)).symm

theorem loopAt_eq {s : SuInt} (h : s = 32) : ∃ q r, loopAt n s = .loop s q r ∧
    q.all = n.all <<< (64 - s.toNat) ∧ r.all = n.all >>> s.toNat := by
  subst h
  refine ⟨_, _, rfl, ?_, ?_⟩
  · have := Halves.append_shiftLeft_add n.high n.low 0
    rw [BitVec.shiftLeft_zero] at this
    exact this.symm
  · have := Halves.append_ushiftRight_add n.high n.low 0
    rw [BitVec.ushiftRight_zero] at this
    exact this.symm

theorem loopAbove_eq {s : SuInt} (h1 : 33 ≤ s.toNat) (h2 : s.toNat ≤ 63) : ∃ q r,
    loopAbove n s = some (.loop s q r) ∧ q.all = n.all <<< (64 - s.toNat) ∧ r.all = n.all >>> s.toNat := by
  have hsub : (64 - s).toNat = 64 - s.toNat := by bv_omega
  have hsub' : (s - 32).toNat = s.toNat - 32 := by bv_omega
  refine ⟨⟨n.low <<< (64 - s.toNat), (n.high <<< (64 - s.toNat)) ||| (n.low >>> (s.toNat - 32))⟩,
    ⟨n.high >>> (s.toNat - 32), 0⟩, ?_, ?_, ?_⟩
  · unfold loopAbove
    rw [shl_eq _ (by omega), shl_eq _ (by omega), shr_eq _ (by omega), shr_eq _ (by omega), hsub, hsub']
    rfl
  · have := Halves.append_shiftLeft n.high n.low (show 64 - s.toNat ≤ 32 by omega)
    rw [show 32 - (64 - s.toNat) = s.toNat - 32 by omega] at this
    exact this.symm
  · have := Halves.append_ushiftRight_add n.high n.low (s.toNat - 32)
    rw [show 32 + (s.toNat - 32) = s.toNat by omega] at this
    exact this.symm

/-- A double word with a nonzero high half, between powers of two. -/
theorem all_bounds {u : Udwords} (h : u.high ≠ 0) :
    ∃ k, u.high.clz.toNat + k = 31 ∧ 2 ^ (32 + k) ≤ u.all.toNat ∧ u.all.toNat < 2 ^ (33 + k) := by
  obtain ⟨k, hk, h1, h2⟩ := CountZeros.clz_bounds h
  have hlow := u.low.isLt
  refine ⟨k, by omega, ?_, ?_⟩
  · rw [Udwords.all_toNat, pow_add, mul_comm]
    exact (Nat.mul_le_mul_right _ h1).trans (Nat.le_add_right _ _)
  · have hmul : (u.high.toNat + 1) * 2 ^ 32 ≤ 2 ^ (k + 1) * 2 ^ 32 := Nat.mul_le_mul_right _ h2
    rw [Udwords.all_toNat, show 33 + k = k + 1 + 32 by omega, pow_add _ (k + 1)]
    omega

/-- Both numbers have a high half: they meet in the loop, or the dividend is the smaller. -/
theorem high_high (hn : n.high ≠ 0) (hd : d.high ≠ 0) :
    (n.all.toNat < d.all.toNat ∧ 32 ≤ (d.high.clz - n.high.clz).toNat) ∨
      ((d.high.clz - n.high.clz + 1).toNat = (d.high.clz - n.high.clz).toNat + 1 ∧
        (d.high.clz - n.high.clz).toNat ≤ 31 ∧
        ((d.high.clz - n.high.clz).toNat = 31 → d.high = 1) ∧
        ∀ q r : Udwords, q.all = n.all <<< (64 - (d.high.clz - n.high.clz + 1).toNat) →
          r.all = n.all >>> (d.high.clz - n.high.clz + 1).toNat →
          ∃ st, LoopInv n.all d.all st q r false ∧ st.wn = (d.high.clz - n.high.clz + 1).toNat) := by
  obtain ⟨kn, hkn, hn1, hn2⟩ := all_bounds hn
  obtain ⟨kd, hkd, hd1, hd2⟩ := all_bounds hd
  rcases Nat.lt_or_ge kn kd with hlt | hge
  · left
    have hpow : 2 ^ (33 + kn) ≤ 2 ^ (32 + kd) := Nat.pow_le_pow_right (by omega) (by omega)
    exact ⟨by omega, by bv_omega⟩
  · right
    have hsr : (d.high.clz - n.high.clz).toNat = kn - kd := by bv_omega
    have hsr1 : (d.high.clz - n.high.clz + 1).toNat = kn - kd + 1 := by bv_omega
    refine ⟨by omega, by omega, fun h => ?_, fun q r hq hr => ?_⟩
    · have hlt : d.high.toNat < 2 ^ (32 - d.high.clz.toNat) := BitVec.toNat_lt_two_pow_sub_clz
      have hpos : d.high.toNat ≠ 0 := fun h => hd (BitVec.eq_of_toNat_eq h)
      rw [show 32 - d.high.clz.toNat = 1 by omega] at hlt
      apply BitVec.eq_of_toNat_eq
      show d.high.toNat = 1
      omega
    · rw [hsr1] at hq hr ⊢
      refine LoopInv.init (by omega) (by omega) hq hr hd1 (by rw [show 32 + kd + (kn - kd + 1) = 33 + kn by omega]; exact hn2) ?_
      rcases Nat.lt_or_ge kd 31 with hk | hk
      · have hpow : 2 ^ (33 + kd) ≤ 2 ^ 63 := Nat.pow_le_pow_right (by omega) (by omega)
        exact .inl (by omega)
      · right
        rw [show kn = 31 by omega] at hn1
        exact ⟨by omega, hn1⟩

theorem right_less (h : n.all.toNat < d.all.toNat) : Start.Right n.all d.all (.done 0 n.all) := by
  constructor
  · apply BitVec.eq_of_toNat_eq
    rw [BitVec.toNat_udiv, Nat.div_eq_of_lt h]
    rfl
  · apply BitVec.eq_of_toNat_eq
    rw [BitVec.toNat_umod, Nat.mod_eq_of_lt h]

theorem startBoth_right (hn : n.high ≠ 0) (hd : d.high ≠ 0) :
    ∃ res, startBoth n d = some res ∧ res.Right n.all d.all := by
  unfold startBoth
  rw [builtinClz_eq hn, builtinClz_eq hd]
  dsimp only [Option.bind_eq_bind, Option.bind_some]
  rcases high_high hn hd with ⟨hlt, hsr⟩ | ⟨hsr1, hsr, -, hloop⟩
  · rw [if_pos (by omega)]
    exact ⟨_, rfl, right_less hlt⟩
  · rw [if_neg (by omega)]
    by_cases h32 : d.high.clz - n.high.clz + 1 = 32
    · obtain ⟨q, r, heq, hq, hr⟩ := loopAt_eq (n := n) h32
      rw [if_pos h32, heq]
      exact ⟨_, rfl, hloop q r hq hr⟩
    · have hne : (d.high.clz - n.high.clz + 1).toNat ≠ 32 := fun h => h32 (BitVec.eq_of_toNat_eq h)
      obtain ⟨q, r, heq, hq, hr⟩ := loopBelow_eq (n := n) (s := d.high.clz - n.high.clz + 1) (by omega) (by omega)
      rw [if_neg h32, heq]
      exact ⟨_, rfl, hloop q r hq hr⟩

/-- A word that is masked with a power of two less one keeps the remainder. -/
theorem and_sub_one {x y : SuInt} (h : y ≠ 0) (hpow : y &&& (y - 1) = 0) : (x &&& (y - 1)).toNat = x.toNat % y.toNat := by
  have hy := CountZeros.eq_two_pow_ctz h hpow
  have hsub : (y - 1).toNat = y.toNat - 1 := by bv_omega
  rw [BitVec.toNat_and, hsub, hy, Nat.and_two_pow_sub_one_eq_mod]

/-- A dividend and a divisor whose low half is zero. -/
theorem all_udiv (hd : d.low = 0) : (n.all / d.all).toNat = n.high.toNat / d.high.toNat ∧
    (n.all % d.all).toNat = n.high.toNat % d.high.toNat * 2 ^ 32 + n.low.toNat := by
  have hlow := n.low.isLt
  have hall : d.all.toNat = 2 ^ 32 * d.high.toNat := by
    rw [Udwords.all_toNat, hd, mul_comm]
    rfl
  have hn : n.all.toNat = n.low.toNat + 2 ^ 32 * n.high.toNat := by
    rw [Udwords.all_toNat]
    ring
  have hdiv : n.all.toNat / 2 ^ 32 = n.high.toNat := by omega
  have hmod : n.all.toNat % 2 ^ 32 = n.low.toNat := by omega
  constructor
  · rw [BitVec.toNat_udiv, hall, ← Nat.div_div_eq_div_mul, hdiv]
  · rw [BitVec.toNat_umod, hall, Nat.mod_mul, hdiv, hmod]
    ring

theorem startHigh_right (hn : n.high ≠ 0) (hd : d.high ≠ 0) (hd0 : d.low = 0) :
    ∃ res, startHigh n d = some res ∧ res.Right n.all d.all := by
  obtain ⟨hdiv, hmod⟩ := all_udiv (n := n) hd0
  unfold startHigh
  by_cases hn0 : n.low = 0
  · rw [if_pos hn0, mod_eq _ hd, div_eq _ hd]
    refine ⟨_, rfl, ?_, ?_⟩
    · apply BitVec.eq_of_toNat_eq
      rw [hdiv, BitVec.toNat_setWidth_of_le (by omega), BitVec.toNat_udiv]
    · apply BitVec.eq_of_toNat_eq
      rw [hmod, Udwords.all_toNat, hn0, BitVec.toNat_umod]
  rw [if_neg hn0]
  by_cases hpow : d.high &&& (d.high - 1) = 0
  · have hctz := CountZeros.eq_two_pow_ctz hd hpow
    have hlt : d.high.ctz.toNat < 32 := (Nat.pow_lt_pow_iff_right (by omega)).mp (hctz ▸ d.high.isLt)
    rw [if_pos hpow, builtinCtz_eq hd]
    dsimp only [Option.bind_eq_bind, Option.bind_some]
    rw [shr_eq _ hlt]
    refine ⟨_, rfl, ?_, ?_⟩
    · apply BitVec.eq_of_toNat_eq
      rw [hdiv, BitVec.toNat_setWidth_of_le (by omega), BitVec.toNat_ushiftRight, Nat.shiftRight_eq_div_pow, hctz]
    · apply BitVec.eq_of_toNat_eq
      rw [hmod, Udwords.all_toNat, and_sub_one hd hpow]
  rw [if_neg hpow, builtinClz_eq hn, builtinClz_eq hd]
  dsimp only [Option.bind_eq_bind, Option.bind_some]
  rcases high_high hn hd with ⟨hlt, hsr⟩ | ⟨hsr1, hsr, hone, hloop⟩
  · rw [if_pos (by omega)]
    exact ⟨_, rfl, right_less hlt⟩
  · have hne : (d.high.clz - n.high.clz).toNat ≠ 31 := by
      intro h
      rw [hone h] at hpow
      exact hpow rfl
    obtain ⟨q, r, heq, hq, hr⟩ := loopBelow_eq (n := n) (s := d.high.clz - n.high.clz + 1) (by omega) (by omega)
    rw [if_neg (by omega), heq]
    exact ⟨_, rfl, hloop q r hq hr⟩

theorem startLow_right (hn : n.high ≠ 0) (hd : d.low ≠ 0) (hd0 : d.high = 0) :
    ∃ res, startLow n d = some res ∧ res.Right n.all d.all := by
  have hall : d.all.toNat = d.low.toNat := by
    rw [Udwords.all_toNat, hd0]
    exact Nat.zero_add _
  have hlow := n.low.isLt
  unfold startLow
  by_cases hpow : d.low &&& (d.low - 1) = 0
  · have hctz := CountZeros.eq_two_pow_ctz hd hpow
    have hlt : d.low.ctz.toNat < 32 := (Nat.pow_lt_pow_iff_right (by omega)).mp (hctz ▸ d.low.isLt)
    have hrem : (n.low &&& (d.low - 1)).setWidth 64 = n.all % d.all := by
      have hdvd : 2 ^ d.low.ctz.toNat ∣ n.high.toNat * 2 ^ 32 :=
        (pow_dvd_pow 2 (by omega)).trans (Dvd.intro_left _ rfl)
      apply BitVec.eq_of_toNat_eq
      rw [BitVec.toNat_setWidth_of_le (by omega), and_sub_one hd hpow, BitVec.toNat_umod, hall, Udwords.all_toNat, hctz,
        Nat.add_mod, Nat.mod_eq_zero_of_dvd hdvd, Nat.zero_add, Nat.mod_mod]
    rw [if_pos hpow]
    by_cases h1 : d.low = 1
    · rw [if_pos h1]
      refine ⟨_, rfl, ?_, hrem⟩
      apply BitVec.eq_of_toNat_eq
      rw [BitVec.toNat_udiv, hall, h1]
      exact (Nat.div_one _).symm
    · have hpos : d.low.ctz.toNat ≠ 0 := by
        intro h
        rw [h] at hctz
        exact h1 (BitVec.eq_of_toNat_eq hctz)
      have hsub : (32 - d.low.ctz).toNat = 32 - d.low.ctz.toNat := by bv_omega
      rw [if_neg h1, builtinCtz_eq hd]
      dsimp only [Option.bind_eq_bind, Option.bind_some]
      rw [shl_eq _ (by omega), shr_eq _ hlt, shr_eq _ hlt, hsub]
      refine ⟨_, rfl, ?_, hrem⟩
      show Udwords.all ⟨(n.high <<< (32 - d.low.ctz.toNat)) ||| (n.low >>> d.low.ctz.toNat), n.high >>> d.low.ctz.toNat⟩ = _
      rw [show Udwords.all ⟨(n.high <<< (32 - d.low.ctz.toNat)) ||| (n.low >>> d.low.ctz.toNat),
        n.high >>> d.low.ctz.toNat⟩ = n.all >>> d.low.ctz.toNat from
          (Halves.append_ushiftRight n.high n.low (by omega)).symm]
      apply BitVec.eq_of_toNat_eq
      rw [BitVec.toNat_ushiftRight, Nat.shiftRight_eq_div_pow, BitVec.toNat_udiv, hall, hctz]
  rw [if_neg hpow, builtinClz_eq hn, builtinClz_eq hd]
  dsimp only [Option.bind_eq_bind, Option.bind_some]
  obtain ⟨kn, hkn, hn1, hn2⟩ := all_bounds hn
  obtain ⟨kd, hkd, hd1, hd2⟩ := CountZeros.clz_bounds hd
  have hsr : (1 + 32 + d.low.clz - n.high.clz).toNat = 33 + kn - kd := by bv_omega
  have hdlt := d.low.isLt
  have hkd1 : kd ≠ 0 := by
    rintro rfl
    apply hpow
    have h1 : d.low = 1 := by
      apply BitVec.eq_of_toNat_eq
      show d.low.toNat = 1
      omega
    rw [h1]
    rfl
  have hloop (q r : Udwords) (hq : q.all = n.all <<< (64 - (1 + 32 + d.low.clz - n.high.clz).toNat))
      (hr : r.all = n.all >>> (1 + 32 + d.low.clz - n.high.clz).toNat) :
      ∃ st, LoopInv n.all d.all st q r false ∧ st.wn = (1 + 32 + d.low.clz - n.high.clz).toNat := by
    rw [hsr] at hq hr ⊢
    refine LoopInv.init (by omega) (by omega) hq hr (hall ▸ hd1) ?_ (.inl (by omega))
    rw [show kd + (33 + kn - kd) = 33 + kn by omega]
    exact hn2
  by_cases h32 : 1 + 32 + d.low.clz - n.high.clz = 32
  · obtain ⟨q, r, heq, hq, hr⟩ := loopAt_eq (n := n) h32
    rw [if_pos h32, heq]
    exact ⟨_, rfl, hloop q r hq hr⟩
  · have hne : (1 + 32 + d.low.clz - n.high.clz).toNat ≠ 32 := fun h => h32 (BitVec.eq_of_toNat_eq h)
    rw [if_neg h32]
    by_cases hlt : (1 + 32 + d.low.clz - n.high.clz).toNat < 32
    · obtain ⟨q, r, heq, hq, hr⟩ := loopBelow_eq (n := n) (s := 1 + 32 + d.low.clz - n.high.clz) (by omega) (by omega)
      rw [if_pos hlt, heq]
      exact ⟨_, rfl, hloop q r hq hr⟩
    · obtain ⟨q, r, heq, hq, hr⟩ := loopAbove_eq (n := n) (s := 1 + 32 + d.low.clz - n.high.clz) (by omega) (by omega)
      rw [if_neg hlt, heq]
      exact ⟨_, rfl, hloop q r hq hr⟩

theorem start_right (hd : d.all ≠ 0) : ∃ res, start n d = some res ∧ res.Right n.all d.all := by
  unfold start
  by_cases hn : n.high = 0
  · have hnall : n.all.toNat = n.low.toNat := by
      rw [Udwords.all_toNat, hn]
      exact Nat.zero_add _
    rw [if_pos hn]
    by_cases hd0 : d.high = 0
    · have hdall : d.all.toNat = d.low.toNat := by
        rw [Udwords.all_toNat, hd0]
        exact Nat.zero_add _
      have hlow : d.low ≠ 0 := by
        intro h
        rw [h] at hdall
        exact hd (BitVec.eq_of_toNat_eq hdall)
      rw [if_pos hd0, mod_eq _ hlow, div_eq _ hlow]
      refine ⟨_, rfl, ?_, ?_⟩
      · apply BitVec.eq_of_toNat_eq
        rw [BitVec.toNat_setWidth_of_le (by omega), BitVec.toNat_udiv, BitVec.toNat_udiv, hnall, hdall]
      · apply BitVec.eq_of_toNat_eq
        rw [BitVec.toNat_setWidth_of_le (by omega), BitVec.toNat_umod, BitVec.toNat_umod, hnall, hdall]
    · have hlow : n.low.setWidth 64 = n.all := by
        apply BitVec.eq_of_toNat_eq
        rw [BitVec.toNat_setWidth_of_le (by omega), hnall]
      obtain ⟨k, -, hk, -⟩ := all_bounds hd0
      have hpow : 2 ^ 32 ≤ 2 ^ (32 + k) := Nat.pow_le_pow_right (by omega) (by omega)
      have hlt := n.low.isLt
      rw [if_neg hd0, hlow]
      exact ⟨_, rfl, right_less (by omega)⟩
  rw [if_neg hn]
  by_cases hlow : d.low = 0
  · have hhigh : d.high ≠ 0 := by
      intro h
      apply hd
      unfold Udwords.all
      rw [h, hlow]
      rfl
    rw [if_pos hlow, if_neg hhigh]
    exact startHigh_right hn hhigh hlow
  · rw [if_neg hlow]
    by_cases hhigh : d.high = 0
    · rw [if_pos hhigh]
      exact startLow_right hn hlow hhigh
    · rw [if_neg hhigh]
      exact startBoth_right hn hhigh

/-- A divisor of zero is divided by. -/
theorem start_zero : start n ⟨0, 0⟩ = none := by
  unfold start
  by_cases hn : n.high = 0
  · rw [if_pos hn, if_pos rfl]
    rfl
  · rw [if_neg hn, if_pos rfl, if_pos rfl]
    rfl

end Cases

/-- **`__udivmoddi4` divides**: the quotient is returned and the remainder stored, for every divisor but zero; a division
by zero is all that can be undefined on the way. -/
theorem udivmoddi4_eq (a b : DuInt) (rem : Option DuInt) :
    udivmoddi4 a b rem = if b = 0 then none else some (a / b, rem.map fun _ => a % b) := by
  unfold udivmoddi4
  by_cases hb : b = 0
  · subst hb
    rw [if_pos rfl, show Udwords.ofAll 0 = ⟨0, 0⟩ from rfl]
    dsimp only
    rw [start_zero]
    rfl
  · have hd : (Udwords.ofAll b).all ≠ 0 := by
      rw [Udwords.all_ofAll]
      exact hb
    obtain ⟨res, hstart, hright⟩ := start_right (n := .ofAll a) hd
    rw [if_neg hb]
    dsimp only
    rw [hstart]
    cases res with
    | done q r =>
      obtain ⟨rfl, rfl⟩ := hright
      rw [Udwords.all_ofAll, Udwords.all_ofAll]
      rfl
    | loop sr q r =>
      obtain ⟨st, hinv, hsr⟩ := hright
      obtain ⟨q', r', b', hloop, hq, hr⟩ := divLoop_eq sr.toNat hinv hsr
      rw [Udwords.all_ofAll, Udwords.all_ofAll] at hq hr
      dsimp only [Option.bind_eq_bind, Option.bind_some]
      rw [show (0 : SuInt) = (BitVec.ofBool false).setWidth 32 from rfl, hloop]
      dsimp only
      rw [hq, hr]
      rfl

end Klib
