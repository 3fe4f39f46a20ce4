import Mathlib.Data.List.Basic
import Mathlib.Tactic

/-!
# Digit patterns with wildcards

A number of `b`-bit digits, some of which are left open, kept as the pair of the digits (`key`) and of the
compared bits (`mask`); both are built digit by digit from the left, as `pack` does.

* `pack_getLsbD` — the bits of packed digits;
* `test_iff` — the comparison of a word with a pattern, with the open digits at its right end shifted out.
-/

namespace Wildcard

variable {b : ℕ}

/-- The number of the digits, the last digit first, in `n` bits. -/
def pack (n : ℕ) : List (BitVec b) → BitVec n
  | [] => 0#n
  | d :: ds => (pack n ds <<< b) ||| d.setWidth n

/-- The value of a digit; an open one counts as 0. -/
def digit (d : Option (BitVec b)) : BitVec b := d.getD 0#b

/-- The compared bits of a digit. -/
def care (d : Option (BitVec b)) : BitVec b := if d.isSome then BitVec.allOnes b else 0#b

/-- The number of open digits at the right end. -/
def openEnd : List (Option (BitVec b)) → ℕ
  | none :: ds => openEnd ds + 1
  | _ => 0

theorem pack_getLsbD {n : ℕ} (hb : 0 < b) (ds : List (BitVec b)) (j : ℕ) :
    (pack n ds).getLsbD j = (decide (j < n) && (ds[j / b]?.getD 0#b).getLsbD (j % b)) := by
  induction ds generalizing j with
  | nil => simp [pack]
  | cons d ds ih =>
    unfold pack
    rw [BitVec.getLsbD_or, BitVec.getLsbD_shiftLeft, BitVec.getLsbD_setWidth, ih]
    by_cases hj : j < b
    · -- a bit of the last digit
      rw [Nat.div_eq_of_lt hj, Nat.mod_eq_of_lt hj]
      simp [hj]
    · have hdiv : j / b = (j - b) / b + 1 := by rw [Nat.div_eq_sub_div hb (by omega)]
      have hmod : j % b = (j - b) % b := Nat.mod_eq_sub_mod (by omega)
      rw [hdiv, hmod, BitVec.getLsbD_of_ge d j (by omega), List.getElem?_cons_succ]
      by_cases hn : j < n
      · have : j - b < n := by omega
        simp [hj, hn, this]
      · simp [hn]

/-- An open digit at the end is open. -/
theorem getElem?_of_lt_openEnd {ds : List (Option (BitVec b))} {i : ℕ} (h : i < openEnd ds) : ds[i]? = some none := by
  induction ds generalizing i with
  | nil => cases h
  | cons d ds ih =>
    cases d with
    | some v => cases h
    | none =>
      cases i with
      | zero => rfl
      | succ i => exact ih (Nat.lt_of_succ_lt_succ h)

theorem openEnd_le (ds : List (Option (BitVec b))) : openEnd ds ≤ ds.length := by
  induction ds with
  | nil => exact Nat.le_refl 0
  | cons d ds ih =>
    cases d with
    | some v => exact Nat.zero_le _
    | none => exact Nat.succ_le_succ ih

/-- The bits of a digit of a word. -/
theorem extractLsb'_eq_iff {n : ℕ} (w : BitVec n) (i : ℕ) (v : BitVec b) :
    w.extractLsb' (b * i) b = v ↔ ∀ k < b, w.getLsbD (b * i + k) = v.getLsbD k := by
  constructor
  · rintro rfl k hk
    simp [hk]
  · intro h
    apply BitVec.eq_of_getLsbD_eq
    intro k hk
    rw [BitVec.getLsbD_extractLsb', h k hk]
    simp [hk]

/-- **A word passes the comparison just if it has every digit that is not open.** -/
theorem test_iff {n : ℕ} (hb : 0 < b) {ds : List (Option (BitVec b))} (hlen : b * ds.length ≤ n) (w : BitVec n) :
    (w >>> (b * openEnd ds)) &&& (pack n (ds.map care) >>> (b * openEnd ds)) =
        pack n (ds.map digit) >>> (b * openEnd ds) ↔
      ∀ i v, ds[i]? = some (some v) → w.extractLsb' (b * i) b = v := by
  obtain ⟨t, ht⟩ : ∃ t, t = b * openEnd ds := ⟨_, rfl⟩
  rw [← ht]
  constructor
  · intro h i v hi
    rw [extractLsb'_eq_iff]
    intro k hk
    have hlt : i < ds.length := (List.getElem?_eq_some_iff.mp hi).1
    have hopen : openEnd ds ≤ i := by
      by_contra hc
      rw [getElem?_of_lt_openEnd (by omega)] at hi
      cases hi
    have hle : t ≤ b * i := ht ▸ Nat.mul_le_mul_left b hopen
    have hn : b * i + k < n := by
      have : b * (i + 1) ≤ b * ds.length := Nat.mul_le_mul_left b hlt
      rw [Nat.mul_succ] at this
      omega
    have hbit := congrArg (fun x : BitVec n => x.getLsbD (b * i + k - t)) h
    have hpos : t + (b * i + k - t) = b * i + k := by omega
    have hdiv : (b * i + k) / b = i := by
      rw [Nat.mul_add_div hb, Nat.div_eq_of_lt hk, Nat.add_zero]
    have hmod : (b * i + k) % b = k := by rw [Nat.mul_add_mod, Nat.mod_eq_of_lt hk]
    simp only [BitVec.getLsbD_and, BitVec.getLsbD_ushiftRight, hpos, pack_getLsbD hb, hdiv, hmod,
      List.getElem?_map, hi, Option.map_some, Option.getD_some, hn, decide_true, Bool.true_and] at hbit
    simpa [care, digit, hk] using hbit
  · intro h
    apply BitVec.eq_of_getLsbD_eq
    intro j hj
    simp only [BitVec.getLsbD_and, BitVec.getLsbD_ushiftRight, pack_getLsbD hb, List.getElem?_map]
    by_cases hn : t + j < n
    · rcases hd : ds[(t + j) / b]? with _ | _ | v
      · simp
      · simp [care, digit]
      · have hk := Nat.mod_lt (t + j) hb
        have hbit := (extractLsb'_eq_iff w _ v).mp (h _ v hd) _ hk
        rw [Nat.div_add_mod, BitVec.getLsbD_eq_getElem hn, BitVec.getLsbD_eq_getElem hk] at hbit
        simp [care, digit, hn, hk, hbit]
    · simp [hn]

end Wildcard
