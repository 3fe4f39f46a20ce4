import Mathlib

/-!
# Ternary patterns on words

A ternary pattern fixes some bits of an `n`-bit word and leaves the others free.  It is kept as the
pair of the compared bits (`mask`) and of the values they must have (`key`), so that matching is one
masked comparison.

* `Clash s t` — some bit is compared by both patterns and they want different values; two patterns
  that clash have no word in common (`Clash.not_matches`);
* `Unambiguous` — entries of different names clash.
-/

namespace Ternary

/-- A ternary pattern of width `n`: the bits set in `mask` are compared with those of `key`. -/
structure Pattern (n : ℕ) where
  mask : BitVec n
  key : BitVec n
  deriving DecidableEq, Repr

variable {n : ℕ} {α β : Type*}

/-- The word agrees with the pattern on the compared bits. -/
def Pattern.Matches (t : Pattern n) (w : BitVec n) : Prop := w &&& t.mask = t.key

instance (t : Pattern n) (w : BitVec n) : Decidable (t.Matches w) := by
  unfold Pattern.Matches; infer_instance

/-- Some bit is compared by both patterns, with different wanted values. -/
def Clash (s t : Pattern n) : Prop := s.key &&& t.mask ≠ t.key &&& s.mask

instance (s t : Pattern n) : Decidable (Clash s t) := by
  unfold Clash; infer_instance

/-- Two patterns that clash match no common word. -/
theorem Clash.not_matches {s t : Pattern n} {w : BitVec n} (h : Clash s t) (hs : s.Matches w) :
    ¬ t.Matches w := by
  intro ht
  apply h
  unfold Pattern.Matches at hs ht
  rw [← hs, ← ht, BitVec.and_assoc, BitVec.and_assoc, BitVec.and_comm s.mask]

theorem Clash.symm {s t : Pattern n} (h : Clash s t) : Clash t s := fun e => h e.symm

/-! ## Fields -/

/-- The pattern that compares the `l` bits from bit `s` with `v`. -/
def field (n s l : ℕ) (v : BitVec l) : Pattern n :=
  ⟨(BitVec.allOnes l).setWidth n <<< s, v.setWidth n <<< s⟩

/-- Both patterns at once; meant for patterns that compare different bits. -/
def Pattern.both (s t : Pattern n) : Pattern n := ⟨s.mask ||| t.mask, s.key ||| t.key⟩

/-- The key bits of a pattern are bits of its mask. -/
def Pattern.Tidy (t : Pattern n) : Prop := t.key &&& t.mask = t.key

theorem field_matches_iff {s l : ℕ} (h : s + l ≤ n) (v : BitVec l) (w : BitVec n) :
    (field n s l v).Matches w ↔ w.extractLsb' s l = v := by
  unfold Pattern.Matches field
  constructor
  · intro e
    apply BitVec.eq_of_getLsbD_eq
    intro i hi
    have hb := congrArg (fun x : BitVec n => x.getLsbD (s + i)) e
    have h1 : s + i < n := by omega
    have h2 : i < n := by omega
    have h3 : ¬ s + i < s := by omega
    simpa [h1, h2, h3, hi, BitVec.getLsbD_extractLsb'] using hb
  · rintro rfl
    apply BitVec.eq_of_getLsbD_eq
    intro i hi
    by_cases his : i < s
    · simp [his]
    · have h3 : s + (i - s) = i := by omega
      by_cases hl : i - s < l <;> simp [hi, his, hl, h3, BitVec.getLsbD_extractLsb']

theorem field_tidy (s l : ℕ) (v : BitVec l) : (field n s l v).Tidy := by
  unfold Pattern.Tidy field
  apply BitVec.eq_of_getLsbD_eq
  intro i hi
  simp only [BitVec.getLsbD_and, BitVec.getLsbD_shiftLeft, BitVec.getLsbD_setWidth, BitVec.getLsbD_allOnes]
  by_cases hv : v.getLsbD (i - s) = true
  · have := BitVec.lt_of_getLsbD hv
    simp [hv, this]
  · simp [hv]

/-- Two patterns on disjoint bits are matched together exactly when each is matched. -/
theorem both_matches_iff {s t : Pattern n} (hs : s.Tidy) (ht : t.Tidy) (hd : s.mask &&& t.mask = 0#n)
    (w : BitVec n) : (s.both t).Matches w ↔ s.Matches w ∧ t.Matches w := by
  have hbit : ∀ i, (s.key.getLsbD i = true → s.mask.getLsbD i = true) ∧
      (t.key.getLsbD i = true → t.mask.getLsbD i = true) ∧
      ¬ (s.mask.getLsbD i = true ∧ t.mask.getLsbD i = true) := by
    intro i
    have h1 := congrArg (fun x : BitVec n => x.getLsbD i) hs
    have h2 := congrArg (fun x : BitVec n => x.getLsbD i) ht
    have h3 := congrArg (fun x : BitVec n => x.getLsbD i) hd
    simp only [BitVec.getLsbD_and, BitVec.getLsbD_zero] at h1 h2 h3
    grind
  unfold Pattern.Matches Pattern.both
  constructor
  · intro e
    constructor <;> apply BitVec.eq_of_getLsbD_eq <;> intro i hi <;>
      have hb := congrArg (fun x : BitVec n => x.getLsbD i) e <;>
      have := hbit i <;>
      simp only [BitVec.getLsbD_and, BitVec.getLsbD_or] at hb ⊢ <;> grind
  · rintro ⟨e1, e2⟩
    rw [← e1, ← e2]
    apply BitVec.eq_of_getLsbD_eq
    intro i hi
    simp only [BitVec.getLsbD_and, BitVec.getLsbD_or]
    grind

/-! ## Lists of entries -/

/-- Entries of different names have no word in common. -/
def Unambiguous (pat : α → Pattern n) (name : α → β) (table : List α) : Prop :=
  ∀ x ∈ table, ∀ y ∈ table, name x ≠ name y → Clash (pat x) (pat y)

end Ternary
