import Mathlib.Data.List.Perm.Basic
import Mathlib.Order.Interval.Set.Basic

/-!
# Dispatch on keys

A list of entries each of which accepts some of the keys; a key goes to the first entry that accepts it.

* `Exclusive` — no key is accepted by two entries; then `find?_perm`: the order of the entries does not matter;
* `not_disjoint_iff` — when two intervals have a key in common.
-/

namespace Dispatch

variable {α κ : Type*}

/-- No key is accepted by two entries. -/
def Exclusive (accepts : κ → α → Bool) (l : List α) : Prop :=
  l.Pairwise fun x y => ∀ k, ¬ (accepts k x ∧ accepts k y)

variable {accepts : κ → α → Bool} {l l' : List α}

theorem Exclusive.perm (h : Exclusive accepts l) (hp : l.Perm l') : Exclusive accepts l' :=
  (hp.pairwise_iff fun hxy k hk => hxy k hk.symm).mp h

/-- The entry that accepts a key is the one that is found. -/
theorem Exclusive.find?_eq_some (h : Exclusive accepts l) {k : κ} {x : α} :
    l.find? (accepts k) = some x ↔ x ∈ l ∧ accepts k x := by
  constructor
  · intro hf
    exact ⟨List.mem_of_find?_eq_some hf, List.find?_some hf⟩
  · rintro ⟨hx, hk⟩
    induction l with
    | nil => cases hx
    | cons y l ih =>
      obtain ⟨hy, hl⟩ := List.pairwise_cons.mp h
      rcases List.mem_cons.mp hx with rfl | hmem
      · rw [List.find?_cons_of_pos hk]
      · have hny : ¬ accepts k y := fun hky => hy x hmem k ⟨hky, hk⟩
        rw [List.find?_cons_of_neg hny]
        exact ih hl hmem

/-- **The order of exclusive entries does not matter.** -/
theorem find?_perm (h : Exclusive accepts l) (hp : l.Perm l') (k : κ) : l.find? (accepts k) = l'.find? (accepts k) := by
  apply Option.ext
  intro x
  rw [h.find?_eq_some, (h.perm hp).find?_eq_some, hp.mem_iff]

/-- **Two intervals that are not empty have a key in common** exactly when each starts before the other ends. -/
theorem not_disjoint_iff [LinearOrder κ] {a b c d : κ} (hab : a ≤ b) (hcd : c ≤ d) :
    (∃ k, (a ≤ k ∧ k ≤ b) ∧ c ≤ k ∧ k ≤ d) ↔ a ≤ d ∧ c ≤ b := by
  constructor
  · rintro ⟨k, ⟨ha, hb⟩, hc, hd⟩
    exact ⟨ha.trans hd, hc.trans hb⟩
  · rintro ⟨had, hcb⟩
    exact ⟨max a c, ⟨le_max_left a c, max_le hab hcb⟩, le_max_right a c, max_le had hcd⟩

end Dispatch
