import Mathlib

/-!
# The rightmost of greatest rank

A stack on which an element is pushed if its rank is at least that of the top, and which is never
popped: after a list, its top is the rightmost of the elements of greatest rank.
-/

namespace Rightmost

variable {β : Type*} (rank : β → ℤ)

def push (stack : List β) (x : β) : List β :=
  match stack with
  | [] => [x]
  | t :: s => if rank t ≤ rank x then x :: t :: s else t :: s

/-- `x` is the rightmost of greatest rank in `l ++ x :: r`. -/
def IsMain (l : List β) (x : β) (r : List β) : Prop :=
  (∀ y ∈ l, rank y ≤ rank x) ∧ ∀ y ∈ r, rank y < rank x

variable {rank}

theorem push_cons (t : β) (s : List β) (x : β) :
    push rank (t :: s) x = if rank t ≤ rank x then x :: t :: s else t :: s := rfl

theorem foldl_push_le {k : ℤ} {stack xs : List β} (hs : ∀ t ∈ stack.head?, rank t ≤ k)
    (hx : ∀ y ∈ xs, rank y ≤ k) : ∀ t ∈ (xs.foldl (push rank) stack).head?, rank t ≤ k := by
  induction xs generalizing stack with
  | nil => exact hs
  | cons x xs ih =>
    refine ih ?_ fun y hy => hx y (List.mem_cons_of_mem x hy)
    intro t ht
    have hxk : rank x ≤ k := hx x List.mem_cons_self
    cases stack with
    | nil =>
      cases ht
      exact hxk
    | cons u s =>
      by_cases hux : rank u ≤ rank x
      · rw [push_cons, if_pos hux] at ht
        cases ht
        exact hxk
      · rw [push_cons, if_neg hux] at ht
        cases ht
        exact hs _ rfl

theorem foldl_push_lt {x : β} {s xs : List β} (hx : ∀ y ∈ xs, rank y < rank x) :
    xs.foldl (push rank) (x :: s) = x :: s := by
  induction xs with
  | nil => rfl
  | cons y xs ih =>
    have hy : ¬ rank x ≤ rank y := not_le.mpr (hx y List.mem_cons_self)
    rw [List.foldl_cons, push_cons, if_neg hy]
    exact ih fun z hz => hx z (List.mem_cons_of_mem y hz)

/-- **The top of the stack is the rightmost of greatest rank.** -/
theorem IsMain.head? {l r : List β} {x : β} (h : IsMain rank l x r) :
    ((l ++ x :: r).foldl (push rank) []).head? = some x := by
  rw [List.foldl_append, List.foldl_cons]
  have hl : ∀ t ∈ (l.foldl (push rank) []).head?, rank t ≤ rank x := foldl_push_le (by simp) h.1
  generalize l.foldl (push rank) [] = stack at hl
  have hpush : ∃ s, push rank stack x = x :: s := by
    cases stack with
    | nil => exact ⟨[], rfl⟩
    | cons t s => exact ⟨t :: s, if_pos (hl t rfl)⟩
  obtain ⟨s, hs⟩ := hpush
  rw [hs, foldl_push_lt h.2]
  rfl

theorem exists_isMain {xs : List β} (h : xs ≠ []) : ∃ l x r, xs = l ++ x :: r ∧ IsMain rank l x r := by
  induction xs with
  | nil => exact absurd rfl h
  | cons a xs ih =>
    by_cases hxs : xs = []
    · exact ⟨[], a, [], by rw [hxs]; rfl, by simp, by simp⟩
    · obtain ⟨l, x, r, rfl, hl, hr⟩ := ih hxs
      by_cases hax : rank a ≤ rank x
      · refine ⟨a :: l, x, r, rfl, ?_, hr⟩
        intro y hy
        rcases List.mem_cons.mp hy with rfl | hy
        · exact hax
        · exact hl y hy
      · refine ⟨[], a, l ++ x :: r, rfl, by simp, ?_⟩
        intro y hy
        rcases List.mem_append.mp hy with hy | hy
        · exact lt_of_le_of_lt (hl y hy) (not_le.mp hax)
        · rcases List.mem_cons.mp hy with rfl | hy
          · exact not_le.mp hax
          · exact (hr y hy).trans (not_le.mp hax)

end Rightmost
