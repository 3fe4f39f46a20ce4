import Mathlib.Data.List.Nodup
import Mathlib.Logic.Function.Basic

/-!
# Singly linked lists in a store

`Chain next p l` — the pointer `p`, followed along the field `next`, goes through exactly the nodes of `l` and then
is null.  The list is determined by the pointer and has no node twice, so a chain is finite and acyclic.

* `Chain.push`, `Chain.push_iff` — a node put in front;
* `Chain.unlink` — the successor of a node taken out.
-/

variable {α : Type}

def Chain (next : α → Option α) : Option α → List α → Prop
  | p, [] => p = none
  | p, x :: l => p = some x ∧ Chain next (next x) l

namespace Chain

variable {next next' : α → Option α} {p : Option α} {x y : α} {l l' r : List α}

theorem nil_iff : Chain next p [] ↔ p = none := Iff.rfl

/-- What holds of the first node and of the successor of each node where it holds, holds of all nodes. -/
theorem forall_mem {P : α → Prop} (h : Chain next p l) (hp : ∀ x, p = some x → P x)
    (hnext : ∀ x y, P x → next x = some y → P y) : ∀ x ∈ l, P x := by
  induction l generalizing p with
  | nil => nofun
  | cons x l ih =>
    obtain ⟨hx, hl⟩ := h
    have hP := hp x hx
    exact List.forall_mem_cons.mpr ⟨hP, ih hl fun y hy => hnext x y hP hy⟩

theorem head_eq (h : Chain next p l) : p = l.head? := by
  cases l with
  | nil => exact h
  | cons x l => exact h.1

/-- A pointer starts one chain only. -/
theorem unique (h : Chain next p l) (h' : Chain next p l') : l = l' := by
  induction l generalizing p l' with
  | nil =>
    cases l' with
    | nil => rfl
    | cons y l' => rw [nil_iff.mp h] at h'; cases h'.1
  | cons x l ih =>
    cases l' with
    | nil => rw [nil_iff.mp h'] at h; cases h.1
    | cons y l' =>
      have hxy : x = y := Option.some.inj (h.1.symm.trans h'.1)
      subst hxy
      rw [ih h.2 h'.2]

/-- What follows a node on a chain is the chain from it. -/
theorem suffix (h : Chain next p (l ++ x :: r)) : Chain next (some x) (x :: r) := by
  induction l generalizing p with
  | nil => exact ⟨rfl, h.2⟩
  | cons y l ih => exact ih h.2

/-- **No node is twice on a chain.** -/
theorem nodup (h : Chain next p l) : l.Nodup := by
  induction l generalizing p with
  | nil => exact List.nodup_nil
  | cons x l ih =>
    refine List.nodup_cons.mpr ⟨fun hx => ?_, ih h.2⟩
    -- a second `x` would start the same chain again, which is shorter
    obtain ⟨a, b, rfl⟩ := List.append_of_mem hx
    have hlong : Chain next (some x) (x :: (a ++ x :: b)) := ⟨rfl, h.2⟩
    have hshort : Chain next (some x) (x :: b) := suffix h.2
    have := congrArg List.length (unique hlong hshort)
    simp at this
    omega

/-- A chain does not see the other nodes. -/
theorem congr (h : Chain next p l) (heq : ∀ z ∈ l, next' z = next z) : Chain next' p l := by
  induction l generalizing p with
  | nil => exact h
  | cons x l ih =>
    refine ⟨h.1, ?_⟩
    rw [heq x List.mem_cons_self]
    exact ih h.2 fun z hz => heq z (List.mem_cons_of_mem _ hz)

section Update

variable [DecidableEq α]

theorem update (h : Chain next p l) (hx : x ∉ l) (v : Option α) : Chain (Function.update next x v) p l :=
  h.congr fun _ hz => Function.update_of_ne (ne_of_mem_of_not_mem hz hx) _ _

/-- A fresh node in front of a chain. -/
theorem push (h : Chain next p l) (hx : x ∉ l) : Chain (Function.update next x p) (some x) (x :: l) := by
  refine ⟨rfl, ?_⟩
  rw [Function.update_self]
  exact h.update hx p

/-- A node put in front of what its own link does not reach is all that can start a chain there. -/
theorem push_iff {l' : List α} : Chain (Function.update next x p) (some x) l' ↔ ∃ l, l' = x :: l ∧ x ∉ l ∧ Chain next p l := by
  constructor
  · intro h
    have hnd := h.nodup
    cases l' with
    | nil => cases h
    | cons y l =>
      obtain ⟨hy, hl⟩ := h
      obtain rfl := Option.some.inj hy
      rw [Function.update_self] at hl
      have hx := (List.nodup_cons.mp hnd).1
      exact ⟨l, rfl, hx, hl.congr fun z hz => (Function.update_of_ne (ne_of_mem_of_not_mem hz hx) _ _).symm⟩
  · rintro ⟨l, rfl, hx, hl⟩
    exact hl.push hx

/-- The successor of a node taken out of a chain. -/
theorem unlink (h : Chain next p (l ++ y :: x :: r)) :
    Chain (Function.update next y (next x)) p (l ++ y :: r) := by
  have hnd := h.nodup
  induction l generalizing p with
  | nil =>
    obtain ⟨hp, -, hr⟩ := h
    refine ⟨hp, ?_⟩
    rw [Function.update_self]
    refine hr.update (fun hy => ?_) _
    simp only [List.nil_append, List.nodup_cons] at hnd
    exact hnd.1 (List.mem_cons_of_mem _ hy)
  | cons a l ih =>
    refine ⟨h.1, ?_⟩
    simp only [List.cons_append, List.nodup_cons] at hnd
    have hay : a ≠ y := fun hay => hnd.1 (by rw [hay]; simp)
    rw [Function.update_of_ne hay]
    exact ih h.2 hnd.2

end Update

end Chain
