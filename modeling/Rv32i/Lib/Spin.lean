import Mathlib

/-!
# A spin lock

Any number of threads that take a lock by an atomic exchange, hold it, give it back and go on.

* `step` — a thread does its next step; `run` — the threads of a list do, one after the other;
* `Safe` — the lock is taken exactly while a thread holds it, and no two threads hold it;
* `run_safe` — **whatever the order of the steps**, a run keeps it.
-/

namespace Spin

/-- Where a thread is: before the exchange, with the lock, or without interest in it. -/
inductive Point
  | lock | critical | delay
  deriving DecidableEq, Repr

structure State (ι : Type*) where
  locked : Bool
  point : ι → Point

variable {ι : Type*}

structure Safe (s : State ι) : Prop where
  locked_iff : s.locked = true ↔ ∃ t, s.point t = .critical
  exclusive : ∀ t t', s.point t = .critical → s.point t' = .critical → t = t'

variable [DecidableEq ι]

/-- The exchange gives the lock to the thread when it was free. -/
def step (s : State ι) (t : ι) : State ι :=
  match s.point t with
  | .lock => ⟨true, Function.update s.point t (if s.locked then .lock else .critical)⟩
  | .critical => ⟨false, Function.update s.point t .delay⟩
  | .delay => ⟨s.locked, Function.update s.point t .lock⟩

def run : State ι → List ι → State ι := List.foldl step

/-- A thread goes on to a point without the lock. -/
theorem critical_update {s : State ι} {t q : ι} {p : Point} (hp : p ≠ .critical)
    (h : Function.update s.point t p q = .critical) : q ≠ t ∧ s.point q = .critical := by
  by_cases hq : q = t
  · rw [hq, Function.update_self] at h
    exact absurd h hp
  · rw [Function.update_of_ne hq] at h
    exact ⟨hq, h⟩

/-- A thread that does not hold the lock goes on without it. -/
theorem Safe.update {s : State ι} (h : Safe s) {t : ι} {p : Point} (hp : p ≠ .critical) (ht : s.point t ≠ .critical) :
    Safe ⟨s.locked, Function.update s.point t p⟩ := by
  refine ⟨⟨fun hlocked => ?_, fun ⟨q, hq⟩ => ?_⟩, fun q q' hq hq' => ?_⟩
  · obtain ⟨q, hq⟩ := h.locked_iff.mp hlocked
    have hne : q ≠ t := by
      rintro rfl
      exact ht hq
    exact ⟨q, (Function.update_of_ne hne _ _).trans hq⟩
  · exact h.locked_iff.mpr ⟨q, (critical_update hp hq).2⟩
  · exact h.exclusive q q' (critical_update hp hq).2 (critical_update hp hq').2

theorem step_safe {s : State ι} (h : Safe s) (t : ι) : Safe (step s t) := by
  unfold step
  cases ht : s.point t with
  | lock =>
    by_cases hlocked : s.locked = true
    · have hupdate := h.update (p := .lock) (by simp) (show s.point t ≠ .critical by rw [ht]; simp)
      rw [hlocked] at hupdate ⊢
      rw [if_pos rfl]
      exact hupdate
    · -- nobody holds it, and `t` takes it
      have hnone : ∀ q, s.point q ≠ .critical := fun q hq => hlocked (h.locked_iff.mpr ⟨q, hq⟩)
      have honly : ∀ q, Function.update s.point t .critical q = .critical → q = t := fun q hq => by
        by_contra hne
        rw [Function.update_of_ne hne] at hq
        exact hnone q hq
      dsimp only
      rw [if_neg hlocked]
      exact ⟨⟨fun _ => ⟨t, Function.update_self t _ _⟩, fun _ => rfl⟩,
        fun q q' hq hq' => (honly q hq).trans (honly q' hq').symm⟩
  | critical =>
    have hnone : ∀ q, Function.update s.point t .delay q ≠ .critical := fun q hq => by
      obtain ⟨hne, hcrit⟩ := critical_update (by simp) hq
      exact hne (h.exclusive q t hcrit ht)
    exact ⟨⟨fun hfalse => absurd hfalse (by simp), fun ⟨q, hq⟩ => absurd hq (hnone q)⟩,
      fun q _ hq _ => absurd hq (hnone q)⟩
  | delay => exact h.update (by simp) (by rw [ht]; simp)

/-- **Mutual exclusion over every run.** -/
theorem run_safe {s : State ι} (h : Safe s) (ts : List ι) : Safe (run s ts) := by
  induction ts generalizing s with
  | nil => exact h
  | cons t ts ih => exact ih (step_safe h t)

end Spin
