import Mathlib

/-!
# Machines in lockstep

A machine driven by a list of inputs, and a partial machine without inputs that is to follow it through
an abstraction function.  One matching step (`Follows`) gives matching runs (`Follows.run`), as long as a
guard on the state and the input holds along the run (`Along`).
-/

namespace Lockstep

variable {σ ι τ : Type*}

/-- The state after the inputs, in order. -/
def run (f : ι → σ → σ) : List ι → σ → σ
  | [], s => s
  | i :: is, s => run f is (f i s)

/-- The guard holds at every step of the run. -/
def Along (f : ι → σ → σ) (P : ι → σ → Prop) : List ι → σ → Prop
  | [], _ => True
  | i :: is, s => P i s ∧ Along f P is (f i s)

/-- `n` steps of a partial machine. -/
def iter (g : τ → Option τ) : ℕ → τ → Option τ
  | 0, t => some t
  | n + 1, t => (g t).bind (iter g n)

/-- Where the guard holds, one step of `f` is one step of `g` on the abstractions. -/
def Follows (f : ι → σ → σ) (P : ι → σ → Prop) (abs : σ → τ) (g : τ → Option τ) : Prop :=
  ∀ i s, P i s → g (abs s) = some (abs (f i s))

variable {f : ι → σ → σ} {P : ι → σ → Prop} {abs : σ → τ} {g : τ → Option τ}

theorem Along.take {is : List ι} {s : σ} (h : Along f P is s) (k : ℕ) : Along f P (is.take k) s := by
  induction is generalizing s k with
  | nil => rw [List.take_nil]; trivial
  | cons i is ih =>
    cases k with
    | zero => trivial
    | succ k => exact ⟨h.1, ih h.2 k⟩

theorem Along.of_forall {is : List ι} {s : σ}
    (h : ∀ k, (hk : k < is.length) → P (is.get ⟨k, hk⟩) (run f (is.take k) s)) : Along f P is s := by
  induction is generalizing s with
  | nil => trivial
  | cons i is ih =>
    have h0 : P i s := h 0 (Nat.succ_pos _)
    exact ⟨h0, ih fun k hk => h (k + 1) (Nat.succ_lt_succ hk)⟩

/-- **One matching step gives matching runs.** -/
theorem Follows.run (hf : Follows f P abs g) {is : List ι} {s : σ} (h : Along f P is s) :
    iter g is.length (abs s) = some (abs (run f is s)) := by
  induction is generalizing s with
  | nil => rfl
  | cons i is ih =>
    have hstep := hf i s h.1
    show (g (abs s)).bind (iter g is.length) = _
    rw [hstep]
    exact ih h.2

/-- After every prefix of the inputs the partial machine is where the other one is. -/
theorem Follows.run_take (hf : Follows f P abs g) {is : List ι} {s : σ} (h : Along f P is s) {k : ℕ}
    (hk : k ≤ is.length) : iter g k (abs s) = some (abs (Lockstep.run f (is.take k) s)) := by
  have := hf.run (h.take k)
  rwa [List.length_take_of_le hk] at this

/-- What every step of the partial machine keeps, every run keeps. -/
theorem iter_preserves {β : Type*} {π : τ → β} (hg : ∀ t t', g t = some t' → π t' = π t) {n : ℕ} {t t' : τ}
    (h : iter g n t = some t') : π t' = π t := by
  induction n generalizing t with
  | zero =>
    cases h
    rfl
  | succ n ih =>
    obtain ⟨u, hu, hn⟩ := Option.bind_eq_some_iff.mp h
    rw [ih hn, hg t u hu]

end Lockstep
