import Mathlib.Data.Set.Lattice

/-!
# Straight lines of instructions

A line is a list of instructions that are executed one after another, for any instructions and any states.

* `run` — what a line does;
* `Keeps` — the cells of the state that may differ, with the laws of such footprints, and `run_keeps`: the footprint
  of a line from those of its instructions.
-/

namespace Line

variable {ι σ : Type*} {exec : ι → σ → σ}

/-- The instructions of a line, one after another. -/
def run (exec : ι → σ → σ) (l : List ι) (s : σ) : σ := l.foldl (fun s i => exec i s) s

theorem run_nil (s : σ) : run exec [] s = s := rfl

theorem run_cons (i : ι) (l : List ι) (s : σ) : run exec (i :: l) s = run exec l (exec i s) := rfl

theorem run_append (l l' : List ι) (s : σ) : run exec (l ++ l') s = run exec l' (run exec l s) :=
  List.foldl_append

/-! ## Footprints -/

section Keeps

variable {κ : Type*} {β : κ → Type*} {read : (c : κ) → σ → β c} {K K' : Set κ} {s s' s'' : σ}

/-- Every cell outside `K` reads in `s'` as it does in `s`. -/
def Keeps (read : (c : κ) → σ → β c) (K : Set κ) (s s' : σ) : Prop := ∀ c, c ∉ K → read c s' = read c s

theorem Keeps.refl (K : Set κ) (s : σ) : Keeps read K s s := fun _ _ => rfl

theorem Keeps.trans (h : Keeps read K s s') (h' : Keeps read K s' s'') : Keeps read K s s'' :=
  fun c hc => (h' c hc).trans (h c hc)

theorem Keeps.mono (h : Keeps read K s s') (hK : K ⊆ K') : Keeps read K' s s' := fun c hc => h c fun hm => hc (hK hm)

/-- **The footprint of a line**: while an invariant of the line holds, its instructions write into `K` only. -/
theorem run_keeps {P : σ → Prop} {l : List ι} (h : ∀ i ∈ l, ∀ s, P s → Keeps read K s (exec i s) ∧ P (exec i s))
    (hs : P s) : Keeps read K s (run exec l s) ∧ P (run exec l s) := by
  induction l generalizing s with
  | nil => exact ⟨Keeps.refl K s, hs⟩
  | cons i l ih =>
    obtain ⟨hstep, hnext⟩ := h i List.mem_cons_self s hs
    obtain ⟨hrest, hend⟩ := ih (fun j hj => h j (List.mem_cons_of_mem _ hj)) hnext
    rw [run_cons]
    exact ⟨hstep.trans hrest, hend⟩

end Keeps

end Line
