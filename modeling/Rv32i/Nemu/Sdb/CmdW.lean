import Rv32i.Nemu.Sdb.CheckWp
import Rv32i.Nemu.Sdb.Command

/-!
# NEMU: `cmd_w`

`cmd_w` takes a node from the pool before it looks at the string, copies the string without a bound and asserts
that `expr` accepts it.  `cmdW_ok`: with a free node, at most 31 characters and an accepted expression it activates
the node.  `cmdW_inv`: it does not return otherwise.
-/

namespace Nemu

open Rv32

variable {frames : ℕ} {m : Machine} {σ σ' : Emulator} {p : WpPool} {hs fs : List (Fin nrWp)} {i : Fin nrWp}
  {e : List Char} {v : Word} {code : ℤ}

/-- The pool after `cmd_w` has taken node `i`, and written its text and its value. -/
def WpPool.activate (p : WpPool) (i : Fin nrWp) (e : List Char) (v : Word) : WpPool :=
  (newWp p).2.set i { (newWp p).2.wpPool i with str := e, lastValue := v }

theorem activate_of_ne (h : p.Lists hs (i :: fs)) {j : Fin nrWp} (hj : j ≠ i) :
    (p.activate i e v).wpPool j = p.wpPool j := by
  unfold WpPool.activate
  rw [newWp_some h]
  unfold WpPool.link WpPool.set
  simp only [Function.update_of_ne hj]

theorem activate_self (p : WpPool) (i : Fin nrWp) (e : List Char) (v : Word) :
    ((p.activate i e v).wpPool i).str = e ∧ ((p.activate i e v).wpPool i).lastValue = v := by
  unfold WpPool.activate WpPool.set
  simp

theorem activate_lists (h : p.Lists hs (i :: fs)) : (p.activate i e v).Lists (i :: hs) fs := by
  refine (newWp_lists h).congr rfl rfl fun j => ?_
  unfold WpPool.activate WpPool.set
  by_cases hj : j = i
  · subst hj
    simp
  · simp [hj]

/-- The watchpoints that were active are as they were. -/
theorem activate_of_mem (h : p.Lists hs (i :: fs)) {j : Fin nrWp} (hj : j ∈ hs) :
    (p.activate i e v).wpPool j = p.wpPool j :=
  activate_of_ne h fun hji => h.disjoint j hj (by rw [hji]; exact List.mem_cons_self)

/-- An accepted text makes a watched pool. -/
theorem Watched.activate (h : Watched frames p hs (i :: fs)) (hlen : e.length ≤ 31) (hacc : Accepts frames e) :
    Watched frames (p.activate i e v) (i :: hs) fs where
  lists := activate_lists h.lists
  short := by
    intro j hj
    rcases List.mem_cons.mp hj with rfl | hj
    · rw [(activate_self p j e v).1]
      exact hlen
    · rw [activate_of_mem h.lists hj]
      exact h.short j hj
  accepts := by
    intro j hj
    rcases List.mem_cons.mp hj with rfl | hj
    · rw [(activate_self p j e v).1]
      exact hacc
    · rw [activate_of_mem h.lists hj]
      exact h.accepts j hj

/-- The current value keeps the pool in sync. -/
theorem InSync.activate (h : p.Lists hs (i :: fs)) (hsync : InSync frames m p hs) (hv : Values frames m e v) :
    InSync frames m (p.activate i e v) (i :: hs) := by
  intro j hj
  rcases List.mem_cons.mp hj with rfl | hj
  · rw [(activate_self p j e v).1, (activate_self p j e v).2]
    exact hv
  · rw [activate_of_mem h hj]
    exact hsync j hj

/-- **`cmd_w` activates the first free node** when the string fits and `expr` accepts it. -/
theorem cmdW_ok (h : σ.pool.Lists hs (i :: fs)) (hlen : e.length ≤ 31) (hv : Values frames σ.machine e v) :
    ∃ exprState, cmdW frames (some e) σ = .ok (0, { σ with pool := σ.pool.activate i e v, exprState }) := by
  obtain ⟨d', hexpr⟩ := hv σ.exprState
  have hshort : ¬ 32 ≤ e.length := by omega
  refine ⟨d', ?_⟩
  unfold cmdW WpPool.activate
  rw [newWp_some h]
  simp only [hshort, if_false, bind, Except.bind, hexpr, Bool.true_eq_false, pure, Except.pure]
  unfold WpPool.set
  simp

/-- **`cmd_w` returns only so.** -/
theorem cmdW_inv (h : σ.pool.Lists hs fs) (hok : cmdW frames (some e) σ = .ok (code, σ')) :
    ∃ i fs' v exprState, fs = i :: fs' ∧ e.length ≤ 31 ∧ Values frames σ.machine e v ∧ code = 0 ∧
      σ' = { σ with pool := σ.pool.activate i e v, exprState } := by
  cases fs with
  | nil =>
    unfold cmdW at hok
    rw [newWp_none h] at hok
    cases hok
  | cons i fs =>
    by_cases hlen : 32 ≤ e.length
    · unfold cmdW at hok
      rw [newWp_some h] at hok
      simp only [hlen, if_true] at hok
      cases hok
    · have hexpr : ∃ v d', expr frames σ.machine e σ.exprState = .ok (v, true, d') := by
        unfold cmdW at hok
        rw [newWp_some h] at hok
        simp only [hlen, if_false] at hok
        obtain ⟨⟨v, success, d'⟩, hexpr, hok⟩ := bind_ok hok
        cases success with
        | false => cases hok
        | true => exact ⟨v, d', hexpr⟩
      obtain ⟨v, d', hexpr⟩ := hexpr
      have hv := values_of_expr (by omega) hexpr ⟨rfl, rfl⟩
      obtain ⟨d'', heq⟩ := cmdW_ok h (by omega) hv
      rw [heq] at hok
      cases hok
      exact ⟨i, fs, v, d'', rfl, by omega, hv, rfl, rfl⟩

/-! ## What may come of a `w` command -/

/-- Exactly one watchpoint is new, with the argument as its text and the current value; the others are as before. -/
def Activates (frames : ℕ) (e : List Char) (σ σ' : Emulator) (hs fs : List (Fin nrWp)) : Prop :=
  ∃ i fs', fs = i :: fs' ∧ σ'.pool.Lists (i :: hs) fs' ∧ (σ'.pool.wpPool i).str = e ∧
    Values frames σ.machine e (σ'.pool.wpPool i).lastValue ∧ ∀ j, j ≠ i → σ'.pool.wpPool j = σ.pool.wpPool j

/-- The lists are as before, and so are the active watchpoints and all nodes but for one. -/
def Leaves (σ σ' : Emulator) (hs fs : List (Fin nrWp)) : Prop :=
  σ'.pool.Lists hs fs ∧ (∀ j ∈ hs, σ'.pool.wpPool j = σ.pool.wpPool j) ∧
    ∃ i, ∀ j, j ≠ i → σ'.pool.wpPool j = σ.pool.wpPool j

/-- The command returns, and has activated one watchpoint or left the pool. -/
def Settles (frames : ℕ) (args : Option (List Char)) (σ : Emulator) (hs fs : List (Fin nrWp)) : Prop :=
  ∃ σ', cmdW frames args σ = .ok (0, σ') ∧
    ((∃ e, args = some e ∧ Activates frames e σ σ' hs fs) ∨ Leaves σ σ' hs fs)

theorem settles_iff (h : σ.pool.Lists hs fs) (args : Option (List Char)) :
    Settles frames args σ hs fs ↔
      ∀ e, args = some e → hs.length ≠ nrWp ∧ e.length ≤ 31 ∧ Accepts frames e := by
  have hsum := h.length
  constructor
  · rintro ⟨σ', hok, -⟩ e rfl
    obtain ⟨i, fs', v, d', rfl, hlen, hv, -, -⟩ := cmdW_inv h hok
    rw [List.length_cons] at hsum
    exact ⟨by omega, hlen, hv.accepts⟩
  · intro hcond
    cases args with
    | none => exact ⟨σ, rfl, .inr ⟨h, fun _ _ => rfl, ⟨0, by decide⟩, fun _ _ => rfl⟩⟩
    | some e =>
      obtain ⟨hfull, hlen, hacc⟩ := hcond e rfl
      obtain ⟨v, hv⟩ := hacc.values hlen σ.machine
      cases fs with
      | nil =>
        rw [List.length_nil] at hsum
        omega
      | cons i fs =>
        obtain ⟨d', heq⟩ := cmdW_ok h hlen hv
        obtain ⟨hstr, hval⟩ := activate_self σ.pool i e v
        refine ⟨_, heq, .inl ⟨e, rfl, i, fs, rfl, activate_lists h, hstr, ?_, fun j hj => activate_of_ne h hj⟩⟩
        show Values frames σ.machine e ((σ.pool.activate i e v).wpPool i).lastValue
        rw [hval]
        exact hv

end Nemu
