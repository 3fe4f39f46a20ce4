import Rv32i.Nemu.Frame
import Rv32i.Nemu.Sdb.Command

/-!
# Executing in parts

`cpu_exec(a)` and then `cpu_exec(b)` is `cpu_exec(a + b)`, as long as no watchpoint triggers during the first `a`
instructions (`cpuExec_add`): the two `switch`es of `cpu_exec` undo each other where the parts meet, and an ended or
aborted program stops the second part as it stops the loop.
-/

namespace Nemu

open Rv32

variable {frames : ℕ} {σ σ' : Emulator}

/-- No watchpoint triggers during the first `n` instructions of `execute`. -/
def Untriggered (frames : ℕ) : ℕ → Emulator → Prop
  | 0, _ => True
  | n + 1, σ => ∀ s s' σ1, executeInst s σ = .ok (s', σ1) →
      (∀ triggered pool exprState,
        checkWp frames σ1.machine σ1.pool σ1.exprState = .ok (triggered, pool, exprState) → triggered = false) ∧
      ∀ σ2, traceAndDifftest frames σ1 = .ok σ2 → σ2.state = .running → Untriggered frames n σ2

/-! ## One instruction -/

/-- `execute` starts with any contents of its `Decode`. -/
theorem execute_decode (n : ℕ) (s t : Decode) (σ : Emulator) : execute frames n s σ = execute frames n t σ := by
  cases n <;> rfl

/-- From a running emulator an instruction leaves a running, ended or aborted one. -/
theorem executeInst_state {s s' : Decode} (h : executeInst s σ = .ok (s', σ')) (hrun : σ.state = .running) :
    σ'.state = .running ∨ σ'.state = .end ∨ σ'.state = .abort := by
  unfold executeInst execOnce at h
  cases hisa : isaExecOnce { s with pc := σ.machine.cpu.pc, snpc := σ.machine.cpu.pc } σ.machine with
  | error f => rw [hisa] at h; cases h
  | ok r =>
    rw [hisa] at h
    cases h
    rcases isaExecOnce_state hisa with hstate | hstate
    · left
      have : r.2.nemuState.state = σ.machine.nemuState.state := congrArg NEMUState.state hstate
      exact this.trans hrun
    · exact .inr hstate

/-- A check that does not trigger leaves the state. -/
theorem traceAndDifftest_state (h : traceAndDifftest frames σ = .ok σ')
    (hquiet : ∀ triggered pool exprState,
      checkWp frames σ.machine σ.pool σ.exprState = .ok (triggered, pool, exprState) → triggered = false) :
    σ'.state = σ.state := by
  unfold traceAndDifftest at h
  cases hcheck : checkWp frames σ.machine σ.pool σ.exprState with
  | error f => rw [hcheck] at h; cases h
  | ok r =>
    obtain ⟨triggered, pool, exprState⟩ := r
    rw [hcheck, hquiet _ _ _ hcheck] at h
    cases h
    rfl

/-! ## The loop -/

/-- The loop of `execute`, one round. -/
theorem execute_succ (n : ℕ) (s : Decode) (σ : Emulator) :
    execute frames (n + 1) s σ = executeInst s σ >>= fun r =>
      traceAndDifftest frames r.2 >>= fun σ2 => if σ2.state = .running then execute frames n r.1 σ2 else .ok σ2 := by
  conv_lhs => unfold execute
  cases executeInst s σ with
  | error f => rfl
  | ok r =>
    show (traceAndDifftest frames r.2 >>= _) = (traceAndDifftest frames r.2 >>= _)
    cases traceAndDifftest frames r.2 with
    | error f => rfl
    | ok σ2 =>
      show (if σ2.state ≠ .running then (pure σ2 : Exec Emulator) else execute frames n r.1 σ2) =
        if σ2.state = .running then execute frames n r.1 σ2 else .ok σ2
      by_cases h : σ2.state = .running
      · rw [if_neg (not_not.mpr h), if_pos h]
      · rw [if_pos h, if_neg h]
        rfl

/-- The loop in two parts: the second goes on only from a running emulator. -/
theorem execute_add (a b : ℕ) (s : Decode) (hrun : σ.state = .running) :
    execute frames (a + b) s σ = execute frames a s σ >>= fun σ1 =>
      if σ1.state = .running then execute frames b s σ1 else .ok σ1 := by
  induction a generalizing s σ with
  | zero =>
    rw [Nat.zero_add]
    show _ = if σ.state = .running then execute frames b s σ else .ok σ
    rw [if_pos hrun]
  | succ a ih =>
    rw [Nat.succ_add, execute_succ, execute_succ]
    cases executeInst s σ with
    | error f => rfl
    | ok r =>
      show (traceAndDifftest frames r.2 >>= _) = (traceAndDifftest frames r.2 >>= _) >>= _
      cases traceAndDifftest frames r.2 with
      | error f => rfl
      | ok σ2 =>
        show (if σ2.state = .running then execute frames (a + b) r.1 σ2 else .ok σ2) =
          (if σ2.state = .running then execute frames a r.1 σ2 else .ok σ2) >>= _
        by_cases h : σ2.state = .running
        · rw [if_pos h, if_pos h, ih r.1 h]
          simp only [execute_decode b r.1 s]
        · rw [if_neg h, if_neg h]
          show _ = if σ2.state = .running then execute frames b s σ2 else .ok σ2
          rw [if_neg h]

/-- Without a trigger the loop ends in a running, ended or aborted emulator. -/
theorem execute_state {n : ℕ} {s : Decode} (h : execute frames n s σ = .ok σ') (hrun : σ.state = .running)
    (hu : Untriggered frames n σ) : σ'.state = .running ∨ σ'.state = .end ∨ σ'.state = .abort := by
  induction n generalizing s σ with
  | zero =>
    cases h
    exact .inl hrun
  | succ n ih =>
    rw [execute_succ] at h
    obtain ⟨⟨s1, σ1⟩, hinst, h⟩ := bind_ok h
    obtain ⟨σ2, hcheck, h⟩ := bind_ok h
    obtain ⟨hquiet, hnext⟩ := hu s s1 σ1 hinst
    by_cases h2 : σ2.state = .running
    · rw [if_pos h2] at h
      exact ih h h2 (hnext σ2 hcheck h2)
    · rw [if_neg h2] at h
      cases h
      rw [traceAndDifftest_state hcheck hquiet]
      exact executeInst_state hinst hrun

/-! ## `cpu_exec` -/

/-- What `cpu_exec` starts with is running. -/
theorem cpuExecBegin_running (h : cpuExecBegin σ = some σ') : σ'.state = .running := by
  unfold cpuExecBegin at h
  split at h <;> cases h
  rfl

/-- A running emulator that `cpu_exec` leaves is taken up as it was. -/
theorem cpuExecBegin_finish (h : σ.state = .running) : cpuExecBegin (cpuExecFinish σ) = some σ := by
  have hstop : cpuExecFinish σ = σ.setState .stop := by
    unfold cpuExecFinish
    rw [h]
  have hback : (σ.setState .stop).setState .running = σ := by
    unfold Emulator.setState
    rw [← h]
    rfl
  rw [hstop]
  show some ((σ.setState .stop).setState .running) = some σ
  rw [hback]

/-- An ended or aborted one is refused. -/
theorem cpuExecBegin_ended (h : σ.state = .end ∨ σ.state = .abort) :
    cpuExecFinish σ = σ ∧ cpuExecBegin σ = none := by
  unfold cpuExecFinish cpuExecBegin
  rcases h with h | h <;> rw [h] <;> exact ⟨rfl, rfl⟩

theorem cpuExec_of_begin {n : BitVec 64} (h : cpuExecBegin σ = some σ') :
    cpuExec frames n σ = execute frames n.toNat .unset σ' >>= fun σ1 => .ok (cpuExecFinish σ1) := by
  unfold cpuExec
  rw [h]
  rfl

theorem cpuExec_of_refused {n : BitVec 64} (h : cpuExecBegin σ = none) : cpuExec frames n σ = .ok σ := by
  unfold cpuExec
  rw [h]

/-- The second part after a loop that did not trigger. -/
theorem cpuExec_finish {b : BitVec 64} (h : σ.state = .running ∨ σ.state = .end ∨ σ.state = .abort) :
    cpuExec frames b (cpuExecFinish σ) =
      (if σ.state = .running then execute frames b.toNat .unset σ else .ok σ) >>= fun σ1 => .ok (cpuExecFinish σ1) := by
  rcases h with h | h
  · rw [cpuExec_of_begin (cpuExecBegin_finish h), if_pos h]
  · obtain ⟨hfinish, hrefused⟩ := cpuExecBegin_ended h
    have hne : ¬ σ.state = .running := by
      rcases h with h | h <;> rw [h] <;> decide
    rw [hfinish, cpuExec_of_refused hrefused, if_neg hne]
    show _ = Except.ok (cpuExecFinish σ)
    rw [hfinish]

/-- The first `n` instructions of a call of `cpu_exec` do not trigger. -/
def CallUntriggered (frames n : ℕ) (σ : Emulator) : Prop := ∀ σ', cpuExecBegin σ = some σ' → Untriggered frames n σ'

/-- `cpu_exec` in two parts. -/
theorem cpuExec_split {a b : BitVec 64} (hlt : a.toNat + b.toNat < 2 ^ 64)
    (hu : CallUntriggered frames a.toNat σ) :
    (cpuExec frames a σ >>= fun σ1 => cpuExec frames b σ1) = cpuExec frames (a + b) σ := by
  cases hbegin : cpuExecBegin σ with
  | none =>
    rw [cpuExec_of_refused hbegin, cpuExec_of_refused hbegin]
    exact cpuExec_of_refused hbegin
  | some σ0 =>
    have hrun := cpuExecBegin_running hbegin
    have hsum : (a + b).toNat = a.toNat + b.toNat := by
      rw [BitVec.toNat_add, Nat.mod_eq_of_lt hlt]
    rw [cpuExec_of_begin hbegin, cpuExec_of_begin hbegin, hsum, execute_add _ _ _ hrun]
    cases hexec : execute frames a.toNat .unset σ0 with
    | error f => rfl
    | ok σ1 =>
      have hstate := execute_state hexec hrun (hu σ0 hbegin)
      exact cpuExec_finish hstate

/-- `n` calls of `cpu_exec(1)`. -/
def singleSteps (frames : ℕ) : ℕ → Emulator → Exec Emulator
  | 0, σ => .ok σ
  | n + 1, σ => cpuExec frames 1 σ >>= fun σ1 => singleSteps frames n σ1

/-- What is untriggered in one call is so in the call behind its first instruction. -/
theorem CallUntriggered.next {n : ℕ} (hu : CallUntriggered frames (n + 1) σ) (h : cpuExec frames 1 σ = .ok σ') :
    CallUntriggered frames n σ' := by
  cases hbegin : cpuExecBegin σ with
  | none =>
    rw [cpuExec_of_refused hbegin] at h
    cases h
    intro σ0 h0
    rw [hbegin] at h0
    cases h0
  | some σ0 =>
    have hrun := cpuExecBegin_running hbegin
    rw [cpuExec_of_begin hbegin] at h
    obtain ⟨σ1, hexec, h⟩ := bind_ok h
    cases h
    have hone : Untriggered frames 1 σ0 := fun s s' σ1 hinst =>
      ⟨(hu σ0 hbegin s s' σ1 hinst).1, fun _ _ _ => trivial⟩
    have hstate := execute_state hexec hrun hone
    have hexec : execute frames (0 + 1) .unset σ0 = .ok σ1 := hexec
    rw [execute_succ] at hexec
    obtain ⟨⟨s2, σ2⟩, hinst, hexec⟩ := bind_ok hexec
    obtain ⟨σ3, hcheck, hexec⟩ := bind_ok hexec
    have h31 : σ3 = σ1 := by
      by_cases h3 : σ3.state = .running
      · rw [if_pos h3] at hexec
        exact Except.ok.inj hexec
      · rw [if_neg h3] at hexec
        exact Except.ok.inj hexec
    subst h31
    intro σ' h'
    rcases hstate with h3 | h3
    · rw [cpuExecBegin_finish h3] at h'
      cases h'
      exact (hu σ0 hbegin .unset s2 σ2 hinst).2 _ hcheck h3
    · rw [(cpuExecBegin_ended h3).1, (cpuExecBegin_ended h3).2] at h'
      cases h'

/-- Single steps are one call, unless a watchpoint triggers before the last. -/
theorem singleSteps_eq (n : ℕ) (hlt : n + 1 < 2 ^ 64) (hu : CallUntriggered frames n σ) :
    singleSteps frames (n + 1) σ = cpuExec frames (BitVec.ofNat 64 (n + 1)) σ := by
  induction n generalizing σ with
  | zero =>
    show (cpuExec frames 1 σ >>= fun σ1 => Except.ok σ1) = cpuExec frames 1 σ
    cases cpuExec frames 1 σ <;> rfl
  | succ n ih =>
    have hn : (BitVec.ofNat 64 (n + 1)).toNat = n + 1 := by
      rw [BitVec.toNat_ofNat, Nat.mod_eq_of_lt (by omega)]
    have hone : CallUntriggered frames (1 : BitVec 64).toNat σ := by
      intro σ0 hbegin s s' σ1 hinst
      exact ⟨(hu σ0 hbegin s s' σ1 hinst).1, fun _ _ _ => trivial⟩
    have hsplit := cpuExec_split (b := BitVec.ofNat 64 (n + 1)) (by rw [hn]; simp; omega) hone
    have hadd : (1 : BitVec 64) + BitVec.ofNat 64 (n + 1) = BitVec.ofNat 64 (n + 1 + 1) := by
      rw [Nat.add_comm (n + 1) 1]
      exact (BitVec.ofNat_add 1 (n + 1)).symm
    rw [hadd] at hsplit
    rw [← hsplit]
    show (cpuExec frames 1 σ >>= fun σ1 => singleSteps frames (n + 1) σ1) = _
    cases hexec : cpuExec frames 1 σ with
    | error f => rfl
    | ok σ1 => exact ih (by omega) (hu.next hexec)

/-- **Executing in parts is executing at once**: two calls of `cpu_exec` are one with the sum of their counts, if no
watchpoint triggers in the first, also when they fail; and so single steps are one call. -/
theorem cpuExec_add (frames : ℕ) (σ : Emulator) :
    (∀ a b : BitVec 64, a.toNat + b.toNat < 2 ^ 64 → CallUntriggered frames a.toNat σ →
      (cpuExec frames a σ >>= fun σ1 => cpuExec frames b σ1) = cpuExec frames (a + b) σ) ∧
    ∀ n, n + 1 < 2 ^ 64 → CallUntriggered frames n σ →
      singleSteps frames (n + 1) σ = cpuExec frames (BitVec.ofNat 64 (n + 1)) σ :=
  ⟨fun _ _ => cpuExec_split, singleSteps_eq⟩

/-- Without watchpoints nothing triggers. -/
theorem untriggered_of_head {n : ℕ} (h : σ.pool.head = none) : Untriggered frames n σ := by
  induction n generalizing σ with
  | zero => trivial
  | succ n ih =>
    intro s s' σ1 hinst
    have hpool : σ1.pool = σ.pool := by
      obtain ⟨⟨s1, machine⟩, -, hinst⟩ := bind_ok hinst
      cases hinst
      rfl
    have hcheck : checkWp frames σ1.machine σ1.pool σ1.exprState = .ok (false, σ1.pool, σ1.exprState) := by
      unfold checkWp
      rw [hpool, h]
      rfl
    refine ⟨fun triggered pool exprState heq => ?_, fun σ2 heq _ => ih ?_⟩
    · rw [hcheck] at heq
      cases heq
      rfl
    · unfold traceAndDifftest at heq
      rw [hcheck] at heq
      cases heq
      exact (congrArg WpPool.head hpool).trans h

/-- Two parts of a run without watchpoints, the first of one instruction. -/
theorem cpuExec_add_three : (cpuExec 32 1 (.init (oneInst 0x00500013 1)) >>= fun σ1 => cpuExec 32 2 σ1) =
    cpuExec 32 3 (.init (oneInst 0x00500013 1)) := by
  refine (cpuExec_add 32 (.init (oneInst 0x00500013 1))).1 1 2 (by decide) fun σ0 h0 => untriggered_of_head ?_
  cases h0
  rfl

end Nemu
