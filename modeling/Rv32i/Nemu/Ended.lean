import Rv32i.Nemu.Refine
import Rv32i.Nemu.Sdb.Command

/-!
# The end of a guest program

The emulator under the debugger as a machine with small steps (`Step`): a step at the prompt, or one
statement of `cpu_exec`.  Every run of `sdb_mainloop` is a run of it (`sdbMainloop_reaches`).

An instruction that ends the guest program is final unless a watchpoint triggers on it
(`ended_stays_iff`).
-/

namespace Nemu

open Rv32 Relation

/-! ## Small steps -/

/-- Where the emulator is. -/
inductive Control
  /-- `sdb_mainloop` waits for a line. -/
  | prompt
  /-- `execute` tests `n > 0`. -/
  | loop (n : ℕ) (s : Decode)
  /-- An instruction has been executed and counted. -/
  | executed (n : ℕ) (s : Decode)
  /-- `trace_and_difftest` has returned. -/
  | checked (n : ℕ) (s : Decode)
  /-- `sdb_mainloop` has returned. -/
  | exited

structure Config where
  control : Control
  emulator : Emulator

/-- The commands that do not call `cpu_exec`, but for `q`. -/
def inspecting : List Handler := [cmdHelp, cmdInfo, cmdX, cmdP, cmdW, cmdD]

/-- A step of the emulator.  At the prompt, any of the commands may be next. -/
inductive Step (frames : ℕ) : Config → Config → Prop
  | inspect {h args σ σ'} : h ∈ inspecting → h frames args σ = .ok (0, σ') → Step frames ⟨.prompt, σ⟩ ⟨.prompt, σ'⟩
  | quit {σ} : Step frames ⟨.prompt, σ⟩ ⟨.exited, σ.setState .quit⟩
  | eof {σ} : Step frames ⟨.prompt, σ⟩ ⟨.exited, σ⟩
  | refuse {σ} : cpuExecBegin σ = none → Step frames ⟨.prompt, σ⟩ ⟨.prompt, σ⟩
  | call {n s σ σ'} : cpuExecBegin σ = some σ' → Step frames ⟨.prompt, σ⟩ ⟨.loop n s, σ'⟩
  | leave {s σ} : Step frames ⟨.loop 0 s, σ⟩ ⟨.prompt, cpuExecFinish σ⟩
  | execute {n s s' σ σ'} : executeInst s σ = .ok (s', σ') → Step frames ⟨.loop (n + 1) s, σ⟩ ⟨.executed n s', σ'⟩
  | check {n s σ σ'} : traceAndDifftest frames σ = .ok σ' → Step frames ⟨.executed n s, σ⟩ ⟨.checked n s, σ'⟩
  | stop {n s σ} : σ.state ≠ .running → Step frames ⟨.checked n s, σ⟩ ⟨.prompt, cpuExecFinish σ⟩
  | again {n s σ} : σ.state = .running → Step frames ⟨.checked n s, σ⟩ ⟨.loop n s, σ⟩

variable {frames : ℕ}

/-- A run of `execute` and what `cpu_exec` does behind it. -/
theorem execute_reaches {n : ℕ} {s : Decode} {σ σ' : Emulator} (h : execute frames n s σ = .ok σ') :
    ReflTransGen (Step frames) ⟨.loop n s, σ⟩ ⟨.prompt, cpuExecFinish σ'⟩ := by
  induction n generalizing s σ with
  | zero =>
    cases h
    exact .single .leave
  | succ n ih =>
    obtain ⟨⟨s1, σ1⟩, hinst, h⟩ := bind_ok h
    obtain ⟨σ2, hcheck, h⟩ := bind_ok h
    refine .head (.execute hinst) (.head (.check hcheck) ?_)
    by_cases hstate : σ2.state = .running
    · rw [if_neg (not_not.mpr hstate)] at h
      exact .head (.again hstate) (ih h)
    · rw [if_pos hstate] at h
      cases h
      exact .single (.stop hstate)

theorem cpuExec_reaches {n : BitVec 64} {σ σ' : Emulator} (h : cpuExec frames n σ = .ok σ') :
    ReflTransGen (Step frames) ⟨.prompt, σ⟩ ⟨.prompt, σ'⟩ := by
  unfold cpuExec at h
  cases hbegin : cpuExecBegin σ with
  | none =>
    rw [hbegin] at h
    cases h
    exact .single (.refuse hbegin)
  | some σ1 =>
    rw [hbegin] at h
    obtain ⟨σ2, hexec, h⟩ := bind_ok h
    cases h
    exact .head (.call hbegin) (execute_reaches hexec)

/-! ## The commands -/

/-- What the guest has: its machine and the number of its instructions. -/
def Emulator.guest (σ : Emulator) : Machine × BitVec 64 := (σ.machine, σ.gNrGuestInst)

section Inspecting

variable {args : Option (List Char)} {σ σ' : Emulator} {code : ℤ}

theorem cmdX_keeps (h : cmdX frames args σ = .ok (code, σ')) : code = 0 ∧ σ'.guest = σ.guest := by
  obtain ⟨rfl, d, rfl⟩ := cmdX_ok h
  exact ⟨rfl, rfl⟩

theorem cmdP_keeps (h : cmdP frames args σ = .ok (code, σ')) : code = 0 ∧ σ'.guest = σ.guest := by
  cases args with
  | none =>
    cases h
    exact ⟨rfl, rfl⟩
  | some args =>
    obtain ⟨⟨val, success, exprState⟩, -, h⟩ := bind_ok h
    cases h
    exact ⟨rfl, rfl⟩

theorem cmdW_keeps (h : cmdW frames args σ = .ok (code, σ')) : code = 0 ∧ σ'.guest = σ.guest := by
  cases args with
  | none =>
    cases h
    exact ⟨rfl, rfl⟩
  | some args =>
    unfold cmdW at h
    simp only [] at h
    split at h
    · cases h
    · split at h
      · cases h
      · obtain ⟨⟨val, success, exprState⟩, -, h⟩ := bind_ok h
        cases success with
        | false => cases h
        | true =>
          cases h
          exact ⟨rfl, rfl⟩

theorem cmdD_keeps (h : cmdD frames args σ = .ok (code, σ')) : code = 0 ∧ σ'.guest = σ.guest := by
  cases args with
  | none =>
    cases h
    exact ⟨rfl, rfl⟩
  | some args =>
    obtain ⟨pool, -, h⟩ := bind_ok h
    cases h
    exact ⟨rfl, rfl⟩

/-- The inspecting commands leave the guest as it is. -/
theorem inspecting_keeps {h : Handler} (hh : h ∈ inspecting) (heq : h frames args σ = .ok (code, σ')) :
    code = 0 ∧ σ'.guest = σ.guest := by
  simp only [inspecting, List.mem_cons, List.not_mem_nil, or_false] at hh
  rcases hh with rfl | rfl | rfl | rfl | rfl | rfl
  · cases heq
    exact ⟨rfl, rfl⟩
  · cases heq
    exact ⟨rfl, rfl⟩
  · exact cmdX_keeps heq
  · exact cmdP_keeps heq
  · exact cmdW_keeps heq
  · exact cmdD_keeps heq

end Inspecting

theorem cmdC_reaches {args : Option (List Char)} {σ σ' : Emulator} {code : ℤ}
    (h : cmdC frames args σ = .ok (code, σ')) :
    code = 0 ∧ ReflTransGen (Step frames) ⟨.prompt, σ⟩ ⟨.prompt, σ'⟩ := by
  obtain ⟨σ1, hexec, h⟩ := bind_ok h
  cases h
  exact ⟨rfl, cpuExec_reaches hexec⟩

theorem cmdSi_reaches {args : Option (List Char)} {σ σ' : Emulator} {code : ℤ}
    (h : cmdSi frames args σ = .ok (code, σ')) :
    code = 0 ∧ ReflTransGen (Step frames) ⟨.prompt, σ⟩ ⟨.prompt, σ'⟩ := by
  obtain ⟨σ1, hexec, h⟩ := bind_ok h
  cases h
  exact ⟨rfl, cpuExec_reaches hexec⟩

/-- The handlers of the table. -/
theorem mem_cmdTable {cmd : List Char} {h : Handler} (hlookup : cmdTable.lookup cmd = some h) :
    h = cmdC ∨ h = cmdSi ∨ h = cmdQ ∨ h ∈ inspecting := by
  obtain ⟨l₁, l₂, htable, -⟩ := List.lookup_eq_some_iff.mp hlookup
  have hmem : (cmd, h) ∈ cmdTable := by
    rw [htable]
    simp
  simp only [cmdTable, List.mem_cons, List.not_mem_nil, or_false, Prod.mk.injEq] at hmem
  simp only [inspecting, List.mem_cons, List.not_mem_nil, or_false]
  tauto

/-- A line is a run back to the prompt, or out of the debugger. -/
theorem runLine_reaches {str : List Char} {σ σ' : Emulator} {code : ℤ}
    (h : runLine frames str σ = .ok (code, σ')) :
    (code = 0 ∧ ReflTransGen (Step frames) ⟨.prompt, σ⟩ ⟨.prompt, σ'⟩) ∨
      (code < 0 ∧ ReflTransGen (Step frames) ⟨.prompt, σ⟩ ⟨.exited, σ'⟩) := by
  unfold runLine at h
  split at h
  · cases h
    exact .inl ⟨rfl, .refl⟩
  simp only [] at h
  split at h
  · cases h
    exact .inl ⟨rfl, .refl⟩
  rename_i handler hlookup
  rcases mem_cmdTable hlookup with rfl | rfl | rfl | hmem
  · exact .inl (cmdC_reaches h)
  · exact .inl (cmdSi_reaches h)
  · cases h
    exact .inr ⟨by decide, .single .quit⟩
  · obtain ⟨rfl, -⟩ := inspecting_keeps hmem h
    exact .inl ⟨rfl, .single (.inspect hmem h)⟩

theorem sdbLoop_reaches {lines : List (List Char)} {σ σ' : Emulator} (h : sdbLoop frames lines σ = .ok σ') :
    ReflTransGen (Step frames) ⟨.prompt, σ⟩ ⟨.exited, σ'⟩ := by
  induction lines generalizing σ with
  | nil =>
    cases h
    exact .single .eof
  | cons str lines ih =>
    obtain ⟨⟨code, σ1⟩, hline, h⟩ := bind_ok h
    rcases runLine_reaches hline with ⟨rfl, hreach⟩ | ⟨hcode, hreach⟩
    · exact hreach.trans (ih h)
    · simp only [hcode, if_true] at h
      cases h
      exact hreach

/-- **A run of `sdb_mainloop` is a run of small steps.** -/
theorem sdbMainloop_reaches {isBatchMode : Bool} {lines : List (List Char)} {σ σ' : Emulator}
    (h : sdbMainloop frames isBatchMode lines σ = .ok σ') :
    ReflTransGen (Step frames) ⟨.prompt, σ⟩ ⟨.exited, σ'⟩ := by
  unfold sdbMainloop at h
  cases isBatchMode with
  | false => exact sdbLoop_reaches h
  | true =>
    obtain ⟨⟨code, σ1⟩, hc, h⟩ := bind_ok h
    cases h
    exact (cmdC_reaches hc).2.tail .eof

/-! ## After the end -/

/-- The guest program has ended. -/
def Emulator.Ended (σ : Emulator) : Prop := σ.state = .end ∨ σ.state = .abort

/-- In a later configuration the program is still ended, the guest is as it was, and no instruction is
about to be executed; `q` may have been given. -/
structure Kept (σ : Emulator) (c : Config) : Prop where
  cpu : c.emulator.machine.cpu = σ.machine.cpu
  pmem : c.emulator.machine.pmem = σ.machine.pmem
  gNrGuestInst : c.emulator.gNrGuestInst = σ.gNrGuestInst
  nemuState : c.emulator.machine.nemuState = σ.machine.nemuState ∨
    (c.control = .exited ∧ c.emulator.state = .quit)
  idle : ∀ n s, c.control ≠ .loop n s

/-- Evaluated in order, the expressions of the active watchpoints have their last values. -/
def Quiet (frames : ℕ) (σ : Emulator) : Prop :=
  ∀ ws vals, σ.pool.active = .ok ws → watchValues frames σ.machine ws σ.exprState = .ok vals →
    vals = ws.map WP.lastValue

/-- What `trace_and_difftest` does to the state. -/
theorem traceAndDifftest_cases {σ σ' : Emulator} (h : traceAndDifftest frames σ = .ok σ') :
    (Quiet frames σ ∧ σ'.guest = σ.guest) ∨ (¬ Quiet frames σ ∧ σ'.state = .stop) := by
  obtain ⟨⟨triggered, pool, exprState⟩, hcheck, h⟩ := bind_ok h
  obtain ⟨ws, vals, hws, hvals⟩ := checkWpLoop_returns (fun i => ⟨rfl, rfl⟩) hcheck
  obtain ⟨pool', exprState', heq⟩ := checkWpLoop_eq hws hvals
  unfold checkWp at hcheck
  rw [heq] at hcheck
  cases hcheck
  cases h
  by_cases hvals' : vals = ws.map WP.lastValue
  · refine .inl ⟨fun ws' vals' hws' hvals'' => ?_, ?_⟩
    · cases hws.symm.trans hws'
      cases hvals.symm.trans hvals''
      exact hvals'
    · simp only [hvals', ne_eq, not_true_eq_false, decide_false, Bool.false_eq_true, if_false]
      rfl
  · refine .inr ⟨fun hq => hvals' (hq ws vals hws hvals), ?_⟩
    simp only [ne_eq, hvals', not_false_eq_true, decide_true, if_true]
    rfl

/-- Unless the check is quiet, it returns and stops the emulator. -/
theorem traceAndDifftest_of_not_quiet {σ : Emulator} (h : ¬ Quiet frames σ) :
    ∃ σ', traceAndDifftest frames σ = .ok σ' ∧ σ'.state = .stop := by
  unfold Quiet at h
  push Not at h
  obtain ⟨ws, vals, hws, hvals, hne⟩ := h
  obtain ⟨pool', exprState', heq⟩ := checkWpLoop_eq hws hvals
  refine ⟨{ σ with pool := pool', exprState := exprState' }.setState .stop, ?_, rfl⟩
  unfold traceAndDifftest checkWp
  rw [heq]
  simp only [ne_eq, hne, not_false_eq_true, decide_true]
  rfl

/-- `cpu_exec` refuses an ended program, and its second `switch` changes nothing. -/
theorem Emulator.Ended.refuses {σ : Emulator} (h : σ.Ended) : cpuExecBegin σ = none ∧ cpuExecFinish σ = σ := by
  unfold cpuExecBegin cpuExecFinish
  rcases h with h | h
  · rw [h]
    exact ⟨rfl, rfl⟩
  · rw [h]
    exact ⟨rfl, rfl⟩

/-- Unless `sdb_mainloop` has returned, the program is ended. -/
theorem Kept.ended {σ τ : Emulator} {control : Control} (h : Kept σ ⟨control, τ⟩) (hended : σ.Ended)
    (hcontrol : control ≠ .exited) : τ.machine.nemuState = σ.machine.nemuState ∧ τ.Ended := by
  rcases h.nemuState with heq | ⟨hexit, -⟩
  · have hstate : τ.state = σ.state := congrArg NEMUState.state heq
    refine ⟨heq, ?_⟩
    unfold Emulator.Ended
    rw [hstate]
    exact hended
  · exact absurd hexit hcontrol

/-- With the same guest, the program is kept at any point but the loop of `execute`. -/
theorem Kept.of_guest {σ τ τ' : Emulator} {control control' : Control} (h : Kept σ ⟨control, τ⟩)
    (hended : σ.Ended) (hcontrol : control ≠ .exited) (hguest : τ'.guest = τ.guest)
    (hidle : ∀ n s, control' ≠ .loop n s) : Kept σ ⟨control', τ'⟩ := by
  obtain ⟨hmachine, hinst⟩ := Prod.mk.inj hguest
  have hstate := (h.ended hended hcontrol).1
  refine ⟨?_, ?_, hinst.trans h.gNrGuestInst, .inl ?_, hidle⟩
  · show τ'.machine.cpu = _
    rw [hmachine]
    exact h.cpu
  · show τ'.machine.pmem = _
    rw [hmachine]
    exact h.pmem
  · show τ'.machine.nemuState = _
    rw [hmachine]
    exact hstate

/-- **A step behind the check**: an ended program stays ended, and none of its instructions is executed. -/
theorem Kept.step {σ : Emulator} (hended : σ.Ended) {c c' : Config} (hc : Kept σ c)
    (hexec : ∀ n s, c.control ≠ .executed n s) (hstep : Step frames c c') :
    Kept σ c' ∧ ∀ n s, c'.control ≠ .executed n s := by
  cases hstep with
  | inspect hmem h =>
    exact ⟨hc.of_guest hended nofun (inspecting_keeps hmem h).2 nofun, nofun⟩
  | quit => exact ⟨⟨hc.cpu, hc.pmem, hc.gNrGuestInst, .inr ⟨rfl, rfl⟩, nofun⟩, nofun⟩
  | eof => exact ⟨hc.of_guest hended nofun rfl nofun, nofun⟩
  | refuse _ => exact ⟨hc, nofun⟩
  | call h =>
    -- `cpu_exec` returns early
    rw [(hc.ended hended nofun).2.refuses.1] at h
    cases h
  | leave => exact absurd rfl (hc.idle _ _)
  | execute _ => exact absurd rfl (hc.idle _ _)
  | check _ => exact absurd rfl (hexec _ _)
  | stop _ =>
    rw [(hc.ended hended nofun).2.refuses.2]
    exact ⟨hc.of_guest hended nofun rfl nofun, nofun⟩
  | again h =>
    rcases (hc.ended hended nofun).2 with h' | h'
    · rw [h] at h'
      cases h'
    · rw [h] at h'
      cases h'

/-- A run behind the check. -/
theorem Kept.run {σ : Emulator} (hended : σ.Ended) {c c' : Config} (hc : Kept σ c)
    (hexec : ∀ n s, c.control ≠ .executed n s) (hrun : ReflTransGen (Step frames) c c') : Kept σ c' := by
  have h : Kept σ c' ∧ ∀ n s, c'.control ≠ .executed n s := by
    induction hrun with
    | refl => exact ⟨hc, hexec⟩
    | tail _ hstep ih => exact ih.1.step hended ih.2 hstep
  exact h.1

/-! ### An `ebreak` behind `w` -/

/-- What an `ebreak` leaves. -/
def Emulator.afterEbreak (σ : Emulator) : Emulator where
  machine :=
    { (setNemuState σ.machine .end σ.machine.cpu.pc (σ.machine.cpu.gpr 10)).setR 0 0 with
      cpu.pc := σ.machine.cpu.pc + 4 }
  gNrGuestInst := σ.gNrGuestInst + 1
  pool := σ.pool
  exprState := σ.exprState

theorem executeInst_ebreak {s : Decode} {σ : Emulator}
    (h : Fetches .ebreak { s with pc := σ.machine.cpu.pc, snpc := σ.machine.cpu.pc } σ.machine) :
    ∃ s', executeInst s σ = .ok (s', σ.afterEbreak) := by
  unfold executeInst execOnce
  rw [isaExecOnce_eq rfl h]
  exact ⟨_, rfl⟩

/-- A session of `w` and an execution of the `ebreak` at the reset vector, up to the check of the watchpoints. -/
theorem reaches_ebreak {e : List Char} {active : Bool} {state : RunState}
    (hrun : (cmdW 32 (some e) (Emulator.init (oneInst 0x00100073 0)) >>= fun r =>
      traceAndDifftest 32 (r.2.setState .running).afterEbreak >>= fun σ' =>
        pure (r.1, r.2.pool.head.isSome, σ'.state)) = (.ok (0, active, state) : Exec _)) :
    ∃ s σ σ', ReflTransGen (Step 32) ⟨.prompt, Emulator.init (oneInst 0x00100073 0)⟩ ⟨.executed 0 s, σ⟩ ∧
      σ.state = .end ∧ σ.pool.head.isSome = active ∧ traceAndDifftest 32 σ = .ok σ' ∧ σ'.state = state := by
  obtain ⟨⟨code, σ1⟩, hw, hrun⟩ := bind_ok hrun
  obtain ⟨σ3, hcheck, hrun⟩ := bind_ok hrun
  obtain ⟨rfl, hrun⟩ := Prod.mk.inj (Except.ok.inj hrun)
  obtain ⟨hhead, hstate⟩ := Prod.mk.inj hrun
  have hmem : cmdW ∈ inspecting := by simp [inspecting]
  have hmachine : σ1.machine = (Emulator.init (oneInst 0x00100073 0)).machine :=
    congrArg Prod.fst (inspecting_keeps hmem hw).2
  have hbegin : cpuExecBegin σ1 = some (σ1.setState .running) := by
    unfold cpuExecBegin Emulator.state
    rw [hmachine]
    rfl
  have hrunning : (σ1.setState .running).machine =
      ((Emulator.init (oneInst 0x00100073 0)).setState .running).machine := by
    unfold Emulator.setState
    rw [hmachine]
  have hfetch : Fetches .ebreak
      { Decode.unset with
        pc := (σ1.setState .running).machine.cpu.pc
        snpc := (σ1.setState .running).machine.cpu.pc }
      (σ1.setState .running).machine := by
    rw [hrunning]
    exact ⟨rfl, by decide, rfl, by decide⟩
  obtain ⟨s, hinst⟩ := executeInst_ebreak hfetch
  exact ⟨s, _, σ3, .head (.inspect hmem hw) (.head (.call hbegin) (.single (.execute hinst))), rfl, hhead, hcheck, hstate⟩

/-! ### Results -/

/-- **An instruction that ends the program is final exactly if no watchpoint triggers on it**: from where it
has been executed on, in every run, the program stays ended and the guest as it is. -/
theorem ended_stays_iff {σ : Emulator} (hended : σ.Ended) (n : ℕ) (s : Decode) :
    (∀ c, ReflTransGen (Step frames) ⟨.executed n s, σ⟩ c → Kept σ c) ↔ Quiet frames σ := by
  have hstart : Kept σ ⟨.executed n s, σ⟩ := ⟨rfl, rfl, rfl, .inl rfl, nofun⟩
  constructor
  · intro h
    by_contra hquiet
    obtain ⟨σ', hcheck, hstop⟩ := traceAndDifftest_of_not_quiet hquiet
    have hkept := h ⟨.checked n s, σ'⟩ (.single (.check hcheck))
    rcases (hkept.ended hended nofun).2 with h' | h'
    · rw [hstop] at h'
      cases h'
    · rw [hstop] at h'
      cases h'
  · intro hquiet c hrun
    rcases ReflTransGen.cases_head hrun with rfl | ⟨c1, hstep, hrun⟩
    · exact hstart
    cases hstep with
    | check hcheck =>
      rcases traceAndDifftest_cases hcheck with ⟨-, hguest⟩ | ⟨hnot, -⟩
      · have hchecked : Kept σ ⟨.checked n s, _⟩ := hstart.of_guest hended nofun hguest nofun
        exact hchecked.run hended nofun hrun
      · exact absurd hquiet hnot

/-- After `w $a0`, an `ebreak` at the reset vector is final. -/
theorem ended_stays_watched : ∃ s σ,
    ReflTransGen (Step 32) ⟨.prompt, Emulator.init (oneInst 0x00100073 0)⟩ ⟨.executed 0 s, σ⟩ ∧ σ.state = .end ∧
      σ.pool.head.isSome = true ∧ ∀ c, ReflTransGen (Step 32) ⟨.executed 0 s, σ⟩ c → Kept σ c := by
  obtain ⟨s, σ, σ', hrun, hend, hhead, hcheck, hstate⟩ :=
    @reaches_ebreak ['$', 'a', '0'] true .end (by decide +kernel)
  refine ⟨s, σ, hrun, hend, hhead, (ended_stays_iff (.inl hend) 0 s).mpr ?_⟩
  by_contra hquiet
  obtain ⟨σ'', hcheck', hstop⟩ := traceAndDifftest_of_not_quiet hquiet
  rw [hcheck] at hcheck'
  cases hcheck'
  rw [hstate] at hstop
  cases hstop

/-- After `w $pc`, it leaves the emulator stopped instead of ended. -/
theorem ended_stops : ∃ n s σ c,
    ReflTransGen (Step 32) ⟨.prompt, Emulator.init (oneInst 0x00100073 0)⟩ ⟨.executed n s, σ⟩ ∧ σ.Ended ∧
      ReflTransGen (Step 32) ⟨.executed n s, σ⟩ c ∧ ¬ Kept σ c := by
  obtain ⟨s, σ, σ', hrun, hend, -, hcheck, hstop⟩ :=
    @reaches_ebreak ['$', 'p', 'c'] true .stop (by decide +kernel)
  refine ⟨0, s, σ, ⟨.checked 0 s, σ'⟩, hrun, .inl hend, .single (.check hcheck), fun hkept => ?_⟩
  rcases (hkept.ended (.inl hend) nofun).2 with h | h
  · rw [hstop] at h
    cases h
  · rw [hstop] at h
    cases h

end Nemu
