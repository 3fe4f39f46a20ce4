import Rv32i.Nemu.Ended
import Rv32i.Nemu.Sdb.CmdW

/-!
# Watchpoints over whole runs

* `Tracked frames c hs fs` — the pool of a configuration has the lists `hs` and `fs`, the expressions of the active
  watchpoints are accepted, and their last values are current, but for right behind an instruction;
* `Tracked.step`, `tracked_run` — every step keeps it, so it holds in every configuration of every run;
* `checkWp_run` — what `check_wp` therefore reports, on any machine and behind an instruction;
* `cmdW_settles_iff` — when `cmd_w` returns, on every pool that a run leads to.
-/

namespace Nemu

open Rv32 Relation

variable {frames : ℕ} {c c' : Config} {σ σ' : Emulator} {hs fs : List (Fin nrWp)}

structure Tracked (frames : ℕ) (c : Config) (hs fs : List (Fin nrWp)) : Prop where
  watched : Watched frames c.emulator.pool hs fs
  sync : (∀ n s, c.control ≠ .executed n s) → InSync frames c.emulator.machine c.emulator.pool hs

/-- The start of a run. -/
theorem tracked_init (m : Machine) : Tracked frames ⟨.prompt, .init m⟩ [] (List.finRange nrWp) where
  watched :=
    { lists := initWpPool_lists _
      short := fun _ h => by cases h
      accepts := fun _ h => by cases h }
  sync := fun _ _ h => by cases h

/-- With the same pool and the same guest, whatever was in sync is so. -/
theorem Tracked.of_same (h : Tracked frames c hs fs) (hc : ∀ n s, c.control ≠ .executed n s)
    (hpool : c'.emulator.pool = c.emulator.pool) (hguest : SameGuest c.emulator.machine c'.emulator.machine) :
    Tracked frames c' hs fs where
  watched := by rw [hpool]; exact h.watched
  sync := fun _ => by rw [hpool]; exact (h.sync hc).same h.watched hguest

/-! ## The commands -/

section Commands

variable {args : Option (List Char)} {code : ℤ}

theorem cmdX_pool (h : cmdX frames args σ = .ok (code, σ')) : σ'.pool = σ.pool := by
  obtain ⟨rfl, d, rfl⟩ := cmdX_ok h
  rfl

theorem cmdP_pool (h : cmdP frames args σ = .ok (code, σ')) : σ'.pool = σ.pool := by
  cases args with
  | none =>
    cases h
    rfl
  | some args =>
    obtain ⟨⟨val, success, exprState⟩, -, h⟩ := bind_ok h
    cases h
    rfl

/-- A new watchpoint is accepted and current. -/
theorem tracked_cmdW (h : Tracked frames ⟨.prompt, σ⟩ hs fs) (hok : cmdW frames args σ = .ok (code, σ')) :
    ∃ hs' fs', Tracked frames ⟨.prompt, σ'⟩ hs' fs' := by
  cases args with
  | none =>
    cases hok
    exact ⟨hs, fs, h⟩
  | some e =>
    have hsync := h.sync nofun
    obtain ⟨i, fs', v, d', rfl, hlen, hv, -, rfl⟩ := cmdW_inv h.watched.lists hok
    exact ⟨i :: hs, fs', h.watched.activate hlen hv.accepts, fun _ => hsync.activate h.watched.lists hv⟩

/-- The watchpoints that `cmd_d` leaves are as they were. -/
theorem tracked_cmdD (h : Tracked frames ⟨.prompt, σ⟩ hs fs) (hok : cmdD frames args σ = .ok (code, σ')) :
    ∃ hs' fs', Tracked frames ⟨.prompt, σ'⟩ hs' fs' := by
  cases args with
  | none =>
    cases hok
    exact ⟨hs, fs, h⟩
  | some e =>
    obtain ⟨pool, hfree, hok⟩ := bind_ok hok
    cases hok
    obtain ⟨p', hok, hsame, hin, hout⟩ := freeWp_lists h.watched.lists (atoi e).toInt
    rw [hfree] at hok
    cases hok
    by_cases hn : ∃ i ∈ hs, (i.val : ℤ) = (atoi e).toInt
    · obtain ⟨i, hi, hin'⟩ := hn
      have hmem : ∀ j ∈ hs.erase i, j ∈ hs := fun j hj => List.mem_of_mem_erase hj
      refine ⟨hs.erase i, i :: fs, ⟨hin i hi hin', fun j hj => ?_, fun j hj => ?_⟩, fun _ j hj => ?_⟩
      · exact (hsame j).2.1.symm ▸ h.watched.short j (hmem j hj)
      · exact (hsame j).2.1.symm ▸ h.watched.accepts j (hmem j hj)
      · show Values frames σ.machine (pool.wpPool j).str (pool.wpPool j).lastValue
        rw [(hsame j).2.1, (hsame j).2.2]
        exact h.sync nofun j (hmem j hj)
    · have hpool := hout fun i hi hin' => hn ⟨i, hi, hin'⟩
      subst hpool
      exact ⟨hs, fs, h.of_same nofun rfl ⟨rfl, rfl⟩⟩

theorem tracked_inspecting (h : Tracked frames ⟨.prompt, σ⟩ hs fs) {cmd : Handler} (hcmd : cmd ∈ inspecting)
    (hok : cmd frames args σ = .ok (code, σ')) : ∃ hs' fs', Tracked frames ⟨.prompt, σ'⟩ hs' fs' := by
  have hmachine : σ'.machine = σ.machine := congrArg Prod.fst (inspecting_keeps hcmd hok).2
  have hsame : σ'.pool = σ.pool → ∃ hs' fs', Tracked frames ⟨.prompt, σ'⟩ hs' fs' := fun hpool =>
    ⟨hs, fs, h.of_same nofun hpool ⟨by rw [hmachine], by rw [hmachine]⟩⟩
  simp only [inspecting, List.mem_cons, List.not_mem_nil, or_false] at hcmd
  rcases hcmd with rfl | rfl | rfl | rfl | rfl | rfl
  · cases hok
    exact hsame rfl
  · cases hok
    exact hsame rfl
  · exact hsame (cmdX_pool hok)
  · exact hsame (cmdP_pool hok)
  · exact tracked_cmdW h hok
  · exact tracked_cmdD h hok

end Commands

/-! ## Steps and runs -/

theorem cpuExecBegin_same (h : cpuExecBegin σ = some σ') :
    σ'.pool = σ.pool ∧ SameGuest σ.machine σ'.machine := by
  unfold cpuExecBegin at h
  split at h <;> cases h
  exact ⟨rfl, rfl, rfl⟩

theorem cpuExecFinish_same (σ : Emulator) :
    (cpuExecFinish σ).pool = σ.pool ∧ SameGuest σ.machine (cpuExecFinish σ).machine := by
  unfold cpuExecFinish
  split <;> exact ⟨rfl, rfl, rfl⟩

theorem executeInst_pool {s s' : Decode} (h : executeInst s σ = .ok (s', σ')) : σ'.pool = σ.pool := by
  obtain ⟨⟨s1, machine⟩, -, h⟩ := bind_ok h
  cases h
  rfl

/-- What `trace_and_difftest` does on a pool with accepted expressions. -/
theorem traceAndDifftest_eq (h : Watched frames σ.pool hs fs) :
    ∃ val exprState, (∀ i ∈ hs, Values frames σ.machine (σ.pool.wpPool i).str (val i)) ∧
      traceAndDifftest frames σ = .ok
        (if ∃ i ∈ hs, val i ≠ (σ.pool.wpPool i).lastValue then
          { σ with pool := σ.pool.refresh hs val, exprState }.setState .stop
        else { σ with pool := σ.pool.refresh hs val, exprState }) := by
  obtain ⟨val, d', hval, hcheck⟩ := checkWp_eq h σ.machine σ.exprState
  refine ⟨val, d', hval, ?_⟩
  simp only [traceAndDifftest, bind, Except.bind, hcheck, decide_eq_true_eq]
  rfl

/-- **A step keeps the watchpoints accepted and current.** -/
theorem Tracked.step (h : Tracked frames c hs fs) (hstep : Step frames c c') :
    ∃ hs' fs', Tracked frames c' hs' fs' := by
  cases hstep with
  | inspect hmem hok => exact tracked_inspecting h hmem hok
  | quit => exact ⟨hs, fs, h.of_same nofun rfl ⟨rfl, rfl⟩⟩
  | eof => exact ⟨hs, fs, h.of_same nofun rfl ⟨rfl, rfl⟩⟩
  | refuse _ => exact ⟨hs, fs, h⟩
  | call hbegin => exact ⟨hs, fs, h.of_same nofun (cpuExecBegin_same hbegin).1 (cpuExecBegin_same hbegin).2⟩
  | leave => exact ⟨hs, fs, h.of_same nofun (cpuExecFinish_same _).1 (cpuExecFinish_same _).2⟩
  | execute hinst =>
    refine ⟨hs, fs, ?_, fun hc => absurd rfl (hc _ _)⟩
    show Watched frames _ hs fs
    rw [executeInst_pool hinst]
    exact h.watched
  | check hcheck =>
    obtain ⟨val, d', hval, heq⟩ := traceAndDifftest_eq h.watched
    have hsync := inSync_refresh hval
    have hwatched := h.watched.refresh val
    rw [hcheck] at heq
    refine ⟨hs, fs, ?_, fun _ => ?_⟩ <;> rw [Except.ok.inj heq]
    · split <;> exact hwatched
    · split
      · exact hsync.same hwatched ⟨rfl, rfl⟩
      · exact hsync
  | stop _ => exact ⟨hs, fs, h.of_same nofun (cpuExecFinish_same _).1 (cpuExecFinish_same _).2⟩
  | again _ => exact ⟨hs, fs, h.of_same nofun rfl ⟨rfl, rfl⟩⟩

/-- Every configuration of every run is tracked. -/
theorem tracked_run {m : Machine} (hrun : ReflTransGen (Step frames) ⟨.prompt, .init m⟩ c) :
    ∃ hs fs, Tracked frames c hs fs := by
  induction hrun with
  | refl => exact ⟨_, _, tracked_init m⟩
  | tail _ hstep ih =>
    obtain ⟨hs, fs, h⟩ := ih
    exact h.step hstep

/-! ## What is reported -/

/-- Some watched value is different on two machines. -/
def Changes (frames : ℕ) (p : WpPool) (hs : List (Fin nrWp)) (m m' : Machine) : Prop :=
  ∃ i ∈ hs, ∃ v v', Values frames m (p.wpPool i).str v ∧ Values frames m' (p.wpPool i).str v' ∧ v ≠ v'

/-- Behind an instruction, the check reports a change that the instruction has made. -/
theorem check_reports (h : Tracked frames ⟨.loop (n + 1) s, σ⟩ hs fs) {s' : Decode}
    (hinst : executeInst s σ = .ok (s', σ')) :
    ∃ triggered p' d', checkWp frames σ'.machine σ'.pool σ'.exprState = .ok (triggered, p', d') ∧
      (triggered = true ↔ Changes frames σ.pool hs σ.machine σ'.machine) := by
  have hsync := h.sync nofun
  obtain ⟨val, d', hval, heq⟩ := checkWp_eq h.watched σ'.machine σ'.exprState
  rw [executeInst_pool hinst]
  refine ⟨_, _, d', heq, ?_⟩
  rw [decide_eq_true_eq]
  constructor
  · rintro ⟨i, hi, hne⟩
    exact ⟨i, hi, _, _, hsync i hi, hval i hi, hne.symm⟩
  · rintro ⟨i, hi, v, v', hv, hv', hne⟩
    refine ⟨i, hi, fun heq' => hne ?_⟩
    rw [hv.unique (hsync i hi), hv'.unique (hval i hi), heq']

/-- **What `check_wp` does in every run**: on every machine it returns, reports whether some value is not the last
one, and leaves every active watchpoint with its value and everything else as it was; and behind an instruction it
reports exactly whether the instruction has changed a watched value. -/
theorem checkWp_run {m : Machine} (hrun : ReflTransGen (Step frames) ⟨.prompt, .init m⟩ c) :
    ∃ hs fs, c.emulator.pool.Lists hs fs ∧
      (∀ m' d, ∃ val d', (∀ i ∈ hs, Values frames m' (c.emulator.pool.wpPool i).str (val i)) ∧
        checkWp frames m' c.emulator.pool d =
          .ok (decide (∃ i ∈ hs, val i ≠ (c.emulator.pool.wpPool i).lastValue), c.emulator.pool.refresh hs val, d')) ∧
      (∀ n s s' σ', c.control = .loop (n + 1) s → executeInst s c.emulator = .ok (s', σ') →
        ∃ triggered p' d', checkWp frames σ'.machine σ'.pool σ'.exprState = .ok (triggered, p', d') ∧
          (triggered = true ↔ Changes frames c.emulator.pool hs c.emulator.machine σ'.machine)) := by
  obtain ⟨hs, fs, h⟩ := tracked_run hrun
  refine ⟨hs, fs, h.watched.lists, fun m' d => checkWp_eq h.watched m' d, fun n s s' σ' hc hinst => ?_⟩
  obtain ⟨control, σ⟩ := c
  cases hc
  exact check_reports h hinst

/-- After `w $pc` and at the start of `si`, before an `addi`: the check returns on any machine, and it reports the change
of `pc` that the `addi` makes. -/
theorem checkWp_run_pc : ∃ σ hs fs,
    ReflTransGen (Step 32) ⟨.prompt, .init (oneInst 0x00500513 0)⟩ ⟨.loop 1 .unset, σ⟩ ∧ σ.pool.Lists hs fs ∧
    (∀ m d, ∃ val d', (∀ i ∈ hs, Values 32 m (σ.pool.wpPool i).str (val i)) ∧ checkWp 32 m σ.pool d =
      .ok (decide (∃ i ∈ hs, val i ≠ (σ.pool.wpPool i).lastValue), σ.pool.refresh hs val, d')) ∧
    ∃ s' σ' p' d', executeInst .unset σ = .ok (s', σ') ∧
      checkWp 32 σ'.machine σ'.pool σ'.exprState = .ok (true, p', d') ∧ Changes 32 σ.pool hs σ.machine σ'.machine := by
  have hsession : (cmdW 32 (some ['$', 'p', 'c']) (.init (oneInst 0x00500513 0)) >>= fun r =>
      executeInst .unset (r.2.setState .running) >>= fun q =>
        checkWp 32 q.2.machine q.2.pool q.2.exprState >>= fun c => pure (r.1, c.1)) = (.ok (0, true) : Exec _) := by
    decide +kernel
  obtain ⟨⟨code, σ⟩, hw, hsession⟩ := bind_ok hsession
  obtain ⟨⟨s', σ'⟩, hinst, hsession⟩ := bind_ok hsession
  obtain ⟨⟨triggered, p', d'⟩, hcheck, hsession⟩ := bind_ok hsession
  cases hsession
  have hmem : cmdW ∈ inspecting := by simp [inspecting]
  have hbegin : cpuExecBegin σ = some (σ.setState .running) := by
    have hmachine : σ.machine = (Emulator.init (oneInst 0x00500513 0)).machine :=
      congrArg Prod.fst (inspecting_keeps hmem hw).2
    unfold cpuExecBegin Emulator.state
    rw [hmachine]
    rfl
  have hrun : ReflTransGen (Step 32) ⟨.prompt, .init (oneInst 0x00500513 0)⟩ ⟨.loop 1 .unset, σ.setState .running⟩ :=
    .head (.inspect hmem hw) (.single (.call hbegin))
  obtain ⟨hs, fs, hlists, hany, hnext⟩ := checkWp_run hrun
  obtain ⟨triggered, p, d, hcheck', hiff⟩ := hnext 0 .unset s' σ' rfl hinst
  rw [hcheck] at hcheck'
  cases hcheck'
  exact ⟨σ.setState .running, hs, fs, hrun, hlists, hany, s', σ', p', d', hinst, hcheck, hiff.mp rfl⟩

/-! ## `cmd_w` -/

/-- **When `cmd_w` returns with one more watchpoint or an unchanged pool**: exactly if there is no argument, or some
node is free, the argument fits into `str`, and `expr` accepts it. -/
theorem cmdW_settles_iff {m : Machine} (hrun : ReflTransGen (Step frames) ⟨.prompt, .init m⟩ c)
    (args : Option (List Char)) :
    ∃ hs fs, c.emulator.pool.Lists hs fs ∧ (Settles frames args c.emulator hs fs ↔
      ∀ e, args = some e → hs.length ≠ nrWp ∧ e.length ≤ 31 ∧ Accepts frames e) := by
  obtain ⟨hs, fs, h⟩ := tracked_run hrun
  exact ⟨hs, fs, h.watched.lists, settles_iff h.watched.lists args⟩

/-- `w $pc` at the start. -/
theorem cmdW_settles_pc : ∃ hs fs, Settles 32 (some ['$', 'p', 'c']) (.init (oneInst 0 0)) hs fs := by
  have hexpr : (expr 32 (oneInst 0 0) ['$', 'p', 'c'] .init).map (fun r => (r.1, r.2.1)) =
      .ok (resetVector, true) := by decide +kernel
  obtain ⟨⟨v, success, d⟩, hexpr, hr⟩ := map_ok hexpr
  cases hr
  obtain ⟨hs, fs, hlists, hiff⟩ := @cmdW_settles_iff 32 _ (oneInst 0 0) .refl (some ['$', 'p', 'c'])
  refine ⟨hs, fs, hiff.mpr ?_⟩
  rintro e ⟨⟩
  have hempty : hs = [] := hlists.head.unique (initWpPool_lists .zero).head
  rw [hempty]
  exact ⟨by simp [nrWp], by simp, _, _, _, _, hexpr⟩

/-- A rejected string and one of 32 characters. -/
theorem cmdW_aborts : (¬ ∃ hs fs, Settles 32 (some ['!']) (.init (oneInst 0 0)) hs fs) ∧
    ¬ ∃ hs fs, Settles 32 (some (List.replicate 32 '1')) (.init (oneInst 0 0)) hs fs := by
  have hbad : (cmdW 32 (some ['!']) (.init (oneInst 0 0))).map Prod.fst = .error .assert := by decide +kernel
  have hlong : (cmdW 32 (some (List.replicate 32 '1')) (.init (oneInst 0 0))).map Prod.fst = .error .overrun := by
    decide +kernel
  constructor
  · rintro ⟨hs, fs, σ', hok, -⟩
    rw [hok] at hbad
    cases hbad
  · rintro ⟨hs, fs, σ', hok, -⟩
    rw [hok] at hlong
    cases hlong

end Nemu
