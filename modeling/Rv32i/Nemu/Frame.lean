import Rv32i.Nemu.Refine

/-!
# NEMU: what one instruction can change

* `Effect name o m m'` — what the body of an entry of that name may do to the machine: write `R(rd)`, make the
  store at `src1 + imm`, set `nemu_state`, or nothing;
* `table_effect` — every entry of the table keeps to the effect of its name;
* `isaExecOnce_cases` — a step that returns is the effect of the first entry that matches, then the reset of `$zero`;
* `reached_frame` — on every run from `restart`, `$zero` is zero and every step has its frame.
-/

namespace Nemu

open Rv32

variable {e : InstPat} {o : Operands} {s s' : Decode} {m m' : Machine}

/-! ## Effects of the bodies -/

/-- What an instruction may do to the machine before `$zero` is reset. -/
def Effect (name : Option Mnemonic) (o : Operands) (m m' : Machine) : Prop :=
  match name with
  | none => ∃ pc, m' = setNemuState m .abort pc (-1)
  | some op =>
    match op.kind with
    | .system => ∃ pc haltRet, m' = setNemuState m .end pc haltRet
    | .branch => m' = m
    | .store => ∃ v pmem, paddrWrite m.pmem (o.src1 + o.imm) op.width.bytes v = .ok pmem ∧ m' = { m with pmem }
    | _ => ∃ v, m' = m.setR o.rd v

/-- The kinds whose body is an assignment to `R(rd)`. -/
def WritesRd (op : Mnemonic) : Prop := op.kind ≠ .system ∧ op.kind ≠ .branch ∧ op.kind ≠ .store

instance (op : Mnemonic) : Decidable (WritesRd op) := by unfold WritesRd; infer_instance

/-- The body of an entry keeps to the effect of its name. -/
def InstPat.Effective (e : InstPat) : Prop :=
  ∀ o s m s' m', e.body o s m = .ok (s', m') → Effect e.name o m m'

theorem effect_setR {op : Mnemonic} (hop : WritesRd op) (v : Word) : Effect (some op) o m (m.setR o.rd v) := by
  obtain ⟨h1, h2, h3⟩ := hop
  unfold Effect
  cases hk : op.kind <;> simp_all

section Bodies

variable {p : String} {t : OpType} {op : Mnemonic}

theorem effective_wr {f : Operands → Decode → Word} (hop : WritesRd op) :
    InstPat.Effective ⟨p, some op, t, wr f⟩ := by
  intro o s m s' m' h
  cases h
  exact effect_setR hop _

theorem effective_wrDiv {undef : Word → Word → Bool} {f : Word → Word → Word} (hop : WritesRd op) :
    InstPat.Effective ⟨p, some op, t, wrDiv undef f⟩ := by
  intro o s m s' m' h
  simp only [wrDiv] at h
  split at h
  · cases h
  · cases h
    exact effect_setR hop _

theorem effective_ld {len : ℕ} {f : Word → Word} (hop : WritesRd op) :
    InstPat.Effective ⟨p, some op, t, ld len f⟩ := by
  intro o s m s' m' h
  simp only [ld] at h
  cases hr : vaddrRead m.pmem (o.src1 + o.imm) len with
  | error _ => rw [hr] at h; cases h
  | ok v =>
    rw [hr] at h
    cases h
    exact effect_setR hop _

theorem effective_jump {f g : Operands → Decode → Word} (hop : WritesRd op) :
    InstPat.Effective ⟨p, some op, t, fun o s m => .ok ({ s with dnpc := f o s }, m.setR o.rd (g o s))⟩ := by
  intro o s m s' m' h
  cases h
  exact effect_setR hop _

theorem effective_st {f : Word → Word} (hop : op.kind = .store) :
    InstPat.Effective ⟨p, some op, t, st op.width.bytes f⟩ := by
  intro o s m s' m' h
  simp only [st] at h
  cases hw : vaddrWrite m.pmem (o.src1 + o.imm) op.width.bytes (f o.src2) with
  | error _ => rw [hw] at h; cases h
  | ok pmem =>
    rw [hw] at h
    cases h
    unfold Effect
    simp only [hop]
    exact ⟨_, pmem, hw, rfl⟩

theorem effective_br {c : Word → Word → Bool} (hop : op.kind = .branch) :
    InstPat.Effective ⟨p, some op, t, br c⟩ := by
  intro o s m s' m' h
  cases h
  unfold Effect
  simp only [hop]

theorem effective_nemuTrap (hop : op.kind = .system) : InstPat.Effective ⟨p, some op, t, nemuTrap⟩ := by
  intro o s m s' m' h
  cases h
  unfold Effect
  simp only [hop]
  exact ⟨_, _, rfl⟩

theorem effective_invalidInst : InstPat.Effective ⟨p, none, t, invalidInst⟩ := by
  intro o s m s' m' h
  simp only [invalidInst] at h
  cases h1 : instFetch m.pmem s.pc 4 with
  | error _ => rw [h1] at h; cases h
  | ok w1 =>
    rw [h1] at h
    cases h2 : instFetch m.pmem w1.2 4 with
    | error _ => simp only [bind, Except.bind, h2] at h; cases h
    | ok w2 =>
      simp only [bind, Except.bind, h2] at h
      cases h
      exact ⟨_, rfl⟩

end Bodies

/-- **Every entry of the table keeps to the effect of its name.** -/
theorem table_effect : ∀ e ∈ instpatTable, e.Effective := by
  unfold instpatTable
  repeat' refine List.forall_mem_cons.mpr ⟨?_, ?_⟩
  all_goals first
    | exact effective_wr (by decide)
    | exact effective_ld (by decide)
    | exact effective_st rfl
    | exact effective_br rfl
    | exact effective_wrDiv (by decide)
    | exact effective_jump (by decide)
    | exact effective_nemuTrap rfl
    | exact effective_invalidInst
    | exact List.forall_mem_nil _

/-- The stores take their operands from an S-type word. -/
theorem table_store_type : ∀ e ∈ instpatTable, e.name.map Mnemonic.kind = some .store → e.type = .S := by
  decide

/-! ## The step -/

theorem firstMatch_hit {w : Word} (he : firstMatch w = some e) : e.hit w = true := by
  unfold firstMatch at he
  have := List.find?_some he
  exact this

theorem firstMatch_mem {w : Word} (he : firstMatch w = some e) : e ∈ instpatTable :=
  List.mem_of_find?_eq_some he

/-- A fetch that returns has read the word at the address. -/
theorem instFetch_ok {pc : Word} {p : Word × Word} (h : instFetch m.pmem pc 4 = .ok p) :
    p = (fetched m pc, pc + 4) := by
  by_cases hpc : inPmem pc = true
  · rw [instFetch_eq hpc] at h
    cases h
    rfl
  · unfold instFetch vaddrIfetch paddrRead at h
    rw [if_neg hpc] at h
    cases h

/-- **A step that returns is the effect of the entry that runs, then the reset of `$zero`.** -/
theorem isaExecOnce_cases (h : isaExecOnce s m = .ok (s', m')) :
    ∃ e m1, firstMatch (fetched m s.snpc) = some e ∧
      Effect e.name (decodeOperand ⟨s.pc, s.snpc + 4, s.snpc + 4, fetched m s.snpc⟩ m.cpu e.type) m m1 ∧
      m' = m1.setR 0 0 := by
  unfold isaExecOnce at h
  cases hf : instFetch m.pmem s.snpc 4 with
  | error _ => rw [hf] at h; cases h
  | ok w =>
    obtain rfl := instFetch_ok hf
    rw [hf] at h
    change decodeExec ⟨s.pc, s.snpc + 4, s.dnpc, fetched m s.snpc⟩ m = _ at h
    unfold decodeExec at h
    obtain ⟨e, he⟩ := firstMatch_isSome (fetched m s.snpc)
    rw [instpat_eq _ _ _ table_pat] at h
    have he' := he
    unfold firstMatch at he'
    simp only [he'] at h
    cases hb : e.body (decodeOperand ⟨s.pc, s.snpc + 4, s.snpc + 4, fetched m s.snpc⟩ m.cpu e.type)
        ⟨s.pc, s.snpc + 4, s.snpc + 4, fetched m s.snpc⟩ m with
    | error _ => simp only [bind, Except.bind, hb] at h; cases h
    | ok r =>
      simp only [bind, Except.bind, hb] at h
      cases h
      exact ⟨e, r.2, he, table_effect e (firstMatch_mem he) _ _ _ _ _ hb, rfl⟩

/-- An instruction leaves `nemu_state`, or ends or aborts the program. -/
theorem isaExecOnce_state (h : isaExecOnce s m = .ok (s', m')) :
    m'.nemuState = m.nemuState ∨ m'.nemuState.state = .end ∨ m'.nemuState.state = .abort := by
  obtain ⟨e, m1, -, heff, rfl⟩ := isaExecOnce_cases h
  show m1.nemuState = m.nemuState ∨ m1.nemuState.state = .end ∨ m1.nemuState.state = .abort
  cases hname : e.name with
  | none =>
    rw [hname] at heff
    obtain ⟨pc, rfl⟩ := heff
    exact .inr (.inr rfl)
  | some op =>
    unfold Effect at heff
    simp only [hname] at heff
    cases hk : op.kind with
    | system =>
      simp only [hk] at heff
      obtain ⟨pc, haltRet, rfl⟩ := heff
      exact .inr (.inl rfl)
    | branch =>
      simp only [hk] at heff
      subst heff
      exact .inl rfl
    | store =>
      simp only [hk] at heff
      obtain ⟨v, pmem, -, rfl⟩ := heff
      exact .inl rfl
    | compute | muldiv | jump | load =>
      simp only [hk] at heff
      obtain ⟨v, rfl⟩ := heff
      exact .inl rfl

/-! ## The frame of a step -/

/-- The byte at `a` is one of those the word `w` stores to. -/
def StoresTo (m : Machine) (w a : Word) : Prop :=
  ∃ op : Mnemonic, op.kind = .store ∧ Encodes op w ∧
    (a - (m.cpu.gpr (rs1 w) + Rv32.immS w)).toNat < op.width.bytes

/-- The word `w` took the machine from `m` to `m'` and touched nothing it is not meant to. -/
structure StepFrame (w : Word) (m m' : Machine) : Prop where
  zero : m'.cpu.gpr 0 = 0
  gpr : ∀ q, q ≠ rd w → m'.cpu.gpr q = m.cpu.gpr q
  pc : m'.cpu.pc = m.cpu.pc
  mem : ∀ a, ¬ StoresTo m w a → guestMem m'.pmem a = guestMem m.pmem a
  quiet : (∀ e ∈ namedTable, e.hit w = false) ∨ Encodes .ebreak w →
    m'.cpu.gpr = m.cpu.gpr ∧ m'.pmem = m.pmem

/-- A write inside `pmem` keeps every byte but the addressed ones. -/
theorem paddrWrite_frame {pmem pmem' : Pmem} {a v : Word} {n : Width}
    (h : paddrWrite pmem a n.bytes v = .ok pmem') (q : Word) (hq : ¬ (q - a).toNat < n.bytes) :
    guestMem pmem' q = guestMem pmem q := by
  by_cases ha : inPmem a = true
  · obtain ⟨pmem'', hok, hmem⟩ := paddrWrite_eq n v ha
    rw [hok] at h
    cases h
    rw [hmem]
    exact if_neg hq
  · unfold paddrWrite at h
    rw [if_neg ha] at h
    cases h

/-- The reset of slot 0 after a write to `rd`. -/
theorem setR_setR_gpr (h0 : m.cpu.gpr 0 = 0) (r : RegIdx) (v : Word) (q : RegIdx) (hq : q ≠ r) :
    ((m.setR r v).setR 0 0).cpu.gpr q = m.cpu.gpr q := by
  rw [setR_zero_gpr h0, set_ne _ hq]

/-- An entry that matches an `ebreak` or the last entry writes neither a register nor memory. -/
theorem quiet_name {w : Word} (he : firstMatch w = some e)
    (hq : (∀ e ∈ namedTable, e.hit w = false) ∨ Encodes .ebreak w) :
    e.name = none ∨ e.name = some .ebreak := by
  have hhit : e.hit w = true := firstMatch_hit he
  have hmem : e ∈ instpatTable := firstMatch_mem he
  rcases hq with hno | heb
  · rw [table_eq, List.mem_append, List.mem_singleton] at hmem
    rcases hmem with h | rfl
    · rw [hno e h] at hhit
      exact absurd hhit (by simp)
    · exact .inl rfl
  · have := (firstMatch_name_iff w .ebreak (by decide)).mpr heb
    rw [he] at this
    exact .inr (Option.some.inj this)

/-- **One step from a state with `$zero` zero keeps its frame.** -/
theorem isaExecOnce_frame (h0 : m.cpu.gpr 0 = 0) (h : isaExecOnce s m = .ok (s', m')) :
    StepFrame (fetched m s.snpc) m m' := by
  obtain ⟨e, m1, he, heff, rfl⟩ := isaExecOnce_cases h
  have hmem : e ∈ instpatTable := firstMatch_mem he
  have hhit : e.hit (fetched m s.snpc) = true := firstMatch_hit he
  rw [decodeOperand_eq] at heff
  have hnemu : ∀ nemuState, StepFrame (fetched m s.snpc) m (Machine.setR { m with nemuState } 0 0) := fun _ =>
    { zero := rfl
      gpr := fun q _ => congrFun (setR_zero_self h0) q
      pc := rfl
      mem := fun _ _ => rfl
      quiet := fun _ => ⟨setR_zero_self h0, rfl⟩ }
  cases hname : e.name with
  | none =>
    rw [hname] at heff
    obtain ⟨pc, rfl⟩ := heff
    exact hnemu _
  | some op =>
    have henc : Encodes op (fetched m s.snpc) := (hit_name_iff hmem hname _).mp hhit
    have hloud : op.kind ≠ .system → ¬ ((∀ e ∈ namedTable, e.hit (fetched m s.snpc) = false) ∨
        Encodes .ebreak (fetched m s.snpc)) := by
      intro hk hq
      rcases quiet_name he hq with hn | hn
      · rw [hname] at hn; cases hn
      · rw [hname] at hn; cases hn; exact hk rfl
    have hreg : ∀ v, op.kind ≠ .system → StepFrame (fetched m s.snpc) m
        ((m.setR (rd (fetched m s.snpc)) v).setR 0 0) := fun v hk =>
      { zero := rfl
        gpr := setR_setR_gpr h0 _ v
        pc := rfl
        mem := fun _ _ => rfl
        quiet := fun hq => absurd hq (hloud hk) }
    unfold Effect at heff
    simp only [hname] at heff
    cases hk : op.kind with
    | system =>
      simp only [hk] at heff
      obtain ⟨pc, haltRet, rfl⟩ := heff
      exact hnemu _
    | branch =>
      simp only [hk] at heff
      subst heff
      exact hnemu m1.nemuState
    | store =>
      simp only [hk] at heff
      obtain ⟨v, pmem, hw, rfl⟩ := heff
      have ht : e.type = .S := table_store_type e hmem (by rw [hname]; exact congrArg some hk)
      rw [ht] at hw
      exact
        { zero := rfl
          gpr := fun q _ => congrFun (setR_zero_self h0) q
          pc := rfl
          mem := fun a ha => paddrWrite_frame hw a fun hlt => ha ⟨op, hk, henc, hlt⟩
          quiet := fun hq => absurd hq (hloud (by rw [hk]; decide)) }
    | compute | muldiv | jump | load =>
      simp only [hk] at heff
      obtain ⟨v, rfl⟩ := heff
      exact hreg v (by rw [hk]; decide)

/-! ## Runs -/

/-- A machine that `restart` and steps of `isa_exec_once` lead to; between two steps `exec_once` sets `cpu.pc`
and `cpu_exec` sets `nemu_state`. -/
inductive Reached : Machine → Prop
  | restart (m : Machine) : Reached (restart m)
  | step {s s' : Decode} {m m' : Machine} (hm : Reached m) (h : isaExecOnce s m = .ok (s', m')) : Reached m'
  | between {m : Machine} (hm : Reached m) (pc : Word) (nemuState : NEMUState) :
      Reached { m with cpu.pc := pc, nemuState }

theorem Reached.zero (hm : Reached m) : m.cpu.gpr 0 = 0 := by
  induction hm with
  | restart m => rfl
  | step hm h ih => exact (isaExecOnce_frame ih h).zero
  | between hm pc ns ih => exact ih

/-- **On every run `$zero` is zero, and every step changes at most `rd`, the stored bytes and `nemu_state`.** -/
theorem reached_frame (hm : Reached m) :
    m.cpu.gpr 0 = 0 ∧
      ∀ s s' m', isaExecOnce s m = .ok (s', m') → StepFrame (fetched m s.snpc) m m' :=
  ⟨hm.zero, fun _ _ _ h => isaExecOnce_frame hm.zero h⟩

/-- After `addi x0, x0, 5`, whose body writes slot 0. -/
theorem reached_addi_zero :
    ∃ s' m', isaExecOnce atReset (oneInst 0x00500013 1) = .ok (s', m') ∧ m'.cpu.gpr 0 = 0 := by
  have h := @isaExecOnce_wr .addi atReset (oneInst 0x00500013 1) _ _ _ rfl ⟨rfl, by decide, rfl, by decide⟩
  exact ⟨_, _, h, (reached_frame (.step (.restart _) h)).1⟩

end Nemu
