import Rv32i.Lib.Spin

/-!
# thread-os: threads on several processors

`am-kernels/kernels/thread-os/thread-os.c`: five threads that print under a lock, and the interrupt handler that switches
between them on every processor.  A step is one access of one processor to the shared memory, and an interrupt may come
before any step of a thread; the order in which the processors step is arbitrary.

* `next` — a step of a processor: of the thread it runs, or of `on_interrupt`;
* `follows` — **switching loses no thread and runs none twice**: every step is the next step of one thread, where it last
  stopped, or changes no thread;
* `mutual_exclusion` — **no two processors print at once**, whatever the order of steps and interrupts;
* `onInterrupt_switches` — **the handler goes round the threads of its processor**, and never returns on a processor that
  has none.
-/

namespace ThreadOs

open Spin (Point)

/-- `tasks + i`; `LENGTH(tasks)` is 5. -/
abbrev Task := Fin 5

/-- Where code was interrupted: in `mp_entry`, or at a point of `func`. -/
inductive Context
  | boot
  | thread (p : Point)
  deriving DecidableEq

/-- What a processor does: it runs with some context, or it is in `on_interrupt`: at its first statement, in the loop, or
behind it. -/
inductive Cpu
  | runs (ctx : Context)
  | entered (ctx : Context)
  | searching
  | leaving
  deriving DecidableEq

/-- `MAX_CPU` -/
def maxCpu : ℕ := 8

/-- The memory that the processors share, and what each of them does; there are `n = cpu_count()` of them, with a place in
`currents` for each. -/
structure State (n : ℕ) where
  cpu : Fin n → Cpu
  currents : Fin n → Option Task
  context : Task → Context
  locked : Bool
  fits : n ≤ maxCpu

variable {n : ℕ}

namespace State

def setCpu (s : State n) (c : Fin n) (x : Cpu) : State n := { s with cpu := Function.update s.cpu c x }

def setCurrent (s : State n) (c : Fin n) (t : Task) : State n :=
  { s with currents := Function.update s.currents c (some t) }

def setContext (s : State n) (t : Task) (ctx : Context) : State n :=
  { s with context := Function.update s.context t ctx }

/-- Every processor starts in `mp_entry`, and every thread in `func`. -/
def boot (hn : n ≤ maxCpu) : State n where
  cpu _ := .runs .boot
  currents _ := none
  context _ := .thread .lock
  locked := false
  fits := hn

end State

/-- `func`: `lock`, `printf` and `unlock`, the empty loop. -/
def func (s : State n) (c : Fin n) : Point → State n
  | .lock =>
    if s.locked then s.setCpu c (.runs (.thread .lock))
    else { s with locked := true }.setCpu c (.runs (.thread .critical))
  | .critical => { s with locked := false }.setCpu c (.runs (.thread .delay))
  | .delay => s.setCpu c (.runs (.thread .lock))

/-- The first statement of `on_interrupt`. -/
def enter (s : State n) (c : Fin n) (ctx : Context) : State n :=
  match s.currents c with
  | none => s.setCurrent c 0
  | some t => s.setContext t ctx

/-- A pass of the loop, and its test. -/
def pass (s : State n) (c : Fin n) (t : Task) : State n :=
  (s.setCurrent c (t + 1)).setCpu c (if (t + 1).val % n = c.val then .leaving else .searching)

/-- A step of a processor; `irq` is an interrupt, which the handler does not see. -/
def next (s : State n) (c : Fin n) (irq : Bool) : State n :=
  match s.cpu c with
  | .runs ctx =>
    if irq then s.setCpu c (.entered ctx)
    else
      match ctx with
      | .boot => s
      | .thread p => func s c p
  | .entered ctx => (enter s c ctx).setCpu c .searching
  | .searching =>
    match s.currents c with
    | none => s
    | some t => pass s c t
  | .leaving =>
    match s.currents c with
    | none => s
    | some t => s.setCpu c (.runs (s.context t))

def run (s : State n) (as : List (Fin n × Bool)) : State n := as.foldl (fun s a => next s a.1 a.2) s

/-! ## Threads -/

/-- The code that a processor runs or has interrupted. -/
def Holds (s : State n) (c : Fin n) (ctx : Context) : Prop := s.cpu c = .runs ctx ∨ s.cpu c = .entered ctx

def Active (s : State n) (c : Fin n) (t : Task) : Prop := s.currents c = some t ∧ ∃ ctx, Holds s c ctx

/-- A processor is current on a thread of its own, where this thread is, or has not left `mp_entry`. -/
structure Right (s : State n) (a : Spin.State Task) (c : Fin n) : Prop where
  owned : ∀ t, s.currents c = some t → s.cpu c ≠ .searching → t.val % n = c.val
  running : ∀ t ctx, Holds s c ctx → s.currents c = some t → ctx = .thread (a.point t)
  fresh : s.currents c = none → Holds s c .boot

/-- The system stands for these threads: a thread that no processor runs is where its context says. -/
structure Models (s : State n) (a : Spin.State Task) : Prop where
  locked : s.locked = a.locked
  right : ∀ c, Right s a c
  saved : ∀ t, (∀ c, ¬ Active s c t) → s.context t = .thread (a.point t)

/-- All five threads before their first step. -/
def threads : Spin.State Task := ⟨false, fun _ => .lock⟩

theorem boot_models (hn : n ≤ maxCpu) : Models (State.boot hn) threads where
  locked := rfl
  right _ := ⟨fun _ h => (nomatch h), fun _ _ _ h => (nomatch h), fun _ => .inl rfl⟩
  saved _ _ := rfl

section Step

variable {s s' : State n} {a a' : Spin.State Task} {c : Fin n}

/-- What other processors do. -/
theorem Right.congr {c' : Fin n} (h : Right s a c') (hcpu : s'.cpu c' = s.cpu c') (hcur : s'.currents c' = s.currents c')
    (hpoint : ∀ t, Active s c' t → a'.point t = a.point t) : Right s' a' c' := by
  have hholds : ∀ ctx, Holds s' c' ctx ↔ Holds s c' ctx := fun ctx => by
    unfold Holds
    rw [hcpu]
  refine ⟨fun t ht hs => h.owned t (hcur ▸ ht) (hcpu ▸ hs), fun t ctx hctx ht => ?_, fun hnone => ?_⟩
  · rw [hcur] at ht
    rw [hholds] at hctx
    rw [hpoint t ⟨ht, ctx, hctx⟩]
    exact h.running t ctx hctx ht
  · exact (hholds _).mpr (h.fresh (hcur ▸ hnone))

theorem Holds.ne_searching {ctx : Context} (h : Holds s c ctx) : s.cpu c ≠ .searching := by
  rintro hs
  rcases h with h | h <;> rw [hs] at h <;> cases h

theorem Right.owner (h : Right s a c) {t : Task} (ht : Active s c t) : t.val % n = c.val := by
  obtain ⟨hcur, _, hctx⟩ := ht
  exact h.owned t hcur hctx.ne_searching

/-- A step of one processor, from what is right on it afterwards. -/
theorem Models.update (h : Models s a) (s' : State n) {x : Cpu} (hcpu : s'.cpu = Function.update s.cpu c x)
    (hcur : ∀ c', c' ≠ c → s'.currents c' = s.currents c') (hlocked : s'.locked = a'.locked)
    (howned : ∀ t, s'.currents c = some t → x ≠ .searching → t.val % n = c.val)
    (hrunning : ∀ t ctx, x = .runs ctx ∨ x = .entered ctx → s'.currents c = some t → ctx = .thread (a'.point t))
    (hfresh : s'.currents c = none → x = .runs .boot ∨ x = .entered .boot)
    (hpoint : ∀ t, ¬ Active s' c t → a'.point t = a.point t)
    (hleft : ∀ t, Active s c t → ¬ Active s' c t → s'.context t = .thread (a.point t))
    (hcontext : ∀ t, ¬ Active s c t → s'.context t = s.context t) : Models s' a' := by
  have hself : s'.cpu c = x := by rw [hcpu, Function.update_self]
  have hsame : ∀ c', c' ≠ c → s'.cpu c' = s.cpu c' := fun c' hc => by rw [hcpu, Function.update_of_ne hc]
  have hactive : ∀ c' t, c' ≠ c → (Active s' c' t ↔ Active s c' t) := fun c' t hc => by
    unfold Active Holds
    rw [hsame c' hc, hcur c' hc]
  refine ⟨hlocked, fun c' => ?_, fun t hidle => ?_⟩
  · have hright : Right s' a' c := by
      refine ⟨fun t ht hs => howned t ht (hself ▸ hs), fun t ctx hctx ht => hrunning t ctx ?_ ht, fun hnone => ?_⟩
      · unfold Holds at hctx
        rwa [hself] at hctx
      · unfold Holds
        rw [hself]
        exact hfresh hnone
    by_cases hc : c' = c
    · rw [hc]
      exact hright
    · -- the threads of the other processor are its own
      refine (h.right c').congr (hsame c' hc) (hcur c' hc) fun t ht => hpoint t fun ht' => hc ?_
      exact Fin.ext (((h.right c').owner ht).symm.trans (hright.owner ht'))
  · rw [hpoint t (hidle c)]
    by_cases ht : Active s c t
    · exact hleft t ht (hidle c)
    · refine (hcontext t ht).trans (h.saved t fun c' => ?_)
      by_cases hc : c' = c
      · rw [hc]
        exact ht
      · rw [← hactive c' t hc]
        exact hidle c'

theorem not_active_of_cpu {x : Cpu} (hcpu : s.cpu c = x) (hx : ∀ ctx, x ≠ .runs ctx ∧ x ≠ .entered ctx) (t : Task) :
    ¬ Active s c t := by
  rintro ⟨_, ctx, hctx | hctx⟩ <;> rw [hcpu] at hctx
  · exact (hx ctx).1 hctx
  · exact (hx ctx).2 hctx

theorem models_interrupt (h : Models s a) {ctx : Context} (hcpu : s.cpu c = .runs ctx) :
    Models (s.setCpu c (.entered ctx)) a := by
  have hkeeps : ∀ t, Active s c t → Active (s.setCpu c (.entered ctx)) c t := fun t ht =>
    ⟨ht.1, ctx, .inr (Function.update_self c _ _)⟩
  refine h.update (s.setCpu c (.entered ctx)) rfl (fun _ _ => rfl) h.locked (fun t ht _ => ?_) (fun t ctx' hctx ht => ?_)
    (fun hnone => ?_) (fun _ _ => rfl) (fun t ht ht' => absurd (hkeeps t ht) ht') fun _ _ => rfl
  · exact (h.right c).owned t ht (by rw [hcpu]; simp)
  · obtain rfl : ctx = ctx' := by simpa using hctx
    exact (h.right c).running t ctx (.inl hcpu) ht
  · have hboot := (h.right c).fresh hnone
    unfold Holds at hboot
    rw [hcpu] at hboot
    obtain rfl : ctx = .boot := by simpa using hboot
    exact .inr rfl

/-- The handler has stored what it interrupted, or there was nothing to store. -/
theorem models_enter (h : Models s a) {ctx : Context} (hcpu : s.cpu c = .entered ctx) :
    Models ((enter s c ctx).setCpu c .searching) a := by
  unfold enter
  cases hcur : s.currents c with
  | none =>
    dsimp only
    refine h.update ((s.setCurrent c 0).setCpu c .searching) rfl (fun c' hc => Function.update_of_ne hc _ _) h.locked
      (fun _ _ hs => absurd rfl hs) (fun _ _ hctx _ => by simp at hctx) (fun hnone => ?_) (fun _ _ => rfl)
      (fun t ht => ?_) fun _ _ => rfl
    · rw [show ((s.setCurrent c 0).setCpu c .searching).currents c = some 0 from Function.update_self c _ _] at hnone
      cases hnone
    · exact absurd (hcur.symm.trans ht.1) (by simp)
  | some t =>
    dsimp only
    refine h.update ((s.setContext t ctx).setCpu c .searching) rfl (fun _ _ => rfl) h.locked
      (fun _ _ hs => absurd rfl hs) (fun _ _ hctx _ => by simp at hctx) (fun hnone => ?_) (fun _ _ => rfl)
      (fun t' ht' _ => ?_) fun t' ht' => ?_
    · exact absurd (hcur.symm.trans hnone) (by simp)
    · obtain rfl : t = t' := by simpa [hcur] using ht'.1
      refine (Function.update_self t _ _).trans ?_
      exact (h.right c).running t ctx (.inr hcpu) hcur
    · refine Function.update_of_ne ?_ _ _
      rintro rfl
      exact ht' ⟨hcur, ctx, .inr hcpu⟩

theorem models_pass (h : Models s a) {t : Task} (hcpu : s.cpu c = .searching) : Models (pass s c t) a := by
  have hself : (pass s c t).currents c = some (t + 1) := Function.update_self c _ _
  refine h.update (pass s c t) rfl (fun c' hc => Function.update_of_ne hc _ _) h.locked (fun t' ht' hs => ?_)
    (fun t' ctx hctx _ => ?_) (fun hnone => ?_) (fun _ _ => rfl)
    (fun t' ht' => absurd ht' (not_active_of_cpu hcpu (by simp) t')) fun _ _ => rfl
  · rw [hself] at ht'
    obtain rfl : t + 1 = t' := by simpa using ht'
    by_contra hne
    exact hs (if_neg hne)
  · split at hctx <;> simp at hctx
  · rw [hself] at hnone
    cases hnone

theorem models_leave (h : Models s a) {t : Task} (hcpu : s.cpu c = .leaving) (hcur : s.currents c = some t) :
    Models (s.setCpu c (.runs (s.context t))) a := by
  have howned : t.val % n = c.val := (h.right c).owned t hcur (by rw [hcpu]; simp)
  refine h.update (s.setCpu c (.runs (s.context t))) rfl (fun _ _ => rfl) h.locked (fun t' ht' _ => ?_)
    (fun t' ctx hctx ht' => ?_) (fun hnone => ?_) (fun _ _ => rfl)
    (fun t' ht' => absurd ht' (not_active_of_cpu hcpu (by simp) t')) fun _ _ => rfl
  · obtain rfl : t = t' := by simpa using hcur.symm.trans ht'
    exact howned
  · obtain rfl : t = t' := by simpa using hcur.symm.trans ht'
    obtain rfl : s.context t = ctx := by simpa using hctx
    refine h.saved t fun c' ht => ?_
    have hc : c' = c := Fin.ext (((h.right c').owner ht).symm.trans howned)
    exact not_active_of_cpu hcpu (by simp) t (hc ▸ ht)
  · exact absurd (hcur.symm.trans hnone) (by simp)

/-- A thread goes on to a point, and may change the lock. -/
theorem models_thread (h : Models s a) {p : Point} (hcpu : s.cpu c = .runs (.thread p)) {t : Task}
    (hcur : s.currents c = some t) (l : Bool) (p' : Point) :
    Models ({ s with locked := l }.setCpu c (.runs (.thread p'))) ⟨l, Function.update a.point t p'⟩ := by
  let s' : State n := { s with locked := l }.setCpu c (.runs (.thread p'))
  have hactive : Active s' c t := ⟨hcur, _, .inl (Function.update_self c _ _)⟩
  have hother : ∀ t', ¬ Active s' c t' → t' ≠ t := fun t' ht' => by
    rintro rfl
    exact ht' hactive
  refine h.update s' rfl (fun _ _ => rfl) rfl (fun t' ht' _ => ?_) (fun t' ctx hctx ht' => ?_) (fun hnone => ?_)
    (fun t' ht' => Function.update_of_ne (hother t' ht') _ _) (fun t' ht' hleft => ?_) fun _ _ => rfl
  · exact (h.right c).owned t' ht' (by rw [hcpu]; simp)
  · obtain rfl : t = t' := by simpa using hcur.symm.trans ht'
    obtain rfl : .thread p' = ctx := by simpa using hctx
    exact congrArg Context.thread (Function.update_self t p' a.point).symm
  · exact absurd (hcur.symm.trans hnone) (by simp)
  · exact absurd (by simpa using hcur.symm.trans ht'.1) (hother t' hleft).symm

theorem models_func (h : Models s a) {p : Point} (hcpu : s.cpu c = .runs (.thread p)) :
    ∃ t, s.currents c = some t ∧ Models (func s c p) (Spin.step a t) := by
  cases hcur : s.currents c with
  | none =>
    have hboot := (h.right c).fresh hcur
    unfold Holds at hboot
    rw [hcpu] at hboot
    simp at hboot
  | some t =>
    have hp : p = a.point t := by simpa using (h.right c).running t _ (.inl hcpu) hcur
    refine ⟨t, rfl, ?_⟩
    unfold Spin.step
    cases p with
    | lock =>
      rw [← hp]
      unfold func
      dsimp only
      rw [← h.locked]
      cases hlocked : s.locked with
      | true =>
        rw [if_pos rfl, if_pos rfl]
        have hstep : Models (s.setCpu c (.runs (.thread .lock))) ⟨s.locked, Function.update a.point t .lock⟩ :=
          models_thread h hcpu hcur s.locked .lock
        rwa [hlocked] at hstep
      | false =>
        rw [if_neg (by simp), if_neg (by simp)]
        exact models_thread h hcpu hcur true .critical
    | critical =>
      rw [← hp]
      exact models_thread h hcpu hcur false .delay
    | delay =>
      rw [← hp]
      dsimp only
      rw [← h.locked]
      exact models_thread h hcpu hcur s.locked .lock

/-- The thread whose step this is, if it is one. -/
def turn (s : State n) (c : Fin n) (irq : Bool) : List Task :=
  match s.cpu c, irq with
  | .runs (.thread _), false => (s.currents c).toList
  | _, _ => []

/-- A step is one of the thread that runs on the processor, or it changes no thread. -/
theorem models_next (h : Models s a) (c : Fin n) (irq : Bool) :
    Models (next s c irq) (Spin.run a (turn s c irq)) := by
  unfold next turn
  cases hcpu : s.cpu c with
  | runs ctx =>
    cases irq with
    | true => cases ctx <;> exact models_interrupt h hcpu
    | false =>
      cases ctx with
      | boot => exact h
      | thread p =>
        obtain ⟨t, hcur, hstep⟩ := models_func h hcpu
        dsimp only
        rw [hcur]
        exact hstep
  | entered ctx => exact models_enter h hcpu
  | searching =>
    cases hcur : s.currents c with
    | none => exact h
    | some t => exact models_pass h hcpu
  | leaving =>
    cases hcur : s.currents c with
    | none => exact h
    | some t => exact models_leave h hcpu hcur

end Step

/-- The threads whose steps a run makes. -/
def turns (s : State n) : List (Fin n × Bool) → List Task
  | [] => []
  | a :: as => turn s a.1 a.2 ++ turns (next s a.1 a.2) as

theorem models_run {s : State n} {a : Spin.State Task} (h : Models s a) (as : List (Fin n × Bool)) :
    Models (run s as) (Spin.run a (turns s as)) := by
  induction as generalizing s a with
  | nil => exact h
  | cons i as ih =>
    have hrun : Spin.run a (turns s (i :: as)) = Spin.run (Spin.run a (turn s i.1 i.2)) (turns (next s i.1 i.2) as) :=
      List.foldl_append
    rw [hrun]
    exact ih (models_next h i.1 i.2)

theorem threads_safe : Spin.Safe threads where
  locked_iff := ⟨fun h => (nomatch h), fun ⟨_, h⟩ => (nomatch h)⟩
  exclusive _ _ h := nomatch h

/-- A processor between `lock` and `unlock` is there for a thread. -/
theorem Models.critical {s : State n} {a : Spin.State Task} (h : Models s a) {c : Fin n}
    (hc : Holds s c (.thread .critical)) : ∃ t, Active s c t ∧ a.point t = .critical := by
  cases hcur : s.currents c with
  | none =>
    have hboot := (h.right c).fresh hcur
    unfold Holds at hboot hc
    rcases hc with hc | hc <;> rw [hc] at hboot <;> simp at hboot
  | some t =>
    have hpoint := (h.right c).running t _ hc hcur
    exact ⟨t, ⟨hcur, _, hc⟩, by simpa using hpoint.symm⟩

/-! ## The handler of one processor -/

section Handler

variable {s : State n} {c : Fin n}

/-- How many steps of a run are those of a processor. -/
def steps (c : Fin n) (as : List (Fin n × Bool)) : ℕ := as.countP fun a => a.1 = c

theorem steps_cons (a : Fin n × Bool) (as : List (Fin n × Bool)) :
    steps c (a :: as) = steps c as + if a.1 = c then 1 else 0 := by
  unfold steps
  rw [List.countP_cons]
  by_cases ha : a.1 = c <;> simp [ha]

theorem next_other {c' : Fin n} (h : c' ≠ c) (irq : Bool) :
    (next s c' irq).cpu c = s.cpu c ∧ (next s c' irq).currents c = s.currents c := by
  have hne : c ≠ c' := h.symm
  unfold next
  split
  · split
    · exact ⟨Function.update_of_ne hne _ _, rfl⟩
    · split
      · exact ⟨rfl, rfl⟩
      · unfold func
        split
        · split <;> exact ⟨Function.update_of_ne hne _ _, rfl⟩
        · exact ⟨Function.update_of_ne hne _ _, rfl⟩
        · exact ⟨Function.update_of_ne hne _ _, rfl⟩
  · unfold enter
    split
    · exact ⟨Function.update_of_ne hne _ _, Function.update_of_ne hne _ _⟩
    · exact ⟨Function.update_of_ne hne _ _, rfl⟩
  · split
    · exact ⟨rfl, rfl⟩
    · exact ⟨Function.update_of_ne hne _ _, Function.update_of_ne hne _ _⟩
  · split
    · exact ⟨rfl, rfl⟩
    · exact ⟨Function.update_of_ne hne _ _, rfl⟩

/-- Without a step of its own a processor stays as it is. -/
theorem run_other {as : List (Fin n × Bool)} (h : steps c as = 0) (s : State n) :
    (run s as).cpu c = s.cpu c ∧ (run s as).currents c = s.currents c := by
  induction as generalizing s with
  | nil => exact ⟨rfl, rfl⟩
  | cons a as ih =>
    rw [steps_cons] at h
    have hne : a.1 ≠ c := fun ha => by
      rw [if_pos ha] at h
      omega
    have hrest : steps c as = 0 := by omega
    have hnext := next_other (s := s) hne a.2
    have hrun := ih hrest (next s a.1 a.2)
    exact ⟨hrun.1.trans hnext.1, hrun.2.trans hnext.2⟩

/-- The first step of the processor in a run: before it, nothing has changed on it. -/
theorem exists_first {k : ℕ} {as : List (Fin n × Bool)} (h : steps c as = k + 1) (s : State n) :
    ∃ s' irq post, s'.cpu c = s.cpu c ∧ s'.currents c = s.currents c ∧ run s as = run (next s' c irq) post ∧
      steps c post = k := by
  induction as generalizing s with
  | nil => cases h
  | cons a as ih =>
    by_cases ha : a.1 = c
    · rw [steps_cons, if_pos ha] at h
      exact ⟨s, a.2, as, rfl, rfl, by rw [← ha]; rfl, Nat.succ.inj h⟩
    · rw [steps_cons, if_neg ha] at h
      obtain ⟨s', irq, post, hcpu, hcur, hrun, hpost⟩ := ih h (next s a.1 a.2)
      have hnext := next_other (s := s) ha a.2
      exact ⟨s', irq, post, hcpu.trans hnext.1, hcur.trans hnext.2, hrun, hpost⟩

/-- A run with some more steps of the processor than `k`, cut behind the first `k`. -/
theorem exists_split {k m : ℕ} {as : List (Fin n × Bool)} (h : steps c as = k + m) :
    ∃ pre post, as = pre ++ post ∧ steps c pre = k ∧ steps c post = m := by
  induction as generalizing k with
  | nil =>
    have hk : k + m = 0 := h.symm
    exact ⟨[], [], rfl, by omega, by omega⟩
  | cons a as ih =>
    cases k with
    | zero => exact ⟨[], a :: as, rfl, rfl, h.trans (Nat.zero_add m)⟩
    | succ k =>
      rw [steps_cons] at h
      by_cases ha : a.1 = c
      · rw [if_pos ha] at h
        obtain ⟨pre, post, rfl, hpre, hpost⟩ := ih (k := k) (by omega)
        exact ⟨a :: pre, post, rfl, by rw [steps_cons, if_pos ha, hpre], hpost⟩
      · rw [if_neg ha] at h
        obtain ⟨pre, post, rfl, hpre, hpost⟩ := ih h
        exact ⟨a :: pre, post, rfl, by rw [steps_cons, if_neg ha, hpre], hpost⟩

theorem next_entered {ctx : Context} (hcpu : s.cpu c = .entered ctx) (irq : Bool) :
    (next s c irq).cpu c = .searching ∧ (next s c irq).currents c = some ((s.currents c).getD 0) := by
  unfold next
  rw [hcpu]
  refine ⟨Function.update_self c _ _, ?_⟩
  unfold enter
  cases hcur : s.currents c with
  | none => exact Function.update_self c _ _
  | some t => exact hcur

theorem next_leaving {t : Task} (hcpu : s.cpu c = .leaving) (hcur : s.currents c = some t) (irq : Bool) :
    (next s c irq).cpu c = .runs (s.context t) ∧ (next s c irq).currents c = some t := by
  unfold next
  rw [hcpu]
  dsimp only
  rw [hcur]
  exact ⟨Function.update_self c _ _, hcur⟩

theorem next_searching {t : Task} (hcpu : s.cpu c = .searching) (hcur : s.currents c = some t) (irq : Bool) :
    (next s c irq).cpu c = (if (t + 1).val % n = c.val then .leaving else .searching) ∧
      (next s c irq).currents c = some (t + 1) := by
  unfold next
  rw [hcpu]
  dsimp only
  rw [hcur]
  exact ⟨Function.update_self c _ _, Function.update_self c _ _⟩

/-- The loop ends at the first thread of the processor behind the current one. -/
theorem run_searching (d : ℕ) : ∀ {s : State n} {t : Task} {as : List (Fin n × Bool)}, s.cpu c = .searching →
    s.currents c = some t → (∀ j, 0 < j → j ≤ d → (t + Fin.ofNat 5 j).val % n ≠ c.val) →
    (t + Fin.ofNat 5 (d + 1)).val % n = c.val → steps c as = d + 1 →
    (run s as).cpu c = .leaving ∧ (run s as).currents c = some (t + Fin.ofNat 5 (d + 1)) := by
  induction d with
  | zero =>
    intro s t as hcpu hcur _ hlast hsteps
    obtain ⟨s', irq, post, hcpu', hcur', hrun, hpost⟩ := exists_first hsteps s
    have hnext := next_searching (hcpu'.trans hcpu) (hcur'.trans hcur) irq
    rw [if_pos (show (t + 1).val % n = c.val from hlast)] at hnext
    rw [hrun, (run_other hpost _).1, (run_other hpost _).2]
    exact hnext
  | succ d ih =>
    intro s t as hcpu hcur hbefore hlast hsteps
    obtain ⟨s', irq, post, hcpu', hcur', hrun, hpost⟩ := exists_first hsteps s
    have hnext := next_searching (hcpu'.trans hcpu) (hcur'.trans hcur) irq
    rw [if_neg (show ¬ (t + 1).val % n = c.val from hbefore 1 Nat.one_pos (by omega))] at hnext
    have hshift : ∀ j, t + 1 + Fin.ofNat 5 j = t + Fin.ofNat 5 (j + 1) := fun j => by
      apply Fin.ext
      simp only [Fin.val_add, Fin.ofNat, Fin.val_one]
      omega
    rw [hrun]
    have hrest := ih (t := t + 1) hnext.1 hnext.2 (fun j hj hjd => ?_) ?_ hpost
    · rwa [hshift] at hrest
    · rw [hshift]
      exact hbefore (j + 1) (Nat.succ_pos j) (by omega)
    · rw [hshift]
      exact hlast

/-- A processor without threads does not leave the loop. -/
theorem run_stuck (hc : 5 ≤ c.val) (as : List (Fin n × Bool)) {s : State n} {t : Task} (hcpu : s.cpu c = .searching)
    (hcur : s.currents c = some t) : (run s as).cpu c = .searching := by
  induction as generalizing s t with
  | nil => exact hcpu
  | cons a as ih =>
    by_cases ha : a.1 = c
    · have hnext := next_searching hcpu hcur a.2
      have hle := Nat.mod_le (t + 1).val n
      have hlt := (t + 1).isLt
      rw [if_neg (by omega)] at hnext
      show (run (next s a.1 a.2) as).cpu c = .searching
      rw [ha]
      exact ih hnext.1 hnext.2
    · have hnext := next_other (s := s) ha a.2
      exact ih (hnext.1.trans hcpu) (hnext.2.trans hcur)

/-- The next thread of a processor behind a thread: by `n` further, if there is one and this thread is its own, else its
first. -/
def successor (c : Fin n) (t : Task) : ℕ := if t.val % n = c.val ∧ t.val + n < 5 then t.val + n else c.val

/-- How many passes lead to it. -/
def passes (c : Fin n) (t : Task) : ℕ :=
  if t.val < successor c t then successor c t - t.val else successor c t + 5 - t.val

theorem add_mod_ne {t j m : ℕ} (hj : 0 < j) (hjm : j < m) : (t + j) % m ≠ t % m := fun h => by
  have hmod : j ≡ 0 [MOD m] := Nat.ModEq.add_left_cancel' t (show (t + j) % m = (t + 0) % m from h)
  have hzero : j % m = 0 := hmod
  rw [Nat.mod_eq_of_lt hjm] at hzero
  omega

theorem passes_spec (hc : c.val < 5) {t : Task} (ht : t.val % n = c.val ∨ t = 0) :
    (∀ j, 0 < j → j < passes c t → (t + Fin.ofNat 5 j).val % n ≠ c.val) ∧
    0 < passes c t ∧ (t + Fin.ofNat 5 (passes c t)).val = successor c t ∧ successor c t % n = c.val := by
  have hcn := c.isLt
  have ht5 := t.isLt
  have hval : ∀ j, (t + Fin.ofNat 5 j).val = (t.val + j) % 5 := fun j => by
    simp only [Fin.val_add, Fin.ofNat]
    omega
  by_cases hown : t.val % n = c.val
  · have hle : c.val ≤ t.val := hown ▸ Nat.mod_le t.val n
    by_cases hroom : t.val + n < 5
    · have hsucc : successor c t = t.val + n := if_pos ⟨hown, hroom⟩
      have hpass : passes c t = n := by
        unfold passes
        rw [hsucc, if_pos (by omega), Nat.add_sub_cancel_left]
      rw [hsucc, hpass]
      refine ⟨fun j hj hjn => ?_, by omega, ?_, ?_⟩
      · rw [hval, Nat.mod_eq_of_lt (show t.val + j < 5 by omega), ← hown]
        exact add_mod_ne hj hjn
      · rw [hval, Nat.mod_eq_of_lt hroom]
      · rw [Nat.add_mod_right, hown]
    · have hsucc : successor c t = c.val := if_neg fun h => hroom h.2
      have hpass : passes c t = c.val + 5 - t.val := by
        unfold passes
        rw [hsucc, if_neg (by omega)]
      rw [hsucc, hpass]
      refine ⟨fun j hj hjn => ?_, by omega, ?_, Nat.mod_eq_of_lt hcn⟩
      · rw [hval]
        by_cases hwrap : t.val + j < 5
        · rw [Nat.mod_eq_of_lt hwrap, ← hown]
          exact add_mod_ne hj (by omega)
        · rw [show (t.val + j) % 5 = t.val + j - 5 by omega, Nat.mod_eq_of_lt (by omega)]
          omega
      · rw [hval]
        omega
  · -- the first interrupt: the loop starts at the first thread of all
    obtain rfl : t = 0 := ht.resolve_left hown
    have hpos : 0 < c.val := Nat.pos_of_ne_zero fun h => hown (by rw [h]; exact Nat.zero_mod n)
    have hsucc : successor c (0 : Task) = c.val := if_neg fun h => hown h.1
    have hpass : passes c (0 : Task) = c.val := by
      unfold passes
      rw [hsucc, if_pos (show (0 : Task).val < c.val from hpos)]
      rfl
    rw [hsucc, hpass]
    refine ⟨fun j hj hjn => ?_, hpos, ?_, Nat.mod_eq_of_lt hcn⟩
    · rw [hval, Fin.val_zero, Nat.zero_add, Nat.mod_eq_of_lt (by omega), Nat.mod_eq_of_lt (by omega)]
      exact hjn.ne
    · rw [hval, Fin.val_zero]
      omega

end Handler

/-! ## Results -/

/-- **Switching loses no thread and runs none twice**: after any steps and interrupts of any processors, every thread is
where the steps that were made for it lead, on the one processor that runs it or in its context. -/
theorem follows (hn : n ≤ maxCpu) (as : List (Fin n × Bool)) :
    Models (run (State.boot hn) as) (Spin.run threads (turns (State.boot hn) as)) := models_run (boot_models hn) as

/-- The first of two processors is interrupted in `mp_entry` and takes the lock with its first thread; the second one then
waits for it. -/
def twoLock : List (Fin 2 × Bool) :=
  [(0, true), (0, false), (0, false), (0, false), (0, false), (0, false),
    (1, true), (1, false), (1, false), (1, false), (1, false)]

/-- The third thread is in `critical` on the first processor, the second one at its `lock` on the second. -/
theorem follows_two : Spin.run threads (turns (State.boot (by decide)) twoLock) =
      ⟨true, Function.update (fun _ => .lock) 2 .critical⟩ ∧
    Right (run (State.boot (by decide)) twoLock) ⟨true, Function.update (fun _ => .lock) 2 .critical⟩ 1 := by
  have hrun : Spin.run threads (turns (State.boot (by decide)) twoLock) =
      ⟨true, Function.update (fun _ => .lock) 2 .critical⟩ := by
    have hpoint : (Spin.run threads (turns (State.boot (by decide)) twoLock)).point =
        Function.update (fun _ => .lock) 2 .critical := by
      funext t
      revert t
      decide
    exact congrArg (Spin.State.mk true) hpoint
  exact ⟨hrun, hrun ▸ (follows (by decide) twoLock).right 1⟩

/-- No two processors are between `lock` and `unlock`, none is while an interrupted thread is, and the lock is taken
exactly while one of them is. -/
structure Exclusive (s : State n) : Prop where
  processors : ∀ c c', Holds s c (.thread .critical) → Holds s c' (.thread .critical) → c = c'
  interrupted : ∀ c t, Holds s c (.thread .critical) → (∀ c', ¬ Active s c' t) → s.context t ≠ .thread .critical
  locked_iff : s.locked = true ↔ (∃ c, Holds s c (.thread .critical)) ∨
    ∃ t, (∀ c', ¬ Active s c' t) ∧ s.context t = .thread .critical

/-- **Mutual exclusion**, after any steps and interrupts of any processors. -/
theorem mutual_exclusion (hn : n ≤ maxCpu) (as : List (Fin n × Bool)) : Exclusive (run (State.boot hn) as) := by
  have h := models_run (boot_models hn) as
  have hsafe := Spin.run_safe threads_safe (turns (State.boot hn) as)
  refine ⟨fun c c' hc hc' => ?_, fun c t hc hidle hcrit => ?_, ?_⟩
  · obtain ⟨t, ht, hcrit⟩ := h.critical hc
    obtain ⟨t', ht', hcrit'⟩ := h.critical hc'
    obtain rfl := hsafe.exclusive t t' hcrit hcrit'
    exact Fin.ext (((h.right c).owner ht).symm.trans ((h.right c').owner ht'))
  · obtain ⟨t', ht', hcrit'⟩ := h.critical hc
    rw [h.saved t hidle] at hcrit
    obtain rfl := hsafe.exclusive t t' (by simpa using hcrit) hcrit'
    exact hidle c ht'
  · rw [h.locked, hsafe.locked_iff]
    constructor
    · rintro ⟨t, hcrit⟩
      by_cases hidle : ∀ c', ¬ Active (run (State.boot hn) as) c' t
      · exact .inr ⟨t, hidle, by rw [h.saved t hidle, hcrit]⟩
      · obtain ⟨c, hc⟩ := not_forall.mp hidle
        obtain ⟨hcur, ctx, hctx⟩ := not_not.mp hc
        obtain rfl := (h.right c).running t ctx hctx hcur
        rw [hcrit] at hctx
        exact .inl ⟨c, hctx⟩
    · rintro (⟨c, hc⟩ | ⟨t, hidle, hcrit⟩)
      · obtain ⟨t, _, hcrit⟩ := h.critical hc
        exact ⟨t, hcrit⟩
      · rw [h.saved t hidle] at hcrit
        exact ⟨t, by simpa using hcrit⟩

/-- While the first of two processors has the lock, the second does not. -/
theorem mutual_exclusion_two : Holds (run (State.boot (by decide)) twoLock) 0 (.thread .critical) ∧
    ¬ Holds (run (State.boot (by decide)) twoLock) 1 (.thread .critical) := by
  have hfirst : Holds (run (State.boot (by decide)) twoLock) 0 (.thread .critical) := .inl rfl
  exact ⟨hfirst, fun hsecond => absurd ((mutual_exclusion (by decide) twoLock).processors 0 1 hfirst hsecond) (by decide)⟩

/-- **The handler goes round**: on a processor with a thread it returns after a step for each pass of the loop and two more,
whatever the others do in between, to the next thread of the processor; on any other processor it never returns. -/
theorem onInterrupt_switches (hn : n ≤ maxCpu) (as as' : List (Fin n × Bool)) (c : Fin n) {ctx : Context}
    (hcpu : (run (State.boot hn) as).cpu c = .entered ctx) :
    let s := run (State.boot hn) as
    let t := (s.currents c).getD 0
    (c.val < 5 → steps c as' = passes c t + 2 →
      (∃ ctx', (run s as').cpu c = .runs ctx') ∧ ((run s as').currents c).map Fin.val = some (successor c t)) ∧
    (5 ≤ c.val → 0 < steps c as' → (run s as').cpu c = .searching) := by
  have howned : ∀ t, (run (State.boot hn) as).currents c = some t → t.val % n = c.val := fun t ht =>
    ((models_run (boot_models hn) as).right c).owned t ht (by rw [hcpu]; simp)
  generalize run (State.boot hn) as = s at hcpu howned
  dsimp only
  refine ⟨fun hc hsteps => ?_, fun hc hsteps => ?_⟩
  · have hown : ((s.currents c).getD 0).val % n = c.val ∨ (s.currents c).getD 0 = 0 := by
      cases hcur : s.currents c with
      | none => exact .inr rfl
      | some t => exact .inl (howned t hcur)
    obtain ⟨hbefore, hpos, hval, hlast⟩ := passes_spec hc hown
    obtain ⟨d, hd⟩ := Nat.exists_eq_succ_of_ne_zero hpos.ne'
    rw [hd] at hsteps hbefore hval
    obtain ⟨s', irq, post, hcpu', hcur', hrun, hpost⟩ := exists_first (k := d + 2) hsteps s
    have henter := next_entered (hcpu'.trans hcpu) irq
    rw [hcur'] at henter
    obtain ⟨pre, post, hsplit, hpre, hpost'⟩ := exists_split (show steps c post = d + 1 + 1 from hpost)
    have hsearch := run_searching d henter.1 henter.2 (fun j hj hjd => hbefore j hj (by omega)) (hval ▸ hlast) hpre
    obtain ⟨s'', irq', post', hcpu'', hcur'', hrun', hpost''⟩ := exists_first (k := 0) hpost' (run (next s' c irq) pre)
    have hleave := next_leaving (hcpu''.trans hsearch.1) (hcur''.trans hsearch.2) irq'
    have hend : run s as' = run (next s'' c irq') post' := by
      rw [hrun, hsplit, ← hrun']
      exact List.foldl_append
    rw [hend, (run_other hpost'' _).1, (run_other hpost'' _).2, hleave.2]
    exact ⟨⟨_, hleave.1⟩, congrArg some hval⟩
  · obtain ⟨d, hd⟩ := Nat.exists_eq_succ_of_ne_zero hsteps.ne'
    obtain ⟨s', irq, post, hcpu', hcur', hrun, hpost⟩ := exists_first hd s
    rw [hrun]
    have henter := next_entered (hcpu'.trans hcpu) irq
    exact run_stuck hc post henter.1 henter.2

/-- The first interrupt of the second of two processors. -/
theorem onInterrupt_switches_two : ((run (run (State.boot (by decide)) [((1 : Fin 2), true)])
    [(1, false), (0, false), (1, true), (1, false)]).currents 1).map Fin.val = some 1 :=
  ((onInterrupt_switches (by decide) [((1 : Fin 2), true)] [(1, false), (0, false), (1, true), (1, false)] 1 rfl).1
    (by decide) (by decide)).2

end ThreadOs
