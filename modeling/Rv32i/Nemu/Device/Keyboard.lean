import Rv32i.Am.Keys
import Rv32i.Lib.RingBuffer
import Rv32i.Nemu.Memory

/-!
# NEMU: the keyboard

`src/device/keyboard.c`: `send_key` puts keys into a ring buffer, and a guest that reads the data register of the i8042
takes them out.  An assertion ends NEMU when the buffer runs over.

* `Bounded` — the queue of at most 1023 keys that the device is meant to be;
* `step_refines`, `run_refines` — the device is this queue.
-/

namespace Nemu.Keyboard

open Rv32 Fifo
open Keys hiding Word

def keyQueueLen : ℕ := 1024

/-- `key_queue`, `key_f` and `key_r` -/
abbrev KeyQueue := RingBuffer Word keyQueueLen

structure State where
  queue : KeyQueue
  /-- `i8042_data_port_base[0]` -/
  port : Word

def State.init : State where
  queue := ⟨Vector.replicate keyQueueLen 0, ⟨0, by decide⟩, ⟨0, by decide⟩⟩
  port := keyNone

/-- The assertion comes behind the store. -/
def keyEnqueue (amScancode : Word) (s : State) : Exec State :=
  let s := { s with queue := s.queue.enqueue amScancode }
  if s.queue.rear ≠ s.queue.front then .ok s else .error .panic

def keyDequeue (s : State) : Word × State :=
  let (key, queue) := s.queue.dequeue
  (key.getD keyNone, { s with queue := queue })

/-- `running` tells whether `nemu_state.state` is `NEMU_RUNNING`. -/
def sendKey (keymap : Vector Word 256) (running : Bool) (scancode : Byte) (isKeydown : Bool) (s : State) : Exec State :=
  if running ∧ keymap[scancode.toNat] ≠ keyNone then
    keyEnqueue (keyEvent keymap[scancode.toNat] isKeydown) s
  else .ok s

def i8042DataIoHandler (offset : Word) (_len : ℕ) (isWrite : Bool) (s : State) : Exec State := do
  if isWrite then throw .assert
  if offset ≠ 0 then throw .assert
  return { (keyDequeue s).2 with port := (keyDequeue s).1 }

/-- The bytes of the register. -/
def portBytes (port : Word) : Pmem := fun i => port.extractLsb' (8 * i.toNat) 8

/-- `map_read` of the register. -/
def dataRead (len : ℕ) (s : State) : Exec (Word × State) := do
  if ¬ (len ≥ 1 ∧ len ≤ 8) then throw .assert
  let s ← i8042DataIoHandler 0 len false s
  return (← hostRead (portBytes s.port) 0 len, s)

inductive Event
  /-- `send_key` -/
  | send (running : Bool) (scancode : Byte) (isKeydown : Bool)
  /-- The guest reads the data register. -/
  | read (n : Width)

/-- One event, with what is read. -/
def step (keymap : Vector Word 256) (s : State) : Event → Exec (List Word × State)
  | .send running scancode isKeydown => do return ([], ← sendKey keymap running scancode isKeydown s)
  | .read n => do
    let (v, s) ← dataRead n.bytes s
    return ([v], s)

/-- The events of a run, with all that is read. -/
def run (keymap : Vector Word 256) (s : State) : List Event → Exec (List Word × State)
  | [] => .ok ([], s)
  | e :: es => do
    let (r, s) ← step keymap s e
    let (rs, s) ← run keymap s es
    return (r ++ rs, s)

/-! ## The queue that the device is meant to be -/

/-- The key that an event sends, if it is accepted. -/
def Event.accepted (keymap : Vector Word 256) : Event → Option Word
  | .send running scancode isKeydown =>
    if running ∧ keymap[scancode.toNat] ≠ keyNone then some (keyEvent keymap[scancode.toNat] isKeydown) else none
  | .read _ => none

def accepted (keymap : Vector Word 256) (es : List Event) : List Word := es.filterMap (·.accepted keymap)

/-- The widths of the reads. -/
def widths : List Event → List Width
  | [] => []
  | .send .. :: es => widths es
  | .read n :: es => n :: widths es

/-- The low bytes of a key, for a read of `n`. -/
def lowBytes (n : Width) (key : Word) : Word := (key.extractLsb' 0 (8 * n.bytes)).setWidth 32

namespace Bounded

/-- One event with the keys that wait before it: a 1024th key is refused, and a read takes the first key, or none
where none waits. -/
def step (keymap : Vector Word 256) (pending : List Word) (e : Event) : Exec (List Word × List Word) :=
  match e with
  | .read _ => .ok ([pending.headD keyNone], pending.tail)
  | .send .. =>
    match e.accepted keymap with
    | none => .ok ([], pending)
    | some key => if pending.length = 1023 then .error .panic else .ok ([], pending ++ [key])

/-- The events of a run, with all keys that are taken. -/
def run (keymap : Vector Word 256) (pending : List Word) : List Event → Exec (List Word × List Word)
  | [] => .ok ([], pending)
  | e :: es => do
    let (key, pending) ← step keymap pending e
    let (keys, pending) ← run keymap pending es
    return (key ++ keys, pending)

end Bounded

section Refine

variable {keymap : Vector Word 256}

theorem accepted_ne_none {es : List Event} {key : Word} (h : key ∈ accepted keymap es) : key ≠ keyNone := by
  obtain ⟨e, -, he⟩ := List.mem_filterMap.mp h
  cases e with
  | read n => cases he
  | send running scancode isKeydown =>
    rw [Event.accepted] at he
    by_cases hsend : running ∧ keymap[scancode.toNat] ≠ keyNone
    · rw [if_pos hsend] at he
      obtain rfl := Option.some.inj he
      exact keyEvent_ne_none isKeydown hsend.2
    · rw [if_neg hsend] at he
      cases he

/-- A read of the whole register gives the whole key. -/
theorem lowBytes_word (key : Word) : lowBytes .word key = key := by
  unfold lowBytes
  show (key.extractLsb' 0 32).setWidth 32 = key
  rw [BitVec.extractLsb'_eq_self, BitVec.setWidth_eq]

theorem hostRead_port (port : Word) (n : Width) : hostRead (portBytes port) 0 n.bytes = .ok (lowBytes n port) := by
  cases n with
  | byte => rfl
  | half =>
    show Except.ok ((port.extractLsb' 8 8 ++ port.extractLsb' 0 8).setWidth 32) = _
    simp (disch := decide) only [BitVec.extractLsb'_append_extractLsb'_eq_extractLsb']
    rfl
  | word =>
    rw [lowBytes_word]
    exact congrArg Except.ok (Bytes.ofBytes_byte port)

/-- A read takes the first key that waits. -/
theorem dataRead_eq (n : Width) (s : State) : ∃ s', dataRead n.bytes s =
    .ok (lowBytes n (s.queue.contents.headD keyNone), s') ∧ s'.queue.contents = s.queue.contents.tail := by
  obtain ⟨hhead, htail⟩ := s.queue.dequeue_contents
  have hlen : n.bytes ≥ 1 ∧ n.bytes ≤ 8 := by
    cases n <;> decide
  refine ⟨⟨s.queue.dequeue.2, s.queue.dequeue.1.getD keyNone⟩, ?_, htail⟩
  have hread : dataRead n.bytes s = (hostRead (portBytes (s.queue.dequeue.1.getD keyNone)) 0 n.bytes).map
      fun v => (v, ⟨s.queue.dequeue.2, s.queue.dequeue.1.getD keyNone⟩) := by
    rw [dataRead, if_neg (not_not.mpr hlen)]
    rfl
  rw [hread, hostRead_port, hhead, List.headD_eq_head?_getD]
  rfl

/-- A 1024th key trips the assertion. -/
theorem keyEnqueue_full (key : Word) {s : State} (h : s.queue.contents.length = 1023) :
    keyEnqueue key s = .error .panic := by
  rw [RingBuffer.contents_length] at h
  have hempty := (s.queue.enqueue_empty_iff key).mpr (congrArg (· + 1) h)
  rw [keyEnqueue, if_neg (not_not.mpr hempty.symm)]

/-- Any other joins the keys that wait. -/
theorem keyEnqueue_ok (key : Word) {s : State} (h : s.queue.contents.length ≠ 1023) :
    ∃ s', keyEnqueue key s = .ok s' ∧ s'.queue.contents = s.queue.contents ++ [key] := by
  rw [RingBuffer.contents_length] at h
  have hne : s.queue.size + 1 ≠ keyQueueLen := fun he => h (Nat.succ_injective he)
  refine ⟨{ s with queue := s.queue.enqueue key }, ?_, s.queue.enqueue_contents key (lt_of_le_of_ne s.queue.size_lt hne)⟩
  rw [keyEnqueue, if_pos fun he => hne ((s.queue.enqueue_empty_iff key).mp he.symm)]

/-- **One event of the device is one of the queue.** -/
theorem step_refines (s : State) (e : Event) : (step keymap s e).map (fun r => (r.1, r.2.queue.contents)) =
    (Bounded.step keymap s.queue.contents e).map fun r => (List.zipWith lowBytes (widths [e]) r.1, r.2) := by
  cases e with
  | read n =>
    obtain ⟨s', hread, hs'⟩ := dataRead_eq n s
    rw [step, hread]
    show Except.ok ([_], s'.queue.contents) = _
    rw [hs']
    rfl
  | send running scancode isKeydown =>
    rw [step, sendKey, Bounded.step, Event.accepted]
    by_cases hsend : running ∧ keymap[scancode.toNat] ≠ keyNone
    · rw [if_pos hsend, if_pos hsend]
      by_cases hfull : s.queue.contents.length = 1023
      · simp only [keyEnqueue_full _ hfull, if_pos hfull]
        rfl
      · obtain ⟨s', hs', hcontents⟩ := keyEnqueue_ok (keyEvent keymap[scancode.toNat] isKeydown) hfull
        simp only [hs', if_neg hfull]
        exact congrArg (fun l => Except.ok ([], l)) hcontents
    · rw [if_neg hsend, if_neg hsend]
      rfl

/-- What one event of the queue does. -/
theorem bounded_step_cases {e : Event} {pending pending' key : List Word}
    (h : Bounded.step keymap pending e = .ok (key, pending')) :
    (∃ n, e = .read n ∧ key = [pending.headD keyNone] ∧ pending' = pending.tail) ∨
      (∃ r c d, e = .send r c d) ∧ key = [] ∧ pending' = pending ++ (e.accepted keymap).toList ∧
        (e.accepted keymap ≠ none → pending.length ≠ 1023) := by
  cases e with
  | read n =>
    obtain ⟨rfl, rfl⟩ := Prod.mk.inj (Except.ok.inj h)
    exact .inl ⟨n, rfl, rfl, rfl⟩
  | send running scancode isKeydown =>
    refine .inr ⟨⟨_, _, _, rfl⟩, ?_⟩
    rw [Bounded.step] at h
    cases hacc : (Event.send running scancode isKeydown).accepted keymap with
    | none =>
      rw [hacc] at h
      obtain ⟨rfl, rfl⟩ := Prod.mk.inj (Except.ok.inj h)
      exact ⟨rfl, (List.append_nil _).symm, fun hne => absurd rfl hne⟩
    | some k =>
      rw [hacc] at h
      by_cases hfull : pending.length = 1023
      · simp only [if_pos hfull] at h
        cases h
      · simp only [if_neg hfull] at h
        obtain ⟨rfl, rfl⟩ := Prod.mk.inj (Except.ok.inj h)
        exact ⟨rfl, rfl, fun _ => hfull⟩

theorem zipWith_widths (e : Event) (es : List Event) {pending pending' key keys : List Word}
    (h : Bounded.step keymap pending e = .ok (key, pending')) :
    List.zipWith lowBytes (widths [e]) key ++ List.zipWith lowBytes (widths es) keys =
      List.zipWith lowBytes (widths (e :: es)) (key ++ keys) := by
  obtain ⟨n, rfl, rfl, -⟩ | ⟨⟨r, c, d, rfl⟩, rfl, -⟩ := bounded_step_cases h
  · rfl
  · rfl

/-- **The device is the queue.** -/
theorem run_refines (s : State) (es : List Event) : (run keymap s es).map (fun r => (r.1, r.2.queue.contents)) =
    (Bounded.run keymap s.queue.contents es).map fun r => (List.zipWith lowBytes (widths es) r.1, r.2) := by
  induction es generalizing s with
  | nil => rfl
  | cons e es ih =>
    have hstep := @step_refines keymap s e
    rw [run, Bounded.run]
    cases hs : step keymap s e with
    | error err =>
      cases hb : Bounded.step keymap s.queue.contents e with
      | ok b =>
        rw [hs, hb] at hstep
        cases hstep
      | error err' =>
        rw [hs, hb] at hstep
        cases hstep
        rfl
    | ok r =>
      cases hb : Bounded.step keymap s.queue.contents e with
      | error err =>
        rw [hs, hb] at hstep
        cases hstep
      | ok b =>
        rw [hs, hb] at hstep
        obtain ⟨hout, hpending⟩ := Prod.mk.inj (Except.ok.inj hstep)
        have hrest := ih r.2
        rw [hpending] at hrest
        show ((run keymap r.2 es).bind fun q => .ok (r.1 ++ q.1, q.2)).map _ =
          ((Bounded.run keymap b.2 es).bind fun q => .ok (b.1 ++ q.1, q.2)).map _
        cases hr : run keymap r.2 es with
        | error err =>
          cases hq : Bounded.run keymap b.2 es with
          | ok q =>
            rw [hr, hq] at hrest
            cases hrest
          | error err' =>
            rw [hr, hq] at hrest
            cases hrest
            rfl
        | ok r' =>
          cases hq : Bounded.run keymap b.2 es with
          | error err =>
            rw [hr, hq] at hrest
            cases hrest
          | ok q =>
            rw [hr, hq] at hrest
            obtain ⟨hout', hpending'⟩ := Prod.mk.inj (Except.ok.inj hrest)
            show Except.ok (r.1 ++ r'.1, r'.2.queue.contents) = Except.ok (_, q.2)
            rw [hout, hout', hpending', zipWith_widths e es hb]

/-- What an event is for a queue. -/
def Event.ops (keymap : Vector Word 256) : Event → List (Op Word)
  | .read _ => [.pop]
  | .send running scancode isKeydown =>
    ((Event.send running scancode isKeydown).accepted keymap).toList.map .push

theorem pushed_ops (es : List Event) : pushed (es.flatMap (·.ops keymap)) = accepted keymap es := by
  induction es with
  | nil => rfl
  | cons e es ih =>
    rw [List.flatMap_cons, pushed_append, ih]
    cases e with
    | read n => rfl
    | send running scancode isKeydown =>
      rw [Event.ops, accepted, accepted, List.filterMap_cons]
      cases (Event.send running scancode isKeydown).accepted keymap <;> rfl

/-- The bounded queue is a queue. -/
theorem bounded_run_eq {pending pending' keys : List Word} {es : List Event}
    (h : Bounded.run keymap pending es = .ok (keys, pending')) :
    keys = (popped pending (es.flatMap (·.ops keymap))).map (·.getD keyNone) ∧
      pending' = after pending (es.flatMap (·.ops keymap)) := by
  induction es generalizing pending pending' keys with
  | nil =>
    obtain ⟨rfl, rfl⟩ := Prod.mk.inj (Except.ok.inj h)
    exact ⟨rfl, rfl⟩
  | cons e es ih =>
    obtain ⟨⟨key, mid⟩, hstep, hrest⟩ := bind_ok h
    obtain ⟨⟨keys', last⟩, hrun, hret⟩ := bind_ok hrest
    obtain ⟨rfl, rfl⟩ := Prod.mk.inj (Except.ok.inj hret)
    obtain ⟨hkeys, hlast⟩ := ih hrun
    have hop : key = (popped pending (e.ops keymap)).map (·.getD keyNone) ∧ mid = after pending (e.ops keymap) := by
      obtain ⟨n, rfl, rfl, rfl⟩ | ⟨⟨r, c, d, rfl⟩, rfl, rfl, -⟩ := bounded_step_cases hstep
      · rw [List.headD_eq_head?_getD]
        exact ⟨rfl, rfl⟩
      · rw [Event.ops]
        cases (Event.send r c d).accepted keymap with
        | none => exact ⟨rfl, List.append_nil _⟩
        | some k => exact ⟨rfl, rfl⟩
    rw [List.flatMap_cons, popped_append, after_append, List.map_append, ← hop.1, ← hop.2]
    exact ⟨congrArg (key ++ ·) hkeys, hlast⟩

/-- The keys that are taken are those that were accepted, in order, up to those that wait. -/
theorem bounded_run_accepted {pending keys : List Word} {es : List Event}
    (h : Bounded.run keymap [] es = .ok (keys, pending)) :
    keys.filter (· ≠ keyNone) ++ pending = accepted keymap es := by
  obtain ⟨rfl, rfl⟩ := bounded_run_eq h
  have hfifo := popped_append_after [] (es.flatMap (·.ops keymap))
  rw [List.nil_append, pushed_ops] at hfifo
  have htaken : ∀ k ∈ (popped [] (es.flatMap (·.ops keymap))).reduceOption, k ≠ keyNone := by
    intro k hk
    refine @accepted_ne_none keymap es k ?_
    rw [← hfifo]
    exact List.mem_append_left _ hk
  have hfilter := filter_popped (f := fun k : Option Word => k.getD keyNone) (p := fun k => decide (k ≠ keyNone))
    (by decide) fun k hk => decide_eq_true (htaken k hk)
  rw [hfilter, ← hfifo]
  exact congrArg (· ++ _) (List.map_id _)

end Refine

/-- **The device is the bounded queue**: it answers, refuses and holds what the queue does; the keys that are taken are
those that were accepted, in order and each once; and no key that is accepted looks like none. -/
theorem keyboard_refines (scancode : Key → Fin 256) (es : List Event) :
    (run (Keys.keymap scancode) .init es).map (fun r => (r.1, r.2.queue.contents)) =
      (Bounded.run (Keys.keymap scancode) [] es).map (fun r => (List.zipWith lowBytes (widths es) r.1, r.2)) ∧
    (∀ keys pending, Bounded.run (Keys.keymap scancode) [] es = .ok (keys, pending) →
      keys.filter (· ≠ keyNone) ++ pending = accepted (Keys.keymap scancode) es) ∧
    ∀ key ∈ accepted (Keys.keymap scancode) es, key ≠ keyNone := by
  have hinit : State.init.queue.contents = [] := State.init.queue.empty_iff.mp rfl
  have hrun := @run_refines (Keys.keymap scancode) .init es
  rw [hinit] at hrun
  exact ⟨hrun, fun _ _ h => bounded_run_accepted h, fun _ h => accepted_ne_none h⟩

end Nemu.Keyboard
