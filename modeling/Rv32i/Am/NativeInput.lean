import Rv32i.Am.Keys
import Rv32i.Lib.RingBuffer

/-!
# AM on the native platform: keys

`src/native/ioe/input.c`: a thread puts the keys of SDL into a ring buffer, and `__am_input_keybrd` takes them out.
Both do so with a lock held, so that the events of a run follow one another.

* `run_eq` — a run is a run of the ring buffer;
* `inOrder_of_below`, `InOrder.below` — the keys arrive in order while less than 1024 of them wait, and no longer.
-/

namespace Am.Native.Input

open Keys Fifo

def keyQueueLen : ℕ := 1024

/-- `key_queue`, `key_f` and `key_r` -/
abbrev KeyQueue := RingBuffer Word keyQueueLen

def KeyQueue.init : KeyQueue where
  slots := Vector.replicate keyQueueLen 0
  front := ⟨0, by decide⟩
  rear := ⟨0, by decide⟩

/-- `AM_INPUT_KEYBRD_T` -/
structure Keybrd where
  keydown : Bool
  keycode : Word
  deriving DecidableEq

inductive Event
  /-- `SDL_KEYDOWN` or `SDL_KEYUP` -/
  | key (scancode : ℕ) (keydown : Bool)
  /-- Another event of SDL, except `SDL_QUIT`: that one halts the program, and ends the run. -/
  | other
  /-- A read of `AM_INPUT_KEYBRD`. -/
  | keybrd

/-- A key in `event_thread`; `none` where it reads behind the end of `keymap`. -/
def eventThread (map : Vector Word 256) (scancode : ℕ) (keydown : Bool) (q : KeyQueue) : Option KeyQueue := do
  let code ← map[scancode]?
  return if code ≠ keyNone then q.enqueue (keyEvent code keydown) else q

/-- `kbd->keydown` and `kbd->keycode`, of `k`. -/
def Keybrd.of (k : Word) : Keybrd := ⟨k &&& keydownMask ≠ 0, k &&& ~~~keydownMask⟩

def amInputKeybrd (q : KeyQueue) : Keybrd × KeyQueue :=
  let (k, q) := q.dequeue
  (.of (k.getD keyNone), q)

/-- One event, with what is read. -/
def step (map : Vector Word 256) (q : KeyQueue) : Event → Option (List Keybrd × KeyQueue)
  | .key scancode keydown => (eventThread map scancode keydown q).map ([], ·)
  | .other => some ([], q)
  | .keybrd => some ([(amInputKeybrd q).1], (amInputKeybrd q).2)

/-- The events of a run, with all that is read. -/
def run (map : Vector Word 256) (q : KeyQueue) : List Event → Option (List Keybrd × KeyQueue)
  | [] => some ([], q)
  | e :: es => do
    let (r, q) ← step map q e
    let (rs, q) ← run map q es
    return (r ++ rs, q)

/-! ## What a program expects -/

/-- The code that the map has for a scancode, if it has one. -/
def mapped (map : Vector Word 256) (scancode : ℕ) : Option Word := map[scancode]?.filter (· ≠ keyNone)

/-- The key that an event puts into the queue. -/
def Event.enqueued (map : Vector Word 256) : Event → Option Keybrd
  | .key scancode keydown => (mapped map scancode).map fun code => ⟨keydown, code⟩
  | .other | .keybrd => none

def enqueued (map : Vector Word 256) (es : List Event) : List Keybrd := es.filterMap (·.enqueued map)

def Keybrd.none : Keybrd := ⟨false, keyNone⟩

/-- **At every time of the run**, the keys that have been read are those that were put into the queue, in order, up to
the pending ones; and a read gives the first that is pending, and no key only where none is. -/
def InOrder (map : Vector Word 256) (es : List Event) : Prop := ∀ p, p <+: es →
  ∃ rs q, run map .init p = some (rs, q) ∧ ∃ pending, enqueued map p = rs.filter (·.keycode ≠ keyNone) ++ pending ∧
    (amInputKeybrd q).1 = pending.headD .none

/-- What an event is for the queue. -/
def Event.ops (map : Vector Word 256) : Event → List (Fifo.Op Word)
  | .key scancode keydown => (mapped map scancode).toList.map fun code => .push (keyEvent code keydown)
  | .other => []
  | .keybrd => [.pop]

/-- The keys that wait behind a run. -/
def waiting (map : Vector Word 256) (es : List Event) : List Word := after [] (es.flatMap (·.ops map))

/-- The scancodes of the run are those of the map. -/
def InRange (es : List Event) : Prop := ∀ scancode keydown, .key scancode keydown ∈ es → scancode < 256

section Run

variable {map : Vector Word 256} {q : KeyQueue} {es : List Event}

theorem inRange_cons {e : Event} :
    InRange (e :: es) ↔ (∀ scancode keydown, e = .key scancode keydown → scancode < 256) ∧ InRange es := by
  constructor
  · intro h
    exact ⟨fun s d he => h s d (he ▸ List.mem_cons_self), fun s d hm => h s d (List.mem_cons_of_mem _ hm)⟩
  · rintro ⟨he, hes⟩ s d hm
    obtain heq | hm := List.mem_cons.mp hm
    · exact he s d heq.symm
    · exact hes s d hm

theorem mapped_zero {scancode : ℕ} (hs : scancode < 256) (h : map[scancode] = keyNone) : mapped map scancode = none := by
  rw [mapped, Vector.getElem?_eq_getElem hs, h]
  rfl

theorem mapped_ne {scancode : ℕ} (hs : scancode < 256) (h : map[scancode] ≠ keyNone) :
    mapped map scancode = some map[scancode] := by
  rw [mapped, Vector.getElem?_eq_getElem hs]
  exact Option.filter_some_pos (decide_eq_true h)

theorem mapped_some {scancode : ℕ} {code : Word} (h : mapped map scancode = some code) :
    code ≠ keyNone ∧ ∃ hs : scancode < 256, code = map[scancode] := by
  obtain ⟨hget, hne⟩ := Option.filter_eq_some_iff.mp h
  obtain ⟨hs, rfl⟩ := Vector.getElem?_eq_some_iff.mp hget
  exact ⟨of_decide_eq_true hne, hs, rfl⟩

/-- One event is what it is for the queue. -/
theorem step_eq {e : Event} (he : ∀ scancode keydown, e = .key scancode keydown → scancode < 256) :
    step map q e = some ((q.given (e.ops map)).map fun k => .of (k.getD keyNone), q.run (e.ops map)) := by
  cases e with
  | other => rfl
  | keybrd => rfl
  | key scancode keydown =>
    have hs := he scancode keydown rfl
    have hget : map[scancode]? = some map[scancode] := Vector.getElem?_eq_getElem hs
    have hstep : step map q (.key scancode keydown) =
        some ([], if map[scancode] ≠ keyNone then q.enqueue (keyEvent map[scancode] keydown) else q) := by
      rw [step, eventThread, hget]
      rfl
    rw [hstep, Event.ops]
    by_cases h0 : map[scancode] = keyNone
    · rw [mapped_zero hs h0, if_neg (not_not.mpr h0)]
      rfl
    · rw [mapped_ne hs h0, if_pos h0]
      rfl

theorem step_inRange {e : Event} {r : List Keybrd × KeyQueue} (h : step map q e = some r) (scancode : ℕ)
    (keydown : Bool) (he : e = .key scancode keydown) : scancode < 256 := by
  by_contra hs
  have hget : map[scancode]? = none := Vector.getElem?_eq_none_iff.mpr (not_lt.mp hs)
  rw [he] at h
  simp [step, eventThread, hget] at h

/-- **A run is a run of the ring buffer.** -/
theorem run_eq (h : InRange es) : run map q es = some ((q.given (es.flatMap (·.ops map))).map
    fun k => .of (k.getD keyNone), q.run (es.flatMap (·.ops map))) := by
  induction es generalizing q with
  | nil => rfl
  | cons e es ih =>
    obtain ⟨he, hes⟩ := inRange_cons.mp h
    rw [run, step_eq he]
    show (run map (q.run (e.ops map)) es).bind _ = _
    rw [ih hes, List.flatMap_cons, RingBuffer.run_append, RingBuffer.given_append, List.map_append]
    rfl

theorem run_inRange {r : List Keybrd × KeyQueue} (h : run map q es = some r) : InRange es := by
  induction es generalizing q r with
  | nil => exact nofun
  | cons e es ih =>
    rw [run] at h
    obtain ⟨⟨r1, q1⟩, hstep, hrest⟩ := Option.bind_eq_some_iff.mp h
    obtain ⟨r2, hrun, -⟩ := Option.bind_eq_some_iff.mp hrest
    exact inRange_cons.mpr ⟨step_inRange hstep, ih hrun⟩

end Run

/-! ## Keys in order -/

section Order

variable {map : Vector Word 256} {es : List Event}

/-- The codes leave the bit for a key that went down free. -/
def Codes (map : Vector Word 256) : Prop := ∀ i (hi : i < 256), map[i].toNat < 2 ^ 15

theorem of_keyEvent {code : Word} (h : code.toNat < 2 ^ 15) (keydown : Bool) :
    Keybrd.of (keyEvent code keydown) = ⟨keydown, code⟩ := by
  have hdown : decide (keyEvent code keydown &&& keydownMask ≠ 0) = keydown := by
    rw [Bool.eq_iff_iff, decide_eq_true_iff]
    exact keyEvent_keydown keydown h
  rw [Keybrd.of, hdown, keyEvent_code keydown h]

theorem event_enqueued (hmap : Codes map) (e : Event) :
    (e.enqueued map).toList = (pushed (e.ops map)).map .of := by
  cases e with
  | other | keybrd => rfl
  | key s keydown =>
    rw [Event.enqueued, Event.ops]
    cases hm : mapped map s with
    | none => rfl
    | some code =>
      obtain ⟨-, hs, rfl⟩ := mapped_some hm
      exact congrArg ([·]) (of_keyEvent (hmap s hs) keydown).symm

/-- The keys that are put into the queue, for the queue. -/
theorem enqueued_eq (hmap : Codes map) : enqueued map es = (pushed (es.flatMap (·.ops map))).map .of := by
  induction es with
  | nil => rfl
  | cons e es ih =>
    have hcons : enqueued map (e :: es) =
        (e.enqueued map).toList ++ enqueued map es := by
      rw [enqueued, List.filterMap_cons]
      cases e.enqueued map <;> rfl
    rw [hcons, event_enqueued hmap, ih, List.flatMap_cons, pushed_append, List.map_append]

theorem enqueued_ne_none {k : Keybrd} (hk : k ∈ enqueued map es) : k.keycode ≠ keyNone := by
  obtain ⟨e, -, he⟩ := List.mem_filterMap.mp hk
  cases e with
  | other | keybrd => cases he
  | key s keydown =>
    obtain ⟨code, hcode, rfl⟩ := Option.map_eq_some_iff.mp he
    exact (mapped_some hcode).1

/-- The reads that got a key. -/
theorem filter_reads {ks : List (Option Word)} (h : ∀ k ∈ ks.reduceOption, (Keybrd.of k).keycode ≠ keyNone) :
    (ks.map fun k => Keybrd.of (k.getD keyNone)).filter (·.keycode ≠ keyNone) = ks.reduceOption.map .of :=
  filter_popped (f := fun k => Keybrd.of (k.getD keyNone)) (by decide) fun k hk => decide_eq_true (h k hk)

theorem popped_ne_none (hmap : Codes map) {k : Word} (hk : k ∈ (popped [] (es.flatMap (·.ops map))).reduceOption) :
    (Keybrd.of k).keycode ≠ keyNone := by
  have hfifo := popped_append_after [] (es.flatMap (·.ops map))
  refine @enqueued_ne_none map es _ ?_
  rw [enqueued_eq hmap]
  refine List.mem_map_of_mem ?_
  rw [List.nil_append] at hfifo
  exact hfifo ▸ List.mem_append_left _ hk

/-- What is read, pending and answered when the ring gives and holds what a queue does. -/
theorem reads_of_below (hmap : Codes map) (h : RingBuffer.Below keyQueueLen [] (es.flatMap (·.ops map))) {rs : List Keybrd}
    {q : KeyQueue} (hrun : run map .init es = some (rs, q)) :
    enqueued map es = rs.filter (·.keycode ≠ keyNone) ++ (waiting map es).map .of ∧
      (amInputKeybrd q).1 = ((waiting map es).map .of).headD .none := by
  have hnil : KeyQueue.init.contents = [] := KeyQueue.init.empty_iff.mp rfl
  obtain ⟨hrs, hq⟩ := Prod.mk.inj (Option.some.inj (hrun.symm.trans (run_eq (run_inRange hrun))))
  rw [← hnil] at h
  have hgiven := RingBuffer.given_eq h
  have hcontents := RingBuffer.run_contents h
  rw [hnil] at hgiven hcontents
  have hfifo := popped_append_after [] (es.flatMap (·.ops map))
  rw [List.nil_append] at hfifo
  have hpushed := @enqueued_eq map es hmap
  rw [← hfifo, List.map_append] at hpushed
  constructor
  · rw [hrs, hgiven, filter_reads fun k hk => popped_ne_none hmap hk, hpushed]
    rfl
  · have hanswer : (amInputKeybrd q).1 = .of ((waiting map es).head?.getD keyNone) := by
      rw [waiting, ← hcontents, ← hq, ← q.dequeue_contents.1]
      rfl
    rw [hanswer]
    cases waiting map es with
    | nil => rfl
    | cons k ks => rfl

/-- An event is one operation at most, so that the operations before any of them are those of some first events. -/
theorem exists_initial {ops : List (Fifo.Op Word)} (h : ops <+: es.flatMap (·.ops map)) :
    ∃ p, p <+: es ∧ p.flatMap (·.ops map) = ops := by
  induction es generalizing ops with
  | nil => exact ⟨[], List.prefix_refl [], (List.prefix_nil.mp h).symm⟩
  | cons e es ih =>
    rw [List.flatMap_cons] at h
    cases ops with
    | nil => exact ⟨[], List.nil_prefix, rfl⟩
    | cons op ops =>
      have hone : e.ops map = [] ∨ ∃ o, e.ops map = [o] := by
        cases e with
        | other => exact .inl rfl
        | keybrd => exact .inr ⟨_, rfl⟩
        | key s keydown =>
          rw [Event.ops]
          cases mapped map s with
          | none => exact .inl rfl
          | some code => exact .inr ⟨_, rfl⟩
      obtain ho | ⟨o, ho⟩ := hone
      · rw [ho, List.nil_append] at h
        obtain ⟨p, hp, hops⟩ := ih h
        exact ⟨e :: p, List.cons_prefix_cons.mpr ⟨rfl, hp⟩, by rw [List.flatMap_cons, ho, List.nil_append, hops]⟩
      · rw [ho, List.singleton_append] at h
        obtain ⟨rfl, htail⟩ := List.cons_prefix_cons.mp h
        obtain ⟨p, hp, hops⟩ := ih htail
        exact ⟨e :: p, List.cons_prefix_cons.mpr ⟨rfl, hp⟩, by rw [List.flatMap_cons, ho, List.singleton_append, hops]⟩

theorem ops_initial {p : List Event} (h : p <+: es) : p.flatMap (·.ops map) <+: es.flatMap (·.ops map) := by
  obtain ⟨t, rfl⟩ := h
  rw [List.flatMap_append]
  exact List.prefix_append _ _

theorem below_iff : RingBuffer.Below keyQueueLen [] (es.flatMap (·.ops map)) ↔
    ∀ p, p <+: es → (waiting map p).length < keyQueueLen := by
  constructor
  · exact fun h p hp => h _ (ops_initial hp)
  · intro h ops hops
    obtain ⟨p, hp, rfl⟩ := exists_initial hops
    exact h p hp

theorem InRange.initial {p : List Event} (h : InRange es) (hp : p <+: es) : InRange p :=
  fun s d hm => h s d (hp.subset hm)

/-- **The keys arrive in order** while less than 1024 of them wait. -/
theorem inOrder_of_below (hmap : Codes map) (hr : InRange es)
    (h : ∀ p, p <+: es → (waiting map p).length < keyQueueLen) : InOrder map es := by
  intro p hp
  obtain ⟨⟨rs, q⟩, hrun⟩ : ∃ r, run map .init p = some r := ⟨_, run_eq (hr.initial hp)⟩
  have hbelow := below_iff.mpr fun p' hp' => h p' (hp'.trans hp)
  obtain ⟨hkeys, hanswer⟩ := reads_of_below hmap hbelow hrun
  exact ⟨rs, q, hrun, _, hkeys, hanswer⟩

theorem InOrder.inRange (h : InOrder map es) : InRange es := by
  obtain ⟨rs, q, hrun, -⟩ := h es (List.prefix_refl es)
  exact run_inRange hrun

/-- **The ring looks empty as soon as 1024 keys wait**: they are not read. -/
theorem InOrder.below (hmap : Codes map) (h : InOrder map es) :
    ∀ p, p <+: es → (waiting map p).length < keyQueueLen := by
  rw [← below_iff]
  by_contra hfull
  obtain ⟨ops, a, hops, hbelow, hlen⟩ := RingBuffer.exists_full (by decide) hfull
  obtain ⟨p, hp, hpops⟩ := exists_initial hops
  obtain ⟨rs, q, hrun, pending, hkeys, hanswer⟩ := h p hp
  obtain ⟨hrs, hq⟩ := Prod.mk.inj (Option.some.inj (hrun.symm.trans (run_eq (run_inRange hrun))))
  rw [hpops, RingBuffer.run_append] at hq
  have hnil : KeyQueue.init.contents = [] := KeyQueue.init.empty_iff.mp rfl
  rw [← hnil] at hbelow hlen
  have hempty : q.front = q.rear := by
    rw [hq]
    refine (RingBuffer.enqueue_empty_iff _ a).mpr ?_
    rw [← RingBuffer.contents_length, RingBuffer.run_contents hbelow, hlen]
  have hpending : pending = [] := by
    cases pending with
    | nil => rfl
    | cons k ks =>
      have hk : k.keycode ≠ keyNone := enqueued_ne_none (hkeys ▸ List.mem_append_right _ List.mem_cons_self)
      have hnone : (amInputKeybrd q).1 = .none := by
        rw [amInputKeybrd, RingBuffer.dequeue, if_pos hempty]
        rfl
      rw [hnone] at hanswer
      exact absurd (congrArg Keybrd.keycode hanswer).symm hk
  have hgiven : KeyQueue.init.given (ops ++ [.push a]) = popped [] ops := by
    rw [RingBuffer.given_append, RingBuffer.given_eq hbelow, hnil]
    exact List.append_nil _
  obtain ⟨p', -, hops'⟩ := exists_initial ((List.prefix_append ops [.push a]).trans hops)
  have hreads := congrArg List.length hkeys
  rw [hpending, List.append_nil, enqueued_eq hmap, hpops, hrs, hpops, hgiven, ← hops',
    filter_reads fun k hk => popped_ne_none hmap hk, hops', List.length_map, List.length_map, pushed_append,
    List.length_append] at hreads
  have hfifo := congrArg List.length (popped_append_after [] ops)
  rw [List.nil_append, List.length_append] at hfifo
  have hpush : (pushed [Op.push a]).length = 1 := rfl
  omega

end Order

/-- The scancodes of SDL. -/
def sdlScancode : Key → Fin 256
  | .a => 4 | .b => 5 | .c => 6 | .d => 7 | .e => 8 | .f => 9 | .g => 10 | .h => 11 | .i => 12 | .j => 13 | .k => 14
  | .l => 15 | .m => 16 | .n => 17 | .o => 18 | .p => 19 | .q => 20 | .r => 21 | .s => 22 | .t => 23 | .u => 24
  | .v => 25 | .w => 26 | .x => 27 | .y => 28 | .z => 29
  | .n1 => 30 | .n2 => 31 | .n3 => 32 | .n4 => 33 | .n5 => 34 | .n6 => 35 | .n7 => 36 | .n8 => 37 | .n9 => 38 | .n0 => 39
  | .return => 40 | .escape => 41 | .backspace => 42 | .tab => 43 | .space => 44 | .minus => 45 | .equals => 46
  | .leftbracket => 47 | .rightbracket => 48 | .backslash => 49 | .semicolon => 51 | .apostrophe => 52 | .grave => 53
  | .comma => 54 | .period => 55 | .slash => 56 | .capslock => 57
  | .f1 => 58 | .f2 => 59 | .f3 => 60 | .f4 => 61 | .f5 => 62 | .f6 => 63 | .f7 => 64 | .f8 => 65 | .f9 => 66
  | .f10 => 67 | .f11 => 68 | .f12 => 69
  | .insert => 73 | .home => 74 | .pageup => 75 | .delete => 76 | .end => 77 | .pagedown => 78
  | .right => 79 | .left => 80 | .down => 81 | .up => 82 | .application => 101
  | .lctrl => 224 | .lshift => 225 | .lalt => 226 | .rctrl => 228 | .rshift => 229 | .ralt => 230

/-- **The keys arrive in order exactly in the runs** whose scancodes are those of the map and in which less than 1024
keys wait at any time. -/
theorem inOrder_iff (scancode : Key → Fin 256) (es : List Event) : InOrder (keymap scancode) es ↔
    InRange es ∧ ∀ p, p <+: es → (waiting (keymap scancode) p).length < keyQueueLen :=
  ⟨fun h => ⟨h.inRange, h.below fun _ hi => keymap_lt scancode hi⟩,
    fun h => inOrder_of_below (fun _ hi => keymap_lt scancode hi) h.1 h.2⟩

/-- The map has a code for the last key of the list, whatever its scancode is. -/
theorem mapped_pagedown : mapped (keymap sdlScancode) 78 = some Key.pagedown.code := by
  have hlast : (keymap sdlScancode)[78] = Key.pagedown.code := by
    rw [keymap, show Key.all = Key.all.dropLast ++ [Key.pagedown] from rfl, List.foldl_concat]
    exact Vector.getElem_set_self _
  have hne : (keymap sdlScancode)[78] ≠ keyNone := by
    rw [hlast]
    decide
  rw [mapped_ne (by decide) hne, hlast]

/-- 1024 times PageDown, before the program reads. -/
theorem replicate_not_inOrder :
    ¬ InOrder (keymap sdlScancode) (List.replicate keyQueueLen (.key 78 true)) := by
  intro h
  have hwaiting : ∀ (n : ℕ) (l : List Word), (after l ((List.replicate n (Event.key 78 true)).flatMap
      (·.ops (keymap sdlScancode)))).length = l.length + n := by
    intro n
    induction n with
    | zero => exact fun _ => rfl
    | succ n ih =>
      intro l
      have hop : (Event.key 78 true).ops (keymap sdlScancode) = [.push (keyEvent Key.pagedown.code true)] := by
        rw [Event.ops, mapped_pagedown]
        rfl
      rw [List.replicate_succ, List.flatMap_cons, after_append, ih, hop, after, after, List.length_append]
      show l.length + 1 + n = _
      omega
  have hlt := h.below (fun _ hi => keymap_lt _ hi) _ (List.prefix_refl _)
  rw [waiting, hwaiting] at hlt
  exact absurd hlt (by decide)

end Am.Native.Input
