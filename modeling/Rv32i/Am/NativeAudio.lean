import Mathlib.Data.List.Basic
import Mathlib.Tactic

/-!
# AM on the native platform: audio

`src/native/ioe/audio.c`: `__am_audio_play` writes the bytes of a buffer into a pipe, and the callback of the audio
thread reads them from it.  The two run side by side without a lock: a step is a call of `read` or `write` with any
result, or one read or write of `count`, with what the thread does on its own before the next one.

* `Inv`, `inv_run` — the bytes in flight and the count, while no loop transfers bytes a second time and no store of
  `count` comes between two accesses of the other thread that belong together;
* `audio_run` — then what is heard is what was played;
* `unfaithful_runs` — each of the conditions is needed.
-/

namespace Am.Native.Audio

abbrev Byte := BitVec 8

/-! ## The two threads -/

/-- Where `audio_write` is. -/
inductive Writer
  | idle
  /-- At the test of its loop. -/
  | loop (buf : List Byte) (nwrite : ℤ)
  /-- `write` has returned `n`. -/
  | wrote (buf : List Byte) (nwrite n : ℤ)
  /-- `count += n` has loaded `c`. -/
  | loaded (buf : List Byte) (nwrite n c : ℤ)
  deriving DecidableEq

/-- Where the callback `audio_play` is. -/
inductive Reader
  | idle
  /-- Before `count < len`. -/
  | called (stream : List Byte)
  /-- Before `nread = count`. -/
  | less (stream : List Byte)
  /-- At the test of its loop. -/
  | loop (nread b : ℤ) (stream : List Byte)
  /-- `count -= nread` has loaded `c`. -/
  | loaded (nread c : ℤ) (stream : List Byte)
  deriving DecidableEq

/-- The pipe, `count`, the two threads, and what has happened so far: the bytes of all played buffers, the bytes
that `write` has put into the pipe, and the streams of the callbacks with their `nread`. -/
structure State where
  pipe : List Byte
  count : ℤ
  writer : Writer
  reader : Reader
  played : List Byte
  sent : List Byte
  handed : List (List Byte × ℤ)
  deriving DecidableEq

/-- After `__am_audio_ctrl`. -/
def State.init : State where
  pipe := []
  count := 0
  writer := .idle
  reader := .idle
  played := []
  sent := []
  handed := []

/-- `int len = ctl->buf.end - ctl->buf.start` -/
def lenOf (buf : List Byte) : ℤ := (BitVec.ofNat 32 buf.length).toInt

/-- `stream`, with its end behind `nread` bytes filled with zeros. -/
def padded (stream : List Byte) (nread : ℤ) : List Byte :=
  stream.take nread.toNat ++ List.replicate (stream.length - nread.toNat) 0

inductive Event
  /-- `__am_audio_play` -/
  | play (buf : List Byte)
  /-- `write` returns the number of bytes, or `-1` (`none`). -/
  | write (n : Option ℕ)
  /-- `if (n == -1) n = 0;`, and `count += n` loads `count`. -/
  | load
  /-- `count += n` stores; `nwrite += n;` -/
  | store
  /-- `audio_write` returns. -/
  | ret
  /-- `audio_play` is called. -/
  | callback (stream : List Byte)
  /-- `if (count < len)` -/
  | test
  /-- `nread = count;` -/
  | assign
  /-- `read` returns the number of bytes, or `-1` (`none`). -/
  | read (n : Option ℕ)
  /-- The loop ends, and `count -= nread` loads `count`. -/
  | discount
  /-- `count -= nread` stores; the padding, and the return of `audio_play`. -/
  | finish

/-- `none` where the event cannot happen.  The pipe takes `cap` bytes; `read` and `write` may transfer fewer bytes
than they are asked for. -/
def step (cap : ℕ) (s : State) : Event → Option State
  | .play buf =>
    match s.writer with
    | .idle => some { s with writer := .loop buf 0, played := s.played ++ buf }
    | _ => none
  | .write r =>
    match s.writer with
    | .loop buf nwrite =>
      if nwrite < lenOf buf then
        match r with
        | none => some { s with writer := .wrote buf nwrite (-1) }
        | some n =>
          if 0 < n ∧ n ≤ lenOf buf ∧ s.pipe.length + n ≤ cap then
            some { s with
              pipe := s.pipe ++ buf.take n
              sent := s.sent ++ buf.take n
              writer := .wrote buf nwrite n }
          else none
      else none
    | _ => none
  | .load =>
    match s.writer with
    | .wrote buf nwrite n => some { s with writer := .loaded buf nwrite (if n = -1 then 0 else n) s.count }
    | _ => none
  | .store =>
    match s.writer with
    | .loaded buf nwrite n c => some { s with count := c + n, writer := .loop buf (nwrite + n) }
    | _ => none
  | .ret =>
    match s.writer with
    | .loop buf nwrite => if nwrite < lenOf buf then none else some { s with writer := .idle }
    | _ => none
  | .callback stream =>
    match s.reader with
    | .idle => some { s with reader := .called stream }
    | _ => none
  | .test =>
    match s.reader with
    | .called stream =>
      some { s with reader := if s.count < stream.length then .less stream else .loop stream.length 0 stream }
    | _ => none
  | .assign =>
    match s.reader with
    | .less stream => some { s with reader := .loop s.count 0 stream }
    | _ => none
  | .read r =>
    match s.reader with
    | .loop nread b stream =>
      if b < nread then
        match r with
        | none => some s
        | some n =>
          if 0 < n ∧ n ≤ nread ∧ n ≤ s.pipe.length then
            some { s with
              pipe := s.pipe.drop n
              -- to the start of the stream; what goes past its end is not handed to SDL
              reader := .loop nread (b + n) ((s.pipe.take n ++ stream.drop n).take stream.length) }
          else none
      else none
    | _ => none
  | .discount =>
    match s.reader with
    | .loop nread b stream => if b < nread then none else some { s with reader := .loaded nread s.count stream }
    | _ => none
  | .finish =>
    match s.reader with
    | .loaded nread c stream =>
      some { s with
        count := c - nread
        handed := s.handed ++ [(padded stream nread, nread)]
        reader := .idle }
    | _ => none

/-- `__am_audio_status` -/
def audioStatus (s : State) : ℤ := s.count

/-- Runs from the start, of events that meet a condition in the state they happen in. -/
inductive Runs (cap : ℕ) (P : State → Event → Prop) : List Event → State → Prop
  | init : Runs cap P [] .init
  | snoc {es : List Event} {s s' : State} {e : Event} : Runs cap P es s → step cap s e = some s' → P s e →
      Runs cap P (es ++ [e]) s'

/-! ## What is to hold -/

/-- The bytes handed to SDL that are no padding. -/
def State.heard (s : State) : List Byte := s.handed.flatMap fun h => h.1.take h.2.toNat

/-- The bytes that are written and not yet counted. -/
def Writer.uncounted : Writer → ℤ
  | .wrote _ _ n => if n = -1 then 0 else n
  | .loaded _ _ n _ => n
  | _ => 0

/-- The bytes that the callback under way has read, and not yet discounted. -/
def Reader.taken : Reader → ℤ
  | .loop _ b _ => b
  | .loaded nread _ _ => nread
  | _ => 0

/-- What is heard is the start of what was played, every buffer that is through is in the pipe once, and `count` is
the number of bytes in the pipe, but for the transfers that are under way. -/
structure Faithful (s : State) : Prop where
  heard : s.heard <+: s.played
  sent : s.sent <+: s.played
  enqueued : s.writer = .idle → s.sent = s.played
  count : audioStatus s + s.writer.uncounted = s.pipe.length + s.reader.taken

/-- A loop does not transfer bytes a second time, and the length of a buffer is an `int`. -/
def Once (s : State) : Event → Prop
  | .play buf => buf.length < 2 ^ 31
  | .write (some _) =>
    match s.writer with
    | .loop _ nwrite => nwrite = 0
    | _ => True
  | .read (some _) =>
    match s.reader with
    | .loop _ b _ => b = 0
    | _ => True
  | _ => True

/-- No thread changes `count` while the other is about to store what it has computed from the value before, and
`audio_write` does not bring it above `len` between the two reads of `if (count < len) nread = count;`. -/
def NoRace (s : State) : Event → Prop
  | .store =>
    match s.writer, s.reader with
    | .loaded _ _ n c, .less stream => c + n ≤ stream.length
    | .loaded _ _ n _, .loaded _ _ _ => n = 0
    | _, _ => True
  | .finish =>
    match s.reader, s.writer with
    | .loaded nread _ _, .loaded _ _ _ _ => nread = 0
    | _, _ => True
  | _ => True

def Orderly (s : State) (e : Event) : Prop := Once s e ∧ NoRace s e

instance (s : State) (e : Event) : Decidable (Once s e) := by
  unfold Once; split <;> (try split) <;> infer_instance

instance (s : State) (e : Event) : Decidable (NoRace s e) := by
  unfold NoRace; split <;> (try split) <;> infer_instance

instance (s : State) (e : Event) : Decidable (Orderly s e) := by
  unfold Orderly; infer_instance

/-! ## The invariant -/

/-- What `audio_write` has not yet put into the pipe. -/
def Writer.unsent : Writer → List Byte
  | .idle => []
  | .loop buf nwrite => buf.drop nwrite.toNat
  | .wrote buf nwrite n | .loaded buf nwrite n _ => buf.drop (nwrite.toNat + n.toNat)

/-- What the callback under way has read. -/
def Reader.inHand : Reader → List Byte
  | .loop _ b stream => stream.take b.toNat
  | .loaded nread _ stream => stream.take nread.toNat
  | _ => []

/-- What the callback under way has yet to read. -/
def Reader.toRead : Reader → ℤ
  | .loop nread b _ => nread - b
  | _ => 0

/-- The counters of `audio_write`; what it has loaded is `count`. -/
def Writer.Ok (count : ℤ) : Writer → Prop
  | .idle => True
  | .loop buf nwrite => buf.length < 2 ^ 31 ∧ 0 ≤ nwrite ∧ nwrite ≤ buf.length
  | .wrote buf nwrite n => buf.length < 2 ^ 31 ∧ 0 ≤ nwrite ∧ nwrite ≤ buf.length ∧
      (n = -1 ∨ (nwrite = 0 ∧ 0 ≤ n ∧ n ≤ buf.length))
  | .loaded buf nwrite n c => buf.length < 2 ^ 31 ∧ 0 ≤ nwrite ∧ 0 ≤ n ∧ nwrite + n ≤ buf.length ∧ c = count

/-- The counters of `audio_play`; what it has loaded is `count`. -/
def Reader.Ok (count : ℤ) : Reader → Prop
  | .idle | .called _ => True
  | .less stream => count ≤ stream.length
  | .loop nread b stream => 0 ≤ b ∧ b ≤ nread ∧ nread ≤ stream.length
  | .loaded nread c stream => 0 ≤ nread ∧ nread ≤ stream.length ∧ c = count

structure Inv (s : State) : Prop where
  flow : s.heard ++ s.reader.inHand ++ s.pipe ++ s.writer.unsent = s.played
  sent : s.sent ++ s.writer.unsent = s.played
  count : audioStatus s + s.writer.uncounted = s.pipe.length + s.reader.taken
  /-- What is to be read is in the pipe, and counted. -/
  room : s.writer.uncounted + s.reader.toRead ≤ s.pipe.length
  writer : s.writer.Ok s.count
  reader : s.reader.Ok s.count

theorem lenOf_eq {buf : List Byte} (h : buf.length < 2 ^ 31) : lenOf buf = buf.length := by
  have hnat : (BitVec.ofNat 32 buf.length).toNat = buf.length := by
    rw [BitVec.toNat_ofNat, Nat.mod_eq_of_lt (by omega)]
  unfold lenOf
  rw [BitVec.toInt_eq_toNat_of_lt (by omega), hnat]

theorem inv_init : Inv .init := ⟨rfl, rfl, rfl, le_rfl, trivial, trivial⟩

theorem Inv.faithful {s : State} (h : Inv s) : Faithful s := by
  refine ⟨⟨s.reader.inHand ++ s.pipe ++ s.writer.unsent, ?_⟩, ⟨s.writer.unsent, h.sent⟩, fun hidle => ?_, h.count⟩
  · rw [← List.append_assoc, ← List.append_assoc]
    exact h.flow
  · have hsent := h.sent
    rw [hidle] at hsent
    unfold Writer.unsent at hsent
    simpa using hsent

/-- What `count` is before the callback reads anything. -/
theorem Inv.count_eq {s : State} (h : Inv s) (htaken : s.reader.taken = 0) (hread : s.reader.toRead = 0) :
    0 ≤ s.count ∧ s.count + s.writer.uncounted = s.pipe.length := by
  have hcount : s.count + s.writer.uncounted = s.pipe.length + s.reader.taken := h.count
  have hroom := h.room
  omega

/-! ## Steps of the writer -/

section Steps

variable {cap : ℕ} {s s' : State}

theorem Inv.play {buf : List Byte} (h : Inv s) (hstep : step cap s (.play buf) = some s')
    (hlen : buf.length < 2 ^ 31) : Inv s' := by
  obtain ⟨pipe, count, writer, reader, played, sent, handed⟩ := s
  cases writer with
  | idle =>
    cases hstep
    have hflow := h.flow
    have hsent := h.sent
    simp only [Writer.unsent, List.append_nil] at hflow hsent
    refine ⟨?_, ?_, h.count, h.room, ⟨hlen, le_rfl, Int.natCast_nonneg _⟩, h.reader⟩
    · exact congrArg (· ++ buf) hflow
    · exact congrArg (· ++ buf) hsent
  | loop buf nwrite | wrote buf nwrite n | loaded buf nwrite n c => cases hstep

theorem Inv.write {r : Option ℕ} (h : Inv s) (hstep : step cap s (.write r) = some s') (honce : Once s (.write r)) :
    Inv s' := by
  obtain ⟨pipe, count, writer, reader, played, sent, handed⟩ := s
  cases writer with
  | idle | wrote buf nwrite n | loaded buf nwrite n c => cases hstep
  | loop buf nwrite =>
    obtain ⟨hlen, hpos, hle⟩ := h.writer
    simp only [step] at hstep
    split at hstep
    · cases r with
      | none =>
        cases hstep
        exact ⟨h.flow, h.sent, h.count, h.room, ⟨hlen, hpos, hle, .inl rfl⟩, h.reader⟩
      | some n =>
        obtain rfl : nwrite = 0 := honce
        dsimp only at hstep
        split at hstep
        · rename_i hn
          cases hstep
          rw [lenOf_eq hlen] at hn
          have hcut : buf.take n ++ buf.drop (0 + n) = buf := by rw [Nat.zero_add, List.take_append_drop]
          have hn1 : (n : ℤ) ≠ -1 := by omega
          have htake : (buf.take n).length = n := List.length_take_of_le (by omega)
          have hflow := h.flow
          have hsent := h.sent
          have hcount := h.count
          have hroom := h.room
          simp only [Writer.unsent, State.heard, Int.toNat_zero, List.drop_zero] at hflow hsent
          simp only [Writer.uncounted, audioStatus] at hcount hroom
          refine ⟨?_, ?_, ?_, ?_, ⟨hlen, le_rfl, hle, .inr ⟨rfl, by omega, by omega⟩⟩, h.reader⟩
          · simp only [Writer.unsent, State.heard, Int.toNat_zero, Int.toNat_natCast]
            rw [← List.append_assoc, List.append_assoc _ (buf.take n), hcut]
            exact hflow
          · simp only [Writer.unsent, Int.toNat_zero, Int.toNat_natCast]
            rw [List.append_assoc, hcut]
            exact hsent
          · simp only [Writer.uncounted, audioStatus, if_neg hn1, List.length_append, htake]
            push_cast
            omega
          · simp only [Writer.uncounted, if_neg hn1, List.length_append, htake]
            push_cast
            omega
        · cases hstep
    · cases hstep

theorem Inv.load (h : Inv s) (hstep : step cap s .load = some s') : Inv s' := by
  obtain ⟨pipe, count, writer, reader, played, sent, handed⟩ := s
  cases writer with
  | idle | loop buf nwrite | loaded buf nwrite n c => cases hstep
  | wrote buf nwrite n =>
    obtain ⟨hlen, hpos, hle, hn⟩ := h.writer
    cases hstep
    obtain ⟨k, hk⟩ : ∃ k, k = if n = -1 then 0 else n := ⟨_, rfl⟩
    have hk0 : 0 ≤ k ∧ nwrite + k ≤ buf.length ∧ k.toNat = n.toNat := by
      split at hk <;> omega
    have hflow := h.flow
    have hsent := h.sent
    simp only [Writer.unsent] at hflow hsent
    refine ⟨?_, ?_, h.count, h.room, ⟨hlen, hpos, hk ▸ hk0.1, hk ▸ hk0.2.1, rfl⟩, h.reader⟩
    · simp only [Writer.unsent, ← hk, hk0.2.2]
      exact hflow
    · simp only [Writer.unsent, ← hk, hk0.2.2]
      exact hsent

theorem Inv.store (h : Inv s) (hstep : step cap s .store = some s') (hrace : NoRace s .store) : Inv s' := by
  obtain ⟨pipe, count, writer, reader, played, sent, handed⟩ := s
  cases writer with
  | idle | loop buf nwrite | wrote buf nwrite n => cases hstep
  | loaded buf nwrite n c =>
    obtain ⟨hlen, hpos, hn, hle, hc⟩ := h.writer
    obtain rfl : c = count := hc
    cases hstep
    have hdrop : (nwrite + n).toNat = nwrite.toNat + n.toNat := by omega
    have hcount := h.count
    have hroom := h.room
    simp only [Writer.uncounted, audioStatus] at hcount hroom
    refine ⟨?_, ?_, ?_, ?_, ⟨hlen, by omega, by omega⟩, ?_⟩
    · simp only [Writer.unsent, hdrop]
      exact h.flow
    · simp only [Writer.unsent, hdrop]
      exact h.sent
    · simp only [Writer.uncounted, audioStatus]
      omega
    · simp only [Writer.uncounted]
      omega
    · cases reader with
      | idle | called stream | loop nread b stream => exact h.reader
      | less stream => exact hrace
      | loaded nread c' stream =>
        obtain rfl : n = 0 := hrace
        obtain ⟨hnread, hstream, hc'⟩ := h.reader
        exact ⟨hnread, hstream, hc'.trans (add_zero c).symm⟩

theorem Inv.ret (h : Inv s) (hstep : step cap s .ret = some s') : Inv s' := by
  obtain ⟨pipe, count, writer, reader, played, sent, handed⟩ := s
  cases writer with
  | idle | wrote buf nwrite n | loaded buf nwrite n c => cases hstep
  | loop buf nwrite =>
    obtain ⟨hlen, hpos, hle⟩ := h.writer
    simp only [step] at hstep
    split at hstep
    · cases hstep
    · rename_i hdone
      cases hstep
      rw [lenOf_eq hlen] at hdone
      have hdrop : buf.drop nwrite.toNat = [] := List.drop_of_length_le (by omega)
      have hflow := h.flow
      have hsent := h.sent
      simp only [Writer.unsent, hdrop] at hflow hsent
      exact ⟨hflow, hsent, h.count, h.room, trivial, h.reader⟩

/-! ## Steps of the callback -/

theorem Inv.callback {stream : List Byte} (h : Inv s) (hstep : step cap s (.callback stream) = some s') : Inv s' := by
  obtain ⟨pipe, count, writer, reader, played, sent, handed⟩ := s
  cases reader with
  | idle =>
    cases hstep
    exact ⟨h.flow, h.sent, h.count, h.room, h.writer, trivial⟩
  | called stream | less stream | loop nread b stream | loaded nread c stream => cases hstep

theorem Inv.test (h : Inv s) (hstep : step cap s .test = some s') : Inv s' := by
  obtain ⟨pipe, count, writer, reader, played, sent, handed⟩ := s
  cases reader with
  | idle | less stream | loop nread b stream | loaded nread c stream => cases hstep
  | called stream =>
    obtain ⟨hpos, hcount⟩ := h.count_eq rfl rfl
    dsimp only at hpos hcount
    simp only [step] at hstep
    split at hstep
    · rename_i hlt
      cases hstep
      exact ⟨h.flow, h.sent, h.count, h.room, h.writer, le_of_lt hlt⟩
    · cases hstep
      refine ⟨h.flow, h.sent, h.count, ?_, h.writer, ⟨le_rfl, Int.natCast_nonneg _, le_rfl⟩⟩
      simp only [Reader.toRead]
      omega

theorem Inv.assign (h : Inv s) (hstep : step cap s .assign = some s') : Inv s' := by
  obtain ⟨pipe, count, writer, reader, played, sent, handed⟩ := s
  cases reader with
  | idle | called stream | loop nread b stream | loaded nread c stream => cases hstep
  | less stream =>
    obtain ⟨hpos, hcount⟩ := h.count_eq rfl rfl
    dsimp only at hpos hcount
    have hle : count ≤ stream.length := h.reader
    cases hstep
    refine ⟨h.flow, h.sent, h.count, ?_, h.writer, ⟨le_rfl, hpos, hle⟩⟩
    simp only [Reader.toRead]
    omega

theorem Inv.read {r : Option ℕ} (h : Inv s) (hstep : step cap s (.read r) = some s') (honce : Once s (.read r)) :
    Inv s' := by
  obtain ⟨pipe, count, writer, reader, played, sent, handed⟩ := s
  cases reader with
  | idle | called stream | less stream | loaded nread c stream => cases hstep
  | loop nread b stream =>
    obtain ⟨hpos, hle, hlen⟩ := h.reader
    simp only [step] at hstep
    split at hstep
    · cases r with
      | none =>
        cases hstep
        exact h
      | some n =>
        obtain rfl : b = 0 := honce
        dsimp only at hstep
        split at hstep
        · rename_i hn
          cases hstep
          obtain ⟨hn0, hnr, hnp⟩ := hn
          have hflow := h.flow
          have hcount := h.count
          have hroom := h.room
          simp only [Reader.toRead, Reader.taken, audioStatus] at hcount hroom
          simp only [Reader.inHand, Int.toNat_zero, List.take_zero, List.append_nil] at hflow
          have htake : (pipe.take n).length = n := List.length_take_of_le hnp
          have hdrop : (pipe.drop n).length = pipe.length - n := List.length_drop
          have hlength : (pipe.take n ++ stream.drop n).length = stream.length := by
            rw [List.length_append, htake, List.length_drop]
            omega
          have hwhole : (pipe.take n ++ stream.drop n).take stream.length = pipe.take n ++ stream.drop n :=
            List.take_of_length_le hlength.le
          have hzero : (0 : ℤ) + n = n := zero_add _
          refine ⟨?_, h.sent, ?_, ?_, h.writer, ?_⟩
          · simp only [Reader.inHand, hwhole, hzero, Int.toNat_natCast]
            rw [List.take_left' htake, List.append_assoc _ (pipe.take n), List.take_append_drop]
            exact hflow
          · simp only [Reader.taken, audioStatus, hdrop]
            push_cast [hnp]
            omega
          · simp only [Reader.toRead, hdrop]
            push_cast [hnp]
            omega
          · simp only [Reader.Ok, hwhole, hlength]
            omega
        · cases hstep
    · cases hstep

theorem Inv.discount (h : Inv s) (hstep : step cap s .discount = some s') : Inv s' := by
  obtain ⟨pipe, count, writer, reader, played, sent, handed⟩ := s
  cases reader with
  | idle | called stream | less stream | loaded nread c stream => cases hstep
  | loop nread b stream =>
    obtain ⟨hpos, hle, hlen⟩ := h.reader
    simp only [step] at hstep
    split at hstep
    · cases hstep
    · obtain rfl : nread = b := by omega
      cases hstep
      have hroom := h.room
      simp only [Reader.toRead, sub_self] at hroom
      exact ⟨h.flow, h.sent, h.count, hroom, h.writer, ⟨hpos, hlen, rfl⟩⟩

theorem Inv.finish (h : Inv s) (hstep : step cap s .finish = some s') (hrace : NoRace s .finish) : Inv s' := by
  obtain ⟨pipe, count, writer, reader, played, sent, handed⟩ := s
  cases reader with
  | idle | called stream | less stream | loop nread b stream => cases hstep
  | loaded nread c stream =>
    obtain ⟨hpos, hlen, hc⟩ := h.reader
    obtain rfl : c = count := hc
    cases hstep
    have hflow := h.flow
    have hcount := h.count
    simp only [Reader.taken, audioStatus] at hcount
    have hheard : (padded stream nread).take nread.toNat = stream.take nread.toNat := by
      unfold padded
      rw [List.take_left' (List.length_take_of_le (by omega))]
    refine ⟨?_, h.sent, ?_, h.room, ?_, trivial⟩
    · simp only [State.heard, Reader.inHand, List.flatMap_append, List.flatMap_singleton, hheard,
        List.append_nil] at hflow ⊢
      exact hflow
    · simp only [Reader.taken, audioStatus]
      omega
    · cases writer with
      | idle | loop buf nwrite | wrote buf nwrite n => exact h.writer
      | loaded buf nwrite n c' =>
        obtain rfl : nread = 0 := hrace
        obtain ⟨hbuf, hnwrite, hn, hle, hc'⟩ := h.writer
        exact ⟨hbuf, hnwrite, hn, hle, hc'.trans (sub_zero c).symm⟩

theorem Inv.step {e : Event} (h : Inv s) (hstep : Audio.step cap s e = some s') (horderly : Orderly s e) : Inv s' := by
  obtain ⟨honce, hrace⟩ := horderly
  cases e with
  | play buf => exact h.play hstep honce
  | write r => exact h.write hstep honce
  | load => exact h.load hstep
  | store => exact h.store hstep hrace
  | ret => exact h.ret hstep
  | callback stream => exact h.callback hstep
  | test => exact h.test hstep
  | assign => exact h.assign hstep
  | read r => exact h.read hstep honce
  | discount => exact h.discount hstep
  | finish => exact h.finish hstep hrace

end Steps

/-! ## Runs -/

theorem inv_run {cap : ℕ} {es : List Event} {s : State} (h : Runs cap Orderly es s) : Inv s := by
  induction h with
  | init => exact inv_init
  | snoc _ hstep horderly ih => exact ih.step hstep horderly

/-- **While no loop transfers bytes a second time and no update of `count` is disturbed, what is heard is what was
played.** -/
theorem audio_run (cap : ℕ) (es : List Event) (s : State) (h : Runs cap Orderly es s) : Faithful s :=
  (inv_run h).faithful

/-- What some events lead to, if each of them meets the condition. -/
def runOf (cap : ℕ) (P : State → Event → Prop) [∀ s e, Decidable (P s e)] : State → List Event → Option State
  | s, [] => some s
  | s, e :: es => if P s e then step cap s e >>= fun s' => runOf cap P s' es else none

theorem runs_of_runOf {cap : ℕ} {P : State → Event → Prop} [∀ s e, Decidable (P s e)] {es' : List Event} {s' : State}
    (es : List Event) : ∀ {before : List Event} {s : State}, Runs cap P before s → runOf cap P s es = some s' →
      before ++ es = es' → Runs cap P es' s' := by
  induction es with
  | nil =>
    rintro before s hruns ⟨⟩ rfl
    rwa [List.append_nil]
  | cons e es ih =>
    intro before s hruns hrun hes
    rw [runOf] at hrun
    split at hrun
    · rename_i hP
      obtain ⟨s₁, hstep, hrun⟩ := Option.bind_eq_some_iff.mp hrun
      exact ih (hruns.snoc hstep hP) hrun (by rw [List.append_assoc]; exact hes)
    · cases hrun

/-- Three bytes at the second try, and a callback that sees `count` before and after them. -/
def retried : List Event :=
  [.play [1, 2, 3], .write none, .load, .callback [7, 7], .test, .store, .write (some 3), .assign, .discount, .load,
    .finish, .store, .callback [7, 7, 7, 7], .test, .assign, .read (some 3), .discount, .finish]

theorem audio_run_retried : ∃ s, Faithful s ∧ s.handed = [([0, 0], 0), ([1, 2, 3, 0], 3)] :=
  have hrun : Runs 4096 Orderly retried _ := runs_of_runOf retried .init rfl rfl
  ⟨_, audio_run _ _ _ hrun, rfl⟩

/-- `write` transfers one byte of two, and then both. -/
def shortWrite : List Event := [.play [1, 2], .write (some 1), .load, .store, .write (some 2), .load, .store]

/-- `read` transfers one byte of two, twice. -/
def shortRead : List Event :=
  [.play [1, 2], .write (some 2), .load, .store, .ret, .callback [0, 0], .test, .read (some 1), .read (some 1),
    .discount, .finish]

/-- The callback stores `count` between the load and the store of `audio_write`. -/
def lostUpdate : List Event :=
  [.play [1], .write (some 1), .load, .store, .ret, .play [2], .write (some 1), .load, .callback [0], .test,
    .read (some 1), .discount, .finish, .store]

/-- `count` grows between the two reads of the callback. -/
def lateGrowth : List Event :=
  [.callback [0], .test, .play [1, 2], .write (some 2), .load, .store, .ret, .assign, .read (some 2), .discount,
    .finish, .play [3], .write (some 1), .load, .store, .callback [0], .test, .read (some 1), .discount, .finish]

/-- **None of the conditions can be left out**: bytes are enqueued twice, bytes are overwritten in the stream, `count` is
not what is in the pipe, and bytes are read past the end of the stream. -/
theorem unfaithful_runs :
    (∃ s, Runs 4096 (fun _ _ => True) shortWrite s ∧ s.played = [1, 2] ∧ s.sent = [1, 1, 2] ∧ ¬ Faithful s) ∧
      (∃ s, Runs 4096 (fun _ _ => True) shortRead s ∧ s.played = [1, 2] ∧ s.heard = [2, 0] ∧ ¬ Faithful s) ∧
      (∃ s, Runs 4096 Once lostUpdate s ∧ s.pipe = [2] ∧ s.count = 2 ∧ ¬ Faithful s) ∧
      ∃ s, Runs 4096 Once lateGrowth s ∧ s.played = [1, 2, 3] ∧ s.heard = [1, 3] ∧ ¬ Faithful s := by
  refine ⟨⟨_, runs_of_runOf shortWrite .init rfl rfl, rfl, rfl, fun hf => ?_⟩,
    ⟨_, runs_of_runOf shortRead .init rfl rfl, rfl, rfl, fun hf => ?_⟩,
    ⟨_, runs_of_runOf lostUpdate .init rfl rfl, rfl, rfl, fun hf => ?_⟩,
    ⟨_, runs_of_runOf lateGrowth .init rfl rfl, rfl, rfl, fun hf => ?_⟩⟩
  · exact absurd hf.sent.length_le (by decide)
  · exact absurd (List.prefix_iff_eq_take.mp hf.heard) (by decide)
  · exact absurd hf.count (by decide)
  · exact absurd (List.prefix_iff_eq_take.mp hf.heard) (by decide)

end Am.Native.Audio
