import Rv32i.QemuDiff.Packet

/-!
# The GDB client: commands and replies

`gdb_send`, `gdb_recv` and `gdb_start_noack` of `tools/qemu-diff/src/protocol.c`: a command is sent until it is
acknowledged, and a reply is asked for until its checksum is right.

* `Conn`, `gdbSend`, `gdbRecv`, `gdbStartNoack` — the connection and the functions of the client;
* `Attempt` — a packet as it comes, with what comes before it;
* `gdbSend_until`, `gdbRecv_attempts` — how often each side is asked, and what is left to be read;
* `request_answered` — **a command is answered with the reply of the first packet that is not damaged**, however often
  the command and the reply were damaged before;
* `gdbStartNoack_answered`, `request_noack` — acknowledgements are given up if the other side agrees, and a command is
  then sent once;
* `Session`, `Answered` — what the other side makes of the bytes of the client, and that it answers some commands;
* `Answered.session_iff` — **the other side obeys exactly these commands, each once**.
-/

namespace QemuDiff

/-- `struct gdb_conn`: what will be read from `in`, what has been written to `out`, and whether packets are
acknowledged. -/
structure Conn where
  input : List Byte
  output : List Byte
  ack : Bool

/-! ## Sending -/

/-- The loop of `gdb_send`.  At the end of the input the command is sent until the connection refuses it. -/
def sendLoop (command : List Byte) : List Byte → List Byte → Exec (List Byte × List Byte)
  | [], _ => .error .closed
  | c :: input, output =>
    let output := output ++ sendPacket command
    if c = chr '+' then .ok (input, output) else sendLoop command input output

def gdbSend (conn : Conn) (command : List Byte) : Exec Conn :=
  if conn.ack then do
    let (input, output) ← sendLoop command conn.input conn.output
    return { conn with input, output }
  else .ok { conn with output := conn.output ++ sendPacket command }

/-! ## Receiving -/

/-- Something has been read with every packet. -/
theorem recvLoop_shorter (n : ℕ) : ∀ {s : Recv} {input : List Byte} {p : Packet} {rest : List Byte}, s.Fits →
    input.length ≤ n → recvLoop s input = .ok (p, rest) → rest.length < input.length := by
  have hfgetc : ∀ xs : List Byte, (fgetc xs).2.length ≤ xs.length := by
    intro xs
    cases xs
    · exact le_rfl
    · exact Nat.le_succ _
  induction n with
  | zero =>
    intro s input p rest _ hlen h
    rw [List.length_eq_zero_iff.mp (Nat.le_zero.mp hlen)] at h
    cases h
  | succ n ih =>
    intro s input p rest hfits hlen h
    cases input with
    | nil => cases h
    | cons c input =>
      have hinput : input.length ≤ n := Nat.le_of_succ_le_succ hlen
      by_cases hend : c = chr '#'
      · rw [hend, recvLoop_end, hfits.finish] at h
        cases h
        exact Nat.lt_succ_of_le ((hfgetc _).trans (hfgetc _))
      · obtain ⟨s', rest', hfits', heq, rfl | ⟨c2, -, rfl⟩⟩ := recvLoop_turn hfits hend input
        · rw [heq] at h
          exact (ih hfits' hinput h).trans (Nat.lt_succ_self _)
        · rw [heq] at h
          exact (ih hfits' ((Nat.le_succ _).trans hinput) h).trans
            ((Nat.lt_succ_self _).trans (Nat.lt_succ_self _))

theorem skipTo_length (input : List Byte) : (skipTo input).length ≤ input.length := by
  induction input with
  | nil => exact le_rfl
  | cons c input ih =>
    unfold skipTo
    split
    · exact Nat.le_succ _
    · exact ih.trans (Nat.le_succ _)

theorem recvPacket_shorter {input : List Byte} {p : Packet} {rest : List Byte} (h : recvPacket input = .ok (p, rest)) :
    rest.length < input.length :=
  (recvLoop_shorter _ ⟨Nat.zero_le _, le_rfl⟩ le_rfl h).trans_le (skipTo_length input)

/-- The loop of `gdb_recv`. -/
def recvAcked (input output : List Byte) : Exec (List Byte × List Byte × List Byte) :=
  match _h : recvPacket input with
  | .error e => .error e
  | .ok (p, rest) =>
    let output := output ++ [chr (if p.sumOk then '+' else '-')]
    if p.sumOk then .ok (p.reply, rest, output) else recvAcked rest output
  termination_by input.length
  decreasing_by exact recvPacket_shorter _h

/-- The reply; without acknowledgements it is taken as it comes. -/
def gdbRecv (conn : Conn) : Exec (List Byte × Conn) :=
  if conn.ack then do
    let (reply, input, output) ← recvAcked conn.input conn.output
    return (reply, { conn with input, output })
  else do
    let (p, input) ← recvPacket conn.input
    return (p.reply, { conn with input })

/-- A command, and its reply. -/
def request (conn : Conn) (command : List Byte) : Exec (List Byte × Conn) := do
  let conn ← gdbSend conn command
  gdbRecv conn

/-- The reply as a C string, which ends at its first NUL. -/
def cString (reply : List Byte) : List Byte := reply.takeWhile (· ≠ 0)

/-- `gdb_start_noack`, and whether it returns `"OK"`. -/
def gdbStartNoack (conn : Conn) : Exec (Bool × Conn) := do
  let (reply, conn) ← request conn (text "QStartNoAckMode")
  let ok := reply.length = 2 ∧ cString reply = text "OK"
  return (ok, if ok then { conn with ack := false } else conn)

/-! ## What the stub does -/

/-- A packet as it comes: `junk` is read before it, and it may be damaged. -/
structure Attempt where
  junk : List Byte
  items : List Item
  msb : Byte
  lsb : Byte
  noEnd : chr '#' ∉ junk
  valid : ValidFrom [] items

def Attempt.bytes (a : Attempt) : List Byte := a.junk ++ frame a.items a.msb a.lsb

def Attempt.reply (a : Attempt) : List Byte := expandFrom [] a.items

/-- The checksum is right. -/
def Attempt.sumOk (a : Attempt) : Bool := (sumOf (wireOf a.items)).setWidth 16 = gdbDecodeHex a.msb a.lsb

theorem recvPacket_attempt (a : Attempt) (rest : List Byte) :
    recvPacket (a.bytes ++ rest) = .ok (⟨a.reply, a.sumOk⟩, rest) :=
  recvPacket_items a.noEnd a.valid a.msb a.lsb rest

/-- **The command is sent once more for each character that is no acknowledgement.** -/
theorem gdbSend_until {nacks : List Byte} (hnacks : chr '+' ∉ nacks) {conn : Conn} (hack : conn.ack = true)
    {rest : List Byte} (hinput : conn.input = nacks ++ chr '+' :: rest) (command : List Byte) :
    gdbSend conn command = .ok { conn with
      input := rest, output := conn.output ++ (List.replicate (nacks.length + 1) (sendPacket command)).flatten } := by
  have hloop : ∀ (nacks : List Byte), chr '+' ∉ nacks → ∀ output, sendLoop command (nacks ++ chr '+' :: rest) output =
      .ok (rest, output ++ (List.replicate (nacks.length + 1) (sendPacket command)).flatten) := by
    intro nacks
    induction nacks with
    | nil =>
      intro _ output
      simp [sendLoop]
    | cons c nacks ih =>
      intro hnacks output
      obtain ⟨hc, hnacks'⟩ := not_or.mp (mt List.mem_cons.mpr hnacks)
      rw [List.cons_append, sendLoop, if_neg (Ne.symm hc), ih hnacks', List.append_assoc]
      rfl
  unfold gdbSend
  rw [if_pos hack, hinput, hloop nacks hnacks]
  rfl

theorem recvAcked_attempt (a : Attempt) (rest output : List Byte) : recvAcked (a.bytes ++ rest) output =
    if a.sumOk then .ok (a.reply, rest, output ++ [chr '+']) else recvAcked rest (output ++ [chr '-']) := by
  rw [recvAcked]
  split
  next e herror =>
    rw [recvPacket_attempt] at herror
    cases herror
  next p rest' hok =>
    rw [recvPacket_attempt] at hok
    cases hok
    cases ha : a.sumOk <;> rfl

/-- **Damaged packets are refused one by one**, and the first that is not is the reply. -/
theorem gdbRecv_attempts {attempts : List Attempt} (hbad : ∀ a ∈ attempts, a.sumOk = false) {a : Attempt}
    (hgood : a.sumOk = true) {conn : Conn} (hack : conn.ack = true) {rest : List Byte}
    (hinput : conn.input = attempts.flatMap Attempt.bytes ++ (a.bytes ++ rest)) :
    gdbRecv conn = .ok (a.reply, { conn with
      input := rest, output := conn.output ++ (List.replicate attempts.length (chr '-') ++ [chr '+']) }) := by
  have hloop : ∀ (attempts : List Attempt), (∀ a ∈ attempts, a.sumOk = false) → ∀ output,
      recvAcked (attempts.flatMap Attempt.bytes ++ (a.bytes ++ rest)) output =
        .ok (a.reply, rest, output ++ (List.replicate attempts.length (chr '-') ++ [chr '+'])) := by
    intro attempts
    induction attempts with
    | nil =>
      intro _ output
      rw [List.flatMap_nil, List.nil_append, recvAcked_attempt, if_pos hgood]
      rfl
    | cons b attempts ih =>
      intro hbad output
      obtain ⟨hb, hbad'⟩ := List.forall_mem_cons.mp hbad
      rw [List.flatMap_cons, List.append_assoc, recvAcked_attempt, if_neg (by rw [hb]; decide), ih hbad',
        List.append_assoc]
      rfl
  unfold gdbRecv
  rw [if_pos hack, hinput, hloop attempts hbad]
  rfl

/-- How a stub answers a command: it refuses the command as often as there are `nacks`, and its reply comes damaged as
often as there are attempts before the last. -/
structure Exchange where
  nacks : List Byte
  attempts : List Attempt
  last : Attempt
  noAck : chr '+' ∉ nacks
  bad : ∀ a ∈ attempts, a.sumOk = false
  good : last.sumOk = true

/-- What the client reads. -/
def Exchange.bytes (x : Exchange) : List Byte :=
  x.nacks ++ chr '+' :: (x.attempts.flatMap Attempt.bytes ++ x.last.bytes)

/-- What the client writes. -/
def Exchange.written (x : Exchange) (command : List Byte) : List Byte :=
  (List.replicate (x.nacks.length + 1) (sendPacket command)).flatten ++
    (List.replicate x.attempts.length (chr '-') ++ [chr '+'])

/-- **A command is answered with the reply of the first packet that is not damaged.** -/
theorem request_answered (x : Exchange) {conn : Conn} (hack : conn.ack = true) {rest : List Byte}
    (hinput : conn.input = x.bytes ++ rest) (command : List Byte) : request conn command =
      .ok (x.last.reply, { conn with input := rest, output := conn.output ++ x.written command }) := by
  have hbytes : conn.input = x.nacks ++ chr '+' :: (x.attempts.flatMap Attempt.bytes ++ (x.last.bytes ++ rest)) := by
    rw [hinput, Exchange.bytes, List.append_assoc, List.cons_append, List.append_assoc]
  unfold request
  rw [gdbSend_until x.noAck hack hbytes]
  let sent : Conn := { conn with
    input := x.attempts.flatMap Attempt.bytes ++ (x.last.bytes ++ rest)
    output := conn.output ++ (List.replicate (x.nacks.length + 1) (sendPacket command)).flatten }
  have hsent : sent.ack = true := hack
  refine (gdbRecv_attempts x.bad x.good hsent rfl).trans ?_
  rw [Exchange.written, ← List.append_assoc conn.output]

/-! ## Without acknowledgements -/

theorem cString_ok {reply : List Byte} : reply.length = 2 ∧ cString reply = text "OK" ↔ reply = text "OK" := by
  constructor
  · rintro ⟨hlen, hok⟩
    have hstart : cString reply <+: reply := List.takeWhile_prefix _
    rw [hok] at hstart
    exact (hstart.eq_of_length hlen.symm).symm
  · rintro rfl
    exact ⟨rfl, rfl⟩

/-- **Acknowledgements are given up** exactly if the reply is `OK`. -/
theorem gdbStartNoack_answered (x : Exchange) {conn : Conn} (hack : conn.ack = true) {rest : List Byte}
    (hinput : conn.input = x.bytes ++ rest) : ∃ ok : Bool, (ok = true ↔ x.last.reply = text "OK") ∧
      gdbStartNoack conn = .ok (ok,
        { input := rest, output := conn.output ++ x.written (text "QStartNoAckMode"), ack := !ok }) := by
  refine ⟨decide (x.last.reply.length = 2 ∧ cString x.last.reply = text "OK"), ?_, ?_⟩
  · rw [decide_eq_true_iff]
    exact cString_ok
  · unfold gdbStartNoack
    rw [request_answered x hack hinput]
    show Except.ok (_, ite _ _ _) = _
    by_cases hok : x.last.reply.length = 2 ∧ cString x.last.reply = text "OK"
    · rw [if_pos hok, decide_eq_true hok]
      rfl
    · rw [if_neg hok, decide_eq_false hok, hack]
      rfl

/-- The command is then sent once, and its reply taken as it comes. -/
theorem request_noack (a : Attempt) {conn : Conn} (hack : conn.ack = false) {rest : List Byte}
    (hinput : conn.input = a.bytes ++ rest) (command : List Byte) : request conn command =
      .ok (a.reply, { conn with input := rest, output := conn.output ++ sendPacket command }) := by
  have hsend : gdbSend conn command = .ok { conn with output := conn.output ++ sendPacket command } := if_neg (by simp [hack])
  have hrecv : ∀ output, gdbRecv { conn with output } = .ok (a.reply, { conn with input := rest, output }) := by
    intro output
    unfold gdbRecv
    rw [if_neg (by simp [hack]), hinput, recvPacket_attempt]
    rfl
  unfold request
  rw [hsend]
  exact hrecv _

/-! ## What the other side makes of it -/

/-- What the client writes for some commands. -/
def writtenAll (xs : List Exchange) (commands : List (List Byte)) : List Byte :=
  (List.zipWith Exchange.written xs commands).flatten

section Conversation

variable {R : Type*} (obey : R → List Byte → R × List Byte)

/-- The other side, whose state and reply a command makes are `obey`, reads `w` and answers with `xs`: what comes with
the acknowledgement of a command is obeyed, once, and answered with its reply.  It leaves `r'` where it was in `r`. -/
inductive Session : R → List Exchange → List Byte → R → Prop
  | nil (r : R) : Session r [] [] r
  | cons {r r' : R} {x : Exchange} {xs : List Exchange} {w : List Byte} (command : List Byte) (hend : chr '#' ∉ command)
      (hreply : x.last.reply = (obey r command).2) (hrest : Session (obey r command).1 xs w r') :
      Session r (x :: xs) (x.written command ++ w) r'

/-- The replies are those of the commands. -/
def Answered : R → List (List Byte) → List Exchange → Prop
  | _, [], [] => True
  | r, command :: commands, x :: xs => x.last.reply = (obey r command).2 ∧ Answered (obey r command).1 commands xs
  | _, _, _ => False

/-- Command by command. -/
def obeyAll (r : R) (commands : List (List Byte)) : R := commands.foldl (fun r command => (obey r command).1) r

variable {obey} {r r' r'' : R} {xs : List Exchange} {w : List Byte} {commands : List (List Byte)}

/-- What the client writes says which command it is. -/
theorem Exchange.written_inj (x : Exchange) {c c' w w' : List Byte} (hc : chr '#' ∉ c) (hc' : chr '#' ∉ c')
    (h : x.written c ++ w = x.written c' ++ w') : c = c' ∧ w = w' := by
  have htake : ∀ {c : List Byte} (rest : List Byte), chr '#' ∉ c →
      (c ++ chr '#' :: rest).takeWhile (· ≠ chr '#') = c := by
    intro c rest hc
    rw [List.takeWhile_append_of_pos, List.takeWhile_cons_of_neg (by simp), List.append_nil]
    exact fun b hb => decide_eq_true fun heq => hc (heq ▸ hb)
  have hfirst : ∀ c w, ∃ rest, x.written c ++ w = chr '$' :: (c ++ chr '#' :: rest) := by
    intro c w
    unfold Exchange.written sendPacket
    rw [List.replicate_succ, List.flatten_cons]
    exact ⟨_, by simp only [List.append_assoc, List.cons_append]; rfl⟩
  obtain ⟨rest, hwritten⟩ := hfirst c w
  obtain ⟨rest', hwritten'⟩ := hfirst c' w'
  have hcommand : c = c' := by
    have htail : c ++ chr '#' :: rest = c' ++ chr '#' :: rest' := by
      have hwhole := hwritten.symm.trans (h.trans hwritten')
      exact (List.cons.inj hwhole).2
    rw [← htake rest hc, htail, htake rest' hc']
  refine ⟨hcommand, ?_⟩
  rw [hcommand] at h
  exact List.append_cancel_left h

/-- **The bytes say what the other side does.** -/
theorem Session.unique (h : Session obey r xs w r') : ∀ {r'' : R}, Session obey r xs w r'' → r' = r'' := by
  generalize hw : w = w₁ at h
  induction h generalizing w with
  | nil r =>
    intro r'' h''
    cases hw
    cases h''
    rfl
  | @cons r r' x xs w' command hend _ _ ih =>
    intro r'' h''
    subst hw
    generalize hsame : x.written command ++ w' = w₂ at h''
    cases h'' with
    | cons command' hend' _ hrest' =>
      obtain ⟨hcommand, hw'⟩ := x.written_inj hend hend' hsame
      subst hcommand hw'
      exact ih rfl hrest'

theorem Answered.session (h : Answered obey r commands xs) (hend : ∀ c ∈ commands, chr '#' ∉ c) :
    Session obey r xs (writtenAll xs commands) (obeyAll obey r commands) := by
  induction commands generalizing r xs with
  | nil =>
    cases xs with
    | nil => exact .nil r
    | cons x xs => exact h.elim
  | cons command commands ih =>
    cases xs with
    | nil => exact h.elim
    | cons x xs =>
      obtain ⟨hc, hcs⟩ := List.forall_mem_cons.mp hend
      exact .cons command hc h.1 (ih h.2 hcs)

/-- **The other side obeys exactly these commands, each once.** -/
theorem Answered.session_iff (h : Answered obey r commands xs) (hend : ∀ c ∈ commands, chr '#' ∉ c) :
    Session obey r xs (writtenAll xs commands) r' ↔ r' = obeyAll obey r commands := by
  constructor
  · intro hsession
    exact hsession.unique (h.session hend)
  · rintro rfl
    exact h.session hend

theorem Answered.length (h : Answered obey r commands xs) : xs.length = commands.length := by
  induction commands generalizing r xs with
  | nil =>
    cases xs with
    | nil => rfl
    | cons x xs => exact h.elim
  | cons command commands ih =>
    cases xs with
    | nil => exact h.elim
    | cons x xs => exact congrArg Nat.succ (ih h.2)

end Conversation

end QemuDiff
