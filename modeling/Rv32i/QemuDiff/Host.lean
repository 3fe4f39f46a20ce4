import Rv32i.Lib.Chunks
import Rv32i.QemuDiff.Session

/-!
# The GDB client: memory and registers of QEMU

`tools/qemu-diff/src/gdb-host.c` and `difftest_memcpy`, `difftest_regcpy`, `difftest_exec` of `diff-test.c`, for a guest
of 32 bits.  The stub in QEMU is not part of the repository: it is any `obey`, of which only what is documented of its
commands is assumed, where it replies with `OK`.

* `gdbMemcpyToQemu`, `gdbGetregs`, `gdbSetregs`, `gdbSi` — the functions of the client;
* `IsM`, `WritesMemory`, `CopiesRegisters` — the commands `M`, `g` and `G` of the protocol;
* `difftestMemcpy_copies` — **the memory is copied piece by piece**, if every piece is answered with `OK`;
* `regcpy_round_trip` — **the registers are copied and come back**, and the others are kept;
* `difftestExec_steps` — a step of the stub for each instruction.
-/

namespace QemuDiff

/-! ## `gdb-host.c` -/

/-- `%x` -/
def hexNat (n : ℕ) : List Byte :=
  if n < 16 then [hexEncode (BitVec.ofNat 8 n)] else hexNat (n / 16) ++ [hexEncode (BitVec.ofNat 8 (n % 16))]

/-- `M0x%x,%x:` and the bytes. -/
def memcpyCommand (dest : BitVec 32) (data : List Byte) : List Byte :=
  text "M0x" ++ hexNat dest.toNat ++ text "," ++ hexNat data.length ++ text ":" ++ data.flatMap hexByte

/-- The reply is `OK`. -/
def replyOk (reply : List Byte) : Bool := cString reply = text "OK"

def gdbMemcpyToQemuSmall (conn : Conn) (dest : BitVec 32) (src : List Byte) : Exec (Bool × Conn) := do
  let (reply, conn) ← request conn (memcpyCommand dest src)
  return (replyOk reply, conn)

def mtu : ℕ := 1500

/-- The loop of `gdb_memcpy_to_qemu`, with the `ok` so far. -/
def memcpyLoop (ok : Bool) (conn : Conn) (dest : BitVec 32) (src : List Byte) : Exec (Bool × Conn) :=
  if mtu < src.length then do
    let (ok', conn) ← gdbMemcpyToQemuSmall conn dest (src.take mtu)
    memcpyLoop (ok && ok') conn (dest + BitVec.ofNat 32 mtu) (src.drop mtu)
  else do
    let (ok', conn) ← gdbMemcpyToQemuSmall conn dest src
    return (ok && ok', conn)
  termination_by src.length
  decreasing_by
    rw [List.length_drop]
    unfold mtu at *
    omega

def gdbMemcpyToQemu (conn : Conn) (dest : BitVec 32) (src : List Byte) : Exec (Bool × Conn) :=
  memcpyLoop true conn dest src

/-- The words of `union isa_gdb_regs`. -/
def regsWords : ℕ := 77

/-- The buffer of a reply, which is terminated; what follows is what the heap held. -/
def buffer (heap : ℕ → Byte) (reply : List Byte) (k : ℕ) : Byte :=
  if k = reply.length then 0 else reply[k]?.getD (heap k)

/-- Register `i` of the reply: eight characters, with a NUL in place of the ninth. -/
def regOf (buf : ℕ → Byte) (i : ℕ) : BitVec 32 :=
  (gdbDecodeHexStr (((List.range 8).map fun j => buf (8 * i + j)) ++ [0])).setWidth 32

def gdbGetregs (heap : ℕ → Byte) (conn : Conn) : Exec (List (BitVec 32) × Conn) := do
  let (reply, conn) ← request conn (text "g")
  return ((List.range regsWords).map (regOf (buffer heap reply)), conn)

/-- `G` and the bytes of the registers. -/
def setregsCommand (r : List (BitVec 32)) : List Byte := text "G" ++ (r.flatMap wordBytes).flatMap hexByte

def gdbSetregs (r : List (BitVec 32)) (conn : Conn) : Exec (Bool × Conn) := do
  let (reply, conn) ← request conn (setregsCommand r)
  return (replyOk reply, conn)

def gdbSi (conn : Conn) : Exec Conn := do
  let (_, conn) ← request conn (text "vCont;s:1")
  return conn

/-! ## `diff-test.c` -/

/-- `DIFFTEST_REG_SIZE` in words: the registers and the pc. -/
def difftestRegs : ℕ := 33

/-- `DIFFTEST_TO_REF`; the other direction is an assertion. -/
def difftestMemcpy (conn : Conn) (addr : BitVec 32) (buf : List Byte) : Exec Conn := do
  let (ok, conn) ← gdbMemcpyToQemu conn addr buf
  if ok then return conn else .error .assert

/-- `DIFFTEST_TO_REF` -/
def difftestRegcpyToRef (heap : ℕ → Byte) (dut : List (BitVec 32)) (conn : Conn) : Exec Conn := do
  let (r, conn) ← gdbGetregs heap conn
  let (_, conn) ← gdbSetregs (dut.take difftestRegs ++ r.drop difftestRegs) conn
  return conn

/-- `DIFFTEST_TO_DUT` -/
def difftestRegcpyToDut (heap : ℕ → Byte) (conn : Conn) : Exec (List (BitVec 32) × Conn) := do
  let (r, conn) ← gdbGetregs heap conn
  return (r.take difftestRegs, conn)

def difftestExec : ℕ → Conn → Exec Conn
  | 0, conn => .ok conn
  | n + 1, conn => do difftestExec n (← gdbSi conn)

/-! ## What the commands mean -/

def hexValue (digits : List Byte) : ℕ := digits.foldl (fun n c => 16 * n + (hexNibble c).toNat) 0

/-- A number to the base 16 as `strtoull` takes it, with or without `0x`. -/
def IsHex (number : List Byte) (n : ℕ) : Prop :=
  ∃ digits, (number = digits ∨ number = text "0x" ++ digits) ∧ digits ≠ [] ∧ (∀ c ∈ digits, isxdigit c = true) ∧
    hexValue digits = n

/-- `M addr,length:XX...` -/
def IsM (command : List Byte) (addr : BitVec 32) (data : List Byte) : Prop :=
  ∃ number length digits, command = text "M" ++ number ++ text "," ++ length ++ text ":" ++ digits ∧
    IsHex number addr.toNat ∧ IsHex length data.length ∧ readBytes digits = some data

/-- Bytes written from an address on. -/
def writeBytes (mem : BitVec 32 → Byte) (dest : BitVec 32) (data : List Byte) : BitVec 32 → Byte :=
  fun q => data[(q - dest).toNat]?.getD (mem q)

section Stub

variable {R : Type*} (obey : R → List Byte → R × List Byte)

/-- `M` writes the bytes from the address on. -/
structure WritesMemory (mem : R → BitVec 32 → Byte) : Prop where
  write : ∀ r command addr data, IsM command addr data → (obey r command).2 = text "OK" →
    mem (obey r command).1 = writeBytes (mem r) addr data

/-- `g` replies with the registers in their bytes, and `G` writes the registers it is given bytes for; `x0`, the first
of them, can only be given its zero. -/
structure CopiesRegisters (regs : R → List (BitVec 32)) : Prop where
  read : ∀ r, readBytes (obey r (text "g")).2 = some ((regs r).flatMap wordBytes) ∧ regs (obey r (text "g")).1 = regs r
  write : ∀ r digits (words : List (BitVec 32)), readBytes digits = some (words.flatMap wordBytes) →
    words.head? = some 0 → (obey r (text "G" ++ digits)).2 = text "OK" →
    regs (obey r (text "G" ++ digits)).1 = words.take (regs r).length ++ (regs r).drop words.length

end Stub

/-! ## What the client writes -/

theorem hexEncode_ofNat {n : ℕ} (h : n < 16) : isxdigit (hexEncode (BitVec.ofNat 8 n)) = true ∧
    (hexNibble (hexEncode (BitVec.ofNat 8 n))).toNat = n := by
  have hn : (BitVec.ofNat 8 n).toNat = n := by
    rw [BitVec.toNat_ofNat, Nat.mod_eq_of_lt (by omega)]
  obtain ⟨hdigit, hnibble⟩ := (nibble_digit (d := BitVec.ofNat 8 n) (by omega)).1
  exact ⟨hdigit, by rw [hnibble, hn]⟩

theorem hexNat_digits (n : ℕ) : hexNat n ≠ [] ∧ (∀ c ∈ hexNat n, isxdigit c = true) ∧ hexValue (hexNat n) = n := by
  induction n using Nat.strongRecOn with
  | ind n ih =>
    unfold hexNat
    split
    next h =>
      obtain ⟨hdigit, hnibble⟩ := hexEncode_ofNat h
      refine ⟨List.cons_ne_nil _ _, fun c hc => ?_, ?_⟩
      · rw [List.mem_singleton.mp hc]
        exact hdigit
      · show 16 * 0 + (hexNibble (hexEncode (BitVec.ofNat 8 n))).toNat = n
        rw [hnibble]
        omega
    next h =>
      obtain ⟨hdigit, hnibble⟩ := hexEncode_ofNat (Nat.mod_lt n (show 0 < 16 by omega))
      obtain ⟨hne, hdigits, hvalue⟩ := ih (n / 16) (by omega)
      refine ⟨List.append_ne_nil_of_left_ne_nil hne _, fun c hc => ?_, ?_⟩
      · rcases List.mem_append.mp hc with hc | hc
        · exact hdigits c hc
        · rw [List.mem_singleton.mp hc]
          exact hdigit
      · unfold hexValue at hvalue ⊢
        rw [List.foldl_append, hvalue]
        show 16 * (n / 16) + (hexNibble (hexEncode (BitVec.ofNat 8 (n % 16)))).toNat = n
        rw [hnibble]
        omega

/-- **The command for a piece of memory says where it is and what is in it.** -/
theorem isM_memcpyCommand (dest : BitVec 32) (data : List Byte) : IsM (memcpyCommand dest data) dest data := by
  obtain ⟨hne, hdigits, hvalue⟩ := hexNat_digits dest.toNat
  obtain ⟨hne', hdigits', hvalue'⟩ := hexNat_digits data.length
  exact ⟨text "0x" ++ hexNat dest.toNat, hexNat data.length, data.flatMap hexByte, rfl,
    ⟨_, .inr rfl, hne, hdigits, hvalue⟩, ⟨_, .inl rfl, hne', hdigits', hvalue'⟩, readBytes_hexByte data⟩

theorem hexByte_digits {data : List Byte} {c : Byte} (hc : c ∈ data.flatMap hexByte) : isxdigit c = true := by
  obtain ⟨b, -, hc⟩ := List.mem_flatMap.mp hc
  rcases List.mem_pair.mp hc with rfl | rfl
  · exact (nibble_digit (high_lt b)).1.1
  · exact (nibble_digit (low_lt b)).1.1

/-- No command has the end of a packet in it. -/
theorem noEnd_of_digits {command : List Byte} (h : ∀ c ∈ command, c ∈ text "MGx,:" ∨ isxdigit c = true) :
    chr '#' ∉ command := by
  intro hend
  rcases h _ hend with hmem | hdigit
  · exact absurd hmem (by decide)
  · exact absurd hdigit (by decide)

theorem memcpyCommand_noEnd (dest : BitVec 32) (data : List Byte) : chr '#' ∉ memcpyCommand dest data := by
  apply noEnd_of_digits
  intro c hc
  simp only [memcpyCommand, List.mem_append] at hc
  rcases hc with ((((hc | hc) | hc) | hc) | hc) | hc
  · revert c
    decide
  · exact .inr ((hexNat_digits dest.toNat).2.1 c hc)
  · revert c
    decide
  · exact .inr ((hexNat_digits data.length).2.1 c hc)
  · revert c
    decide
  · exact .inr (hexByte_digits hc)

theorem setregsCommand_noEnd (r : List (BitVec 32)) : chr '#' ∉ setregsCommand r := by
  apply noEnd_of_digits
  intro c hc
  rcases List.mem_append.mp hc with hc | hc
  · exact .inl ((by decide : ∀ c ∈ text "G", c ∈ text "MGx,:") c hc)
  · exact .inr (hexByte_digits hc)

/-! ## A stub that understands the commands -/

structure Guest where
  mem : BitVec 32 → Byte
  regs : List (BitVec 32)

/-- The number at the start, and what follows it. -/
def readHex (bytes : List Byte) : ℕ × List Byte :=
  let digits := if (text "0x").isPrefixOf bytes then bytes.drop 2 else bytes
  (hexValue (digits.takeWhile isxdigit), digits.dropWhile isxdigit)

/-- What follows the `M`. -/
def readM (bytes : List Byte) : Option (BitVec 32 × List Byte) :=
  match readHex bytes with
  | (_, []) => none
  | (addr, comma :: rest) =>
    match readHex rest with
    | (_, []) => none
    | (length, colon :: digits) =>
      match readBytes digits with
      | none => none
      | some data =>
        if comma = chr ',' ∧ colon = chr ':' ∧ data.length = length then some (BitVec.ofNat 32 addr, data) else none

/-- The words that bytes are. -/
def wordsOf : List Byte → List (BitVec 32)
  | b0 :: b1 :: b2 :: b3 :: rest => (b3 ++ b2 ++ b1 ++ b0) :: wordsOf rest
  | _ => []

def Guest.obey (s : Guest) : List Byte → Guest × List Byte
  | [] => (s, [])
  | c :: rest =>
    if c = chr 'M' then
      match readM rest with
      | some (addr, data) => ({ s with mem := writeBytes s.mem addr data }, text "OK")
      | none => (s, text "E22")
    else if c = chr 'G' then
      match (readBytes rest).map wordsOf with
      | some words => ({ s with regs := words.take s.regs.length ++ s.regs.drop words.length }, text "OK")
      | none => (s, text "E22")
    else if c = chr 'g' then (s, (s.regs.flatMap wordBytes).flatMap hexByte)
    else (s, [])

theorem readHex_isHex {number : List Byte} {n : ℕ} (h : IsHex number n) {c : Byte} (hc : isxdigit c = false)
    (hx : c ≠ chr 'x') (rest : List Byte) : readHex (number ++ c :: rest) = (n, c :: rest) := by
  obtain ⟨digits, hnumber, hne, hdigits, hvalue⟩ := h
  have hread : (hexValue ((digits ++ c :: rest).takeWhile isxdigit), (digits ++ c :: rest).dropWhile isxdigit) =
      (n, c :: rest) := by
    rw [List.takeWhile_append_of_pos hdigits, List.dropWhile_append_of_pos hdigits,
      List.takeWhile_cons_of_neg (by rw [hc]; decide), List.dropWhile_cons_of_neg (by rw [hc]; decide), List.append_nil,
      hvalue]
  rcases hnumber with rfl | rfl
  · -- the second character is no `x`
    have hplain : (text "0x").isPrefixOf (number ++ c :: rest) = false := by
      match number, hne with
      | [d], _ => simp [text, List.isPrefixOf, Ne.symm hx]
      | d :: d' :: number, _ =>
        have hd' : chr 'x' ≠ d' := fun heq => absurd (hdigits d' (by simp)) (heq ▸ by decide)
        simp [text, List.isPrefixOf, hd']
    unfold readHex
    rw [hplain]
    exact hread
  · exact hread

/-- Such a stub reads the command. -/
theorem readM_isM {command : List Byte} {addr : BitVec 32} {data : List Byte} (h : IsM command addr data) :
    ∃ rest, command = chr 'M' :: rest ∧ readM rest = some (addr, data) := by
  obtain ⟨number, length, digits, rfl, hnumber, hlength, hdata⟩ := h
  refine ⟨number ++ chr ',' :: (length ++ chr ':' :: digits), by simp [text], ?_⟩
  unfold readM
  rw [readHex_isHex hnumber (by decide) (by decide)]
  dsimp only
  rw [readHex_isHex hlength (by decide) (by decide)]
  dsimp only
  rw [hdata]
  dsimp only
  rw [if_pos ⟨rfl, rfl, rfl⟩, BitVec.ofNat_toNat, BitVec.setWidth_eq]

theorem Guest.obey_isM (s : Guest) {command : List Byte} {addr : BitVec 32} {data : List Byte}
    (h : IsM command addr data) : s.obey command = ({ s with mem := writeBytes s.mem addr data }, text "OK") := by
  obtain ⟨rest, rfl, hread⟩ := readM_isM h
  unfold Guest.obey
  dsimp only
  rw [if_pos rfl, hread]

theorem wordsOf_wordBytes (r : List (BitVec 32)) : wordsOf (r.flatMap wordBytes) = r := by
  induction r with
  | nil => rfl
  | cons v r ih =>
    have hword : Bytes.byte v 3 ++ Bytes.byte v 2 ++ Bytes.byte v 1 ++ Bytes.byte v 0 = v := Bytes.ofBytes_byte v
    show (Bytes.byte v 3 ++ Bytes.byte v 2 ++ Bytes.byte v 1 ++ Bytes.byte v 0) :: wordsOf (r.flatMap wordBytes) = _
    rw [hword, ih]

theorem Guest.obey_setregs (s : Guest) {digits : List Byte} {words : List (BitVec 32)}
    (h : readBytes digits = some (words.flatMap wordBytes)) : s.obey (text "G" ++ digits) =
      ({ s with regs := words.take s.regs.length ++ s.regs.drop words.length }, text "OK") := by
  show (match (readBytes digits).map wordsOf with | some words => _ | none => _) = _
  rw [h, Option.map_some, wordsOf_wordBytes]

theorem Guest.writesMemory : WritesMemory Guest.obey Guest.mem where
  write s command addr data h _ := by rw [s.obey_isM h]

theorem Guest.copiesRegisters : CopiesRegisters Guest.obey Guest.regs where
  read s := ⟨readBytes_hexByte _, rfl⟩
  write s digits words h _ _ := by rw [s.obey_setregs h]

/-- An exchange without a refusal or damage. -/
def Exchange.clean (reply : List Byte) : Exchange where
  nacks := []
  attempts := []
  last := {
    junk := []
    items := plainItems reply
    msb := hexEncode (sumOf (wireOf (plainItems reply)) >>> 4)
    lsb := hexEncode (sumOf (wireOf (plainItems reply)) &&& 0xf)
    noEnd := List.not_mem_nil
    valid := (plainItems_valid reply []).1 }
  noAck := List.not_mem_nil
  bad := nofun
  good := decide_eq_true ((sumOk_iff (digits_hexByte _)).mpr rfl)

theorem Exchange.clean_reply (reply : List Byte) : (Exchange.clean reply).last.reply = reply :=
  (plainItems_valid reply []).2

/-- `OK`, after the command was refused once and with a reply that was damaged once. -/
def lateOk : Exchange where
  nacks := [chr '-']
  attempts := [{
    junk := text "$O"
    items := [.plain (chr 'O'), .plain (chr 'J')]
    msb := chr '9'
    lsb := chr 'a'
    noEnd := by decide
    valid := by decide }]
  last := {
    junk := []
    items := [.plain (chr 'O'), .plain (chr 'K')]
    msb := chr '9'
    lsb := chr 'A'
    noEnd := by decide
    valid := by decide }
  noAck := by decide
  bad := by decide
  good := by decide

/-! ## Copying memory -/

/-- The commands of `gdb_memcpy_to_qemu`. -/
def memcpyCommands (dest : BitVec 32) (src : List Byte) : List (List Byte) :=
  if mtu < src.length then
    memcpyCommand dest (src.take mtu) :: memcpyCommands (dest + BitVec.ofNat 32 mtu) (src.drop mtu)
  else [memcpyCommand dest src]
  termination_by src.length
  decreasing_by
    rw [List.length_drop]
    unfold mtu at *
    omega

theorem memcpyCommands_noEnd (src : List Byte) (dest : BitVec 32) : ∀ c ∈ memcpyCommands dest src, chr '#' ∉ c := by
  induction dest, src using memcpyCommands.induct with
  | case1 dest src h ih =>
    rw [memcpyCommands, if_pos h]
    exact List.forall_mem_cons.mpr ⟨memcpyCommand_noEnd _ _, ih⟩
  | case2 dest src h =>
    rw [memcpyCommands, if_neg h]
    exact List.forall_mem_singleton.mpr (memcpyCommand_noEnd _ _)

/-- Two pieces that follow each other are one. -/
theorem writeBytes_append (mem : BitVec 32 → Byte) (dest : BitVec 32) {xs ys : List Byte}
    (hlen : xs.length + ys.length ≤ 2 ^ 32) :
    writeBytes (writeBytes mem dest xs) (dest + BitVec.ofNat 32 xs.length) ys = writeBytes mem dest (xs ++ ys) := by
  funext q
  unfold writeBytes
  by_cases hys : ys = []
  · subst hys
    rw [List.getElem?_nil, List.append_nil]
    rfl
  have hpos : 0 < ys.length := List.length_pos_iff.mpr hys
  by_cases hq : (q - dest).toNat < xs.length
  · have hfar : ys.length ≤ (q - (dest + BitVec.ofNat 32 xs.length)).toNat := by bv_omega
    rw [List.getElem?_eq_none hfar, List.getElem?_append_left hq]
    rfl
  · have hdist : (q - (dest + BitVec.ofNat 32 xs.length)).toNat = (q - dest).toNat - xs.length := by bv_omega
    rw [hdist, List.getElem?_append_right (by omega), List.getElem?_eq_none (by omega : xs.length ≤ (q - dest).toNat)]
    rfl

section Memory

variable {R : Type*} {obey : R → List Byte → R × List Byte} {mem : R → BitVec 32 → Byte}

/-- **The commands together write the memory.** -/
theorem WritesMemory.obeyAll_memcpy (h : WritesMemory obey mem) {dest : BitVec 32} {src : List Byte}
    (hlen : src.length ≤ 2 ^ 32) {r : R} {xs : List Exchange} (hanswered : Answered obey r (memcpyCommands dest src) xs)
    (hok : ∀ x ∈ xs, x.last.reply = text "OK") :
    mem (obeyAll obey r (memcpyCommands dest src)) = writeBytes (mem r) dest src := by
  induction dest, src using memcpyCommands.induct generalizing r xs with
  | case1 dest src hmtu ih =>
    rw [memcpyCommands, if_pos hmtu] at hanswered ⊢
    cases xs with
    | nil => exact hanswered.elim
    | cons x xs =>
      obtain ⟨hx, hxs⟩ := List.forall_mem_cons.mp hok
      obtain ⟨hreply, hrest⟩ := hanswered
      have htake : (src.take mtu).length = mtu := by
        rw [List.length_take]
        omega
      have hparts : (src.take mtu).length + (src.drop mtu).length ≤ 2 ^ 32 := by
        rw [← List.length_append, List.take_append_drop]
        exact hlen
      have hfirst := h.write r _ _ _ (isM_memcpyCommand dest (src.take mtu)) (hreply.symm.trans hx)
      have hothers := ih (by omega) hrest hxs
      have happend := writeBytes_append (mem r) dest hparts
      rw [htake, List.take_append_drop] at happend
      rw [← happend, ← hfirst]
      exact hothers
  | case2 dest src hmtu =>
    rw [memcpyCommands, if_neg hmtu] at hanswered ⊢
    cases xs with
    | nil => exact hanswered.elim
    | cons x xs =>
      have hx := hok x List.mem_cons_self
      exact h.write r _ _ _ (isM_memcpyCommand dest src) (hanswered.1.symm.trans hx)

end Memory

theorem memcpySmall_answered (x : Exchange) {conn : Conn} (hack : conn.ack = true) {rest : List Byte}
    (hinput : conn.input = x.bytes ++ rest) (dest : BitVec 32) (src : List Byte) : gdbMemcpyToQemuSmall conn dest src =
      .ok (replyOk x.last.reply,
        { conn with input := rest, output := conn.output ++ x.written (memcpyCommand dest src) }) := by
  unfold gdbMemcpyToQemuSmall
  rw [request_answered x hack hinput]
  rfl

theorem memcpyLoop_answered {dest : BitVec 32} {src : List Byte} {xs : List Exchange} {conn : Conn} {rest : List Byte}
    (ok : Bool) (hxs : xs.length = (memcpyCommands dest src).length) (hack : conn.ack = true)
    (hinput : conn.input = xs.flatMap Exchange.bytes ++ rest) : memcpyLoop ok conn dest src =
      .ok (ok && xs.all fun x => replyOk x.last.reply,
        { conn with input := rest, output := conn.output ++ writtenAll xs (memcpyCommands dest src) }) := by
  induction dest, src using memcpyCommands.induct generalizing xs conn ok with
  | case1 dest src h ih =>
    rw [memcpyCommands, if_pos h] at hxs ⊢
    rw [memcpyLoop, if_pos h]
    obtain ⟨x, xs, rfl⟩ := List.exists_cons_of_length_eq_add_one hxs
    rw [List.flatMap_cons, List.append_assoc] at hinput
    rw [memcpySmall_answered x hack hinput]
    let sent : Conn := { conn with
      input := xs.flatMap Exchange.bytes ++ rest
      output := conn.output ++ x.written (memcpyCommand dest (src.take mtu)) }
    have hsent : sent.ack = true := hack
    refine (ih (ok && replyOk x.last.reply) (Nat.succ_injective hxs) hsent rfl).trans ?_
    rw [List.all_cons, Bool.and_assoc]
    simp [writtenAll, sent]
  | case2 dest src h =>
    rw [memcpyCommands, if_neg h] at hxs ⊢
    rw [memcpyLoop, if_neg h]
    obtain ⟨x, rfl⟩ := List.length_eq_one_iff.mp hxs
    rw [List.flatMap_singleton] at hinput
    rw [memcpySmall_answered x hack hinput]
    simp [writtenAll, bind, Except.bind, pure, Except.pure]

/-- **The memory is copied**: if the stub answers every command with `OK`, the assertion holds, and what the client wrote
makes the stub write the bytes; refusals and damaged replies change nothing but how often they are repeated. -/
theorem difftestMemcpy_copies {R : Type*} {obey : R → List Byte → R × List Byte} {mem : R → BitVec 32 → Byte}
    (hmem : WritesMemory obey mem) {r : R} {xs : List Exchange} {addr : BitVec 32} {buf : List Byte} {conn : Conn}
    {rest : List Byte} (hlen : buf.length < 2 ^ 31) (hanswered : Answered obey r (memcpyCommands addr buf) xs)
    (hok : ∀ x ∈ xs, x.last.reply = text "OK") (hack : conn.ack = true)
    (hinput : conn.input = xs.flatMap Exchange.bytes ++ rest) :
    ∃ w, difftestMemcpy conn addr buf = .ok { conn with input := rest, output := conn.output ++ w } ∧
      (∃ r', Session obey r xs w r') ∧ ∀ r', Session obey r xs w r' → mem r' = writeBytes (mem r) addr buf := by
  have hsession : ∀ r', Session obey r xs _ r' ↔ r' = _ := fun _ => hanswered.session_iff (memcpyCommands_noEnd buf addr)
  refine ⟨writtenAll xs (memcpyCommands addr buf), ?_, ⟨_, (hsession _).mpr rfl⟩, fun r' hr' => ?_⟩
  · have hall : (xs.all fun x => replyOk x.last.reply) = true := by
      refine List.all_eq_true.mpr fun x hx => ?_
      rw [hok x hx]
      rfl
    unfold difftestMemcpy gdbMemcpyToQemu
    rw [memcpyLoop_answered true hanswered.length hack hinput, hall]
    rfl
  · rw [(hsession r').mp hr']
    exact hmem.obeyAll_memcpy (by omega) hanswered hok

/-- Two pieces, `1501` bytes of `7`: the last of them is written, and the byte behind it is not. -/
theorem difftestMemcpy_copies_two : ∃ w,
    difftestMemcpy ⟨[lateOk, .clean (text "OK")].flatMap Exchange.bytes ++ [], [], true⟩ 0x80000000
        (List.replicate 1501 7) = .ok ⟨[], [] ++ w, true⟩ ∧
      ∀ r', Session Guest.obey ⟨fun _ => 0, []⟩ [lateOk, .clean (text "OK")] w r' →
        r'.mem 0x800005dc = 7 ∧ r'.mem 0x800005dd = 0 := by
  have hlen : (List.replicate 1501 (7 : Byte)).length = 1501 := List.length_replicate
  have hpieces : memcpyCommands 0x80000000 (List.replicate 1501 7) =
      [memcpyCommand 0x80000000 ((List.replicate 1501 7).take mtu),
        memcpyCommand (0x80000000 + BitVec.ofNat 32 mtu) ((List.replicate 1501 7).drop mtu)] := by
    unfold memcpyCommands
    rw [if_pos (by rw [hlen]; decide)]
    unfold memcpyCommands
    rw [if_neg (by rw [List.length_drop, hlen]; decide)]
  have hclean : (Exchange.clean (text "OK")).last.reply = text "OK" := Exchange.clean_reply _
  have hanswered : Answered Guest.obey ⟨fun _ => 0, []⟩ (memcpyCommands 0x80000000 (List.replicate 1501 7))
      [lateOk, .clean (text "OK")] := by
    rw [hpieces]
    refine ⟨?_, ?_, trivial⟩
    · rw [Guest.obey_isM _ (isM_memcpyCommand _ _)]
      rfl
    · rw [Guest.obey_isM _ (isM_memcpyCommand _ _)]
      exact hclean
  obtain ⟨w, hcopy, -, hmem⟩ := @difftestMemcpy_copies _ _ _ Guest.writesMemory _ _ _ _
    ⟨[lateOk, .clean (text "OK")].flatMap Exchange.bytes ++ [], [], true⟩ [] (by rw [hlen]; decide) hanswered
    (List.forall_mem_cons.mpr ⟨rfl, List.forall_mem_singleton.mpr hclean⟩) rfl rfl
  refine ⟨w, hcopy, fun r' hr' => ?_⟩
  rw [hmem r' hr']
  unfold writeBytes
  rw [List.getElem?_replicate_of_lt (by decide), List.getElem?_eq_none (by rw [hlen]; decide)]
  exact ⟨rfl, rfl⟩

/-! ## Copying registers -/

/-- Register `i` of a reply. -/
theorem regOf_reply (heap : ℕ → Byte) {reply : List Byte} {regs : List (BitVec 32)}
    (hreply : readBytes reply = some (regs.flatMap wordBytes)) {i : ℕ} {v : BitVec 32} (hget : regs[i]? = some v) :
    regOf (buffer heap reply) i = v := by
  have hword : ∀ v ∈ regs, (wordBytes v).length = 4 := fun _ _ => rfl
  have hi : i < regs.length := (List.getElem?_eq_some_iff.mp hget).1
  have htotal : reply.length = 2 * (regs.length * 4) := by
    rw [readBytes_length hreply, Chunks.length_flatMap hword]
  have hbytes : ((regs.flatMap wordBytes).drop (4 * i)).take 4 = wordBytes v := by
    apply List.ext_getElem?
    intro j
    by_cases hj : j < 4
    · have hbyte := Chunks.getElem?_flatMap hword hj (j := i)
      rw [hget, Option.bind_some, mul_comm] at hbyte
      rw [List.getElem?_take_of_lt hj, List.getElem?_drop, hbyte]
    · rw [List.getElem?_take_eq_none (not_lt.mp hj), List.getElem?_eq_none (not_lt.mp hj : (wordBytes v).length ≤ j)]
  have hdigits : readBytes ((reply.drop (8 * i)).take 8) = some (wordBytes v) := by
    have hpart := readBytes_take 4 (readBytes_drop (4 * i) hreply)
    rwa [hbytes, show 2 * (4 * i) = 8 * i by omega] at hpart
  have hchars : ((List.range 8).map fun j => buffer heap reply (8 * i + j)) = (reply.drop (8 * i)).take 8 := by
    apply List.ext_getElem?
    intro j
    by_cases hj : j < 8
    · have hin : 8 * i + j < reply.length := by omega
      rw [List.getElem?_map, List.getElem?_range hj, List.getElem?_take_of_lt hj, List.getElem?_drop, Option.map_some]
      unfold buffer
      rw [if_neg hin.ne, List.getElem?_eq_getElem hin]
      rfl
    · rw [List.getElem?_eq_none (by simpa using hj), List.getElem?_take_eq_none (not_lt.mp hj)]
  unfold regOf
  rw [hchars, gdbDecodeHexStr_word hdigits (show NoDigits [0] from trivial)]
  simp

theorem gdbGetregs_answered (x : Exchange) {conn : Conn} (hack : conn.ack = true) {rest : List Byte}
    (hinput : conn.input = x.bytes ++ rest) (heap : ℕ → Byte) : gdbGetregs heap conn =
      .ok ((List.range regsWords).map (regOf (buffer heap x.last.reply)),
        { conn with input := rest, output := conn.output ++ x.written (text "g") }) := by
  unfold gdbGetregs
  rw [request_answered x hack hinput]
  rfl

/-- **The registers of the stub are copied**: the word `i` of the device under test is register `i`. -/
theorem difftestRegcpyToDut_copies (x : Exchange) {conn : Conn} (hack : conn.ack = true) {rest : List Byte}
    (hinput : conn.input = x.bytes ++ rest) (heap : ℕ → Byte) {regs : List (BitVec 32)}
    (hreply : readBytes x.last.reply = some (regs.flatMap wordBytes)) (hregs : difftestRegs ≤ regs.length) :
    difftestRegcpyToDut heap conn = .ok (regs.take difftestRegs,
      { conn with input := rest, output := conn.output ++ x.written (text "g") }) := by
  have htake : ((List.range regsWords).map (regOf (buffer heap x.last.reply))).take difftestRegs =
      regs.take difftestRegs := by
    apply List.ext_getElem?
    intro i
    by_cases hi : i < difftestRegs
    · have hget := List.getElem?_eq_getElem (hi.trans_le hregs)
      have hlt : i < regsWords := hi.trans (by decide)
      rw [List.getElem?_take_of_lt hi, List.getElem?_take_of_lt hi, List.getElem?_map, List.getElem?_range hlt, hget]
      exact congrArg some (regOf_reply heap hreply hget)
    · rw [List.getElem?_take_eq_none (not_lt.mp hi), List.getElem?_take_eq_none (not_lt.mp hi)]
  unfold difftestRegcpyToDut
  rw [gdbGetregs_answered x hack hinput]
  show Except.ok (((List.range regsWords).map _).take difftestRegs, _) = _
  rw [htake]

/-- The words that `difftest_regcpy` gives to the stub, whose registers came as `reply`. -/
def regcpyWords (heap : ℕ → Byte) (dut : List (BitVec 32)) (reply : List Byte) : List (BitVec 32) :=
  dut.take difftestRegs ++ ((List.range regsWords).map (regOf (buffer heap reply))).drop difftestRegs

/-- The registers beyond those of the device under test are given what they had. -/
theorem regcpyWords_reply (heap : ℕ → Byte) {dut regs : List (BitVec 32)} {reply : List Byte}
    (hdut : dut.length = difftestRegs) (hreply : readBytes reply = some (regs.flatMap wordBytes))
    (hregs : difftestRegs ≤ regs.length) :
    (regcpyWords heap dut reply).take regs.length ++ regs.drop (regcpyWords heap dut reply).length =
      dut ++ regs.drop difftestRegs := by
  have hlen : (regcpyWords heap dut reply).length = regsWords := by
    rw [regcpyWords, List.length_append, List.length_take, List.length_drop, List.length_map, List.length_range, hdut]
    rfl
  have hword : ∀ {i}, i < regsWords → i < regs.length →
      (regcpyWords heap dut reply)[i]? = (dut ++ regs.drop difftestRegs)[i]? := by
    intro i hi hin
    have hget := List.getElem?_eq_getElem hin
    unfold regcpyWords
    rw [List.take_of_length_le hdut.le]
    by_cases hcopied : i < difftestRegs
    · rw [List.getElem?_append_left (hdut ▸ hcopied), List.getElem?_append_left (hdut ▸ hcopied)]
    · have hdiff : difftestRegs + (i - difftestRegs) = i := by omega
      rw [List.getElem?_append_right (by omega), List.getElem?_append_right (by omega), hdut, List.getElem?_drop,
        List.getElem?_drop, hdiff, List.getElem?_map, List.getElem?_range hi, hget]
      exact congrArg some (regOf_reply heap hreply hget)
  have hall : (dut ++ regs.drop difftestRegs).length = regs.length := by
    rw [List.length_append, List.length_drop, hdut]
    omega
  apply List.ext_getElem?
  intro i
  by_cases hin : i < regs.length
  · by_cases hi : i < regsWords
    · rw [List.getElem?_append_left (by rw [List.length_take, hlen]; omega), List.getElem?_take_of_lt hin, hword hi hin]
    · have hmany : ((regcpyWords heap dut reply).take regs.length).length = regsWords := by
        rw [List.length_take, hlen]
        omega
      have hbehind : difftestRegs ≤ i := le_trans (by decide) (not_lt.mp hi)
      rw [List.getElem?_append_right (by omega), hmany, hlen, List.getElem?_drop,
        List.getElem?_append_right (by omega), hdut, List.getElem?_drop]
      congr 1
      omega
  · rw [List.getElem?_eq_none (by rw [List.length_append, List.length_take, List.length_drop, hlen]; omega),
      List.getElem?_eq_none (by omega)]

theorem difftestRegcpyToRef_answered (x y : Exchange) {conn : Conn} (hack : conn.ack = true) {rest : List Byte}
    (hinput : conn.input = x.bytes ++ (y.bytes ++ rest)) (heap : ℕ → Byte) (dut : List (BitVec 32)) :
    difftestRegcpyToRef heap dut conn = .ok { conn with
      input := rest
      output := conn.output ++
        writtenAll [x, y] [text "g", setregsCommand (regcpyWords heap dut x.last.reply)] } := by
  let sent : Conn := { conn with input := y.bytes ++ rest, output := conn.output ++ x.written (text "g") }
  have hsent : sent.ack = true := hack
  unfold difftestRegcpyToRef
  rw [gdbGetregs_answered x hack hinput]
  show (gdbSetregs (regcpyWords heap dut x.last.reply) sent >>= fun r => Except.ok r.2) = _
  unfold gdbSetregs
  rw [request_answered y hsent rfl]
  have hwritten : conn.output ++ writtenAll [x, y] [text "g", setregsCommand (regcpyWords heap dut x.last.reply)] =
      conn.output ++ x.written (text "g") ++ y.written (setregsCommand (regcpyWords heap dut x.last.reply)) := by
    simp [writtenAll]
  rw [hwritten]
  rfl

section Registers

variable {R : Type*} {obey : R → List Byte → R × List Byte} {regs : R → List (BitVec 32)}

/-- **Registers that are copied to the stub come back**: what the client wrote makes the stub take the registers of the
device under test and keep its others, and they are read when the registers are asked for. -/
theorem regcpy_round_trip (hcopies : CopiesRegisters obey regs) {r : R} (x y z : Exchange) {conn : Conn}
    (hack : conn.ack = true) {rest : List Byte} (hinput : conn.input = x.bytes ++ (y.bytes ++ (z.bytes ++ rest)))
    (heap heap' : ℕ → Byte) {dut : List (BitVec 32)} (hdut : dut.length = difftestRegs) (hzero : dut.head? = some 0)
    (hregs : difftestRegs ≤ (regs r).length)
    (hanswered : Answered obey r
      [text "g", setregsCommand (regcpyWords heap dut x.last.reply), text "g"] [x, y, z])
    (hok : y.last.reply = text "OK") :
    ∃ w conn', difftestRegcpyToRef heap dut conn = .ok conn' ∧ conn'.output = conn.output ++ w ∧
      (∃ r', Session obey r [x, y] w r') ∧
      (∀ r', Session obey r [x, y] w r' → regs r' = dut ++ (regs r).drop difftestRegs) ∧
      ∃ conn'', difftestRegcpyToDut heap' conn' = .ok (dut, conn'') := by
  obtain ⟨hx, hy, hz, -⟩ := hanswered
  have hcommands : Answered obey r [text "g", setregsCommand (regcpyWords heap dut x.last.reply)] [x, y] :=
    ⟨hx, hy, trivial⟩
  have hend : ∀ c ∈ [text "g", setregsCommand (regcpyWords heap dut x.last.reply)], chr '#' ∉ c :=
    List.forall_mem_cons.mpr ⟨by decide, List.forall_mem_singleton.mpr (setregsCommand_noEnd _)⟩
  have hsession : ∀ r', Session obey r [x, y] _ r' ↔ r' = _ := fun _ => hcommands.session_iff hend
  obtain ⟨hread, hkept⟩ := hcopies.read r
  rw [← hx] at hread
  have hhead : (regcpyWords heap dut x.last.reply).head? = some 0 := by
    cases dut with
    | nil => cases hzero
    | cons v dut => exact hzero
  have hwritten := hcopies.write (obey r (text "g")).1 _ _ (readBytes_hexByte _) hhead (hy.symm.trans hok)
  rw [hkept, regcpyWords_reply heap hdut hread hregs] at hwritten
  let back : Conn := { conn with
    input := z.bytes ++ rest
    output := conn.output ++ writtenAll [x, y] [text "g", setregsCommand (regcpyWords heap dut x.last.reply)] }
  have hto : difftestRegcpyToRef heap dut conn = .ok back := difftestRegcpyToRef_answered x y hack hinput heap dut
  refine ⟨_, back, hto, rfl, ⟨_, (hsession _).mpr rfl⟩, fun r' hr' => ?_, ?_⟩
  · rw [(hsession r').mp hr']
    exact hwritten
  · have hback := (hcopies.read (obeyAll obey r [text "g", setregsCommand (regcpyWords heap dut x.last.reply)])).1
    have hnow : regs (obeyAll obey r [text "g", setregsCommand (regcpyWords heap dut x.last.reply)]) =
        dut ++ (regs r).drop difftestRegs := hwritten
    rw [hnow] at hback
    have hcopy := difftestRegcpyToDut_copies z (show back.ack = true from hack) rfl heap' (by rw [hz]; exact hback)
      (by rw [List.length_append, hdut]; omega)
    rw [List.take_append_of_le_length hdut.ge, List.take_of_length_le hdut.le] at hcopy
    exact ⟨_, hcopy⟩

/-- Zero and registers that are all 5, for a guest whose registers were 1 and that has one more. -/
theorem regcpy_round_trip_five : ∃ w conn' conn'',
    difftestRegcpyToRef (fun _ => 0) (0 :: List.replicate 32 5)
        ⟨(Exchange.clean (((0 :: List.replicate 33 1 : List (BitVec 32)).flatMap wordBytes).flatMap hexByte)).bytes ++
          (lateOk.bytes ++ ((Exchange.clean (((0 :: List.replicate 32 5 ++ [1] : List (BitVec 32)).flatMap
            wordBytes).flatMap hexByte)).bytes ++ [])), [], true⟩ = .ok conn' ∧
      conn'.output = [] ++ w ∧
      (∀ r', Session Guest.obey ⟨fun _ => 0, 0 :: List.replicate 33 1⟩
        [.clean (((0 :: List.replicate 33 1 : List (BitVec 32)).flatMap wordBytes).flatMap hexByte), lateOk] w r' →
          r'.regs = 0 :: List.replicate 32 5 ++ [1]) ∧
      difftestRegcpyToDut (fun _ => 0) conn' = .ok (0 :: List.replicate 32 5, conn'') := by
  let regs : List (BitVec 32) := 0 :: List.replicate 33 1
  let dut : List (BitVec 32) := 0 :: List.replicate 32 5
  let x := Exchange.clean ((regs.flatMap wordBytes).flatMap hexByte)
  let z := Exchange.clean (((dut ++ [1]).flatMap wordBytes).flatMap hexByte)
  have hx : x.last.reply = (regs.flatMap wordBytes).flatMap hexByte := Exchange.clean_reply _
  have hz : z.last.reply = ((dut ++ [1]).flatMap wordBytes).flatMap hexByte := Exchange.clean_reply _
  have hset := Guest.obey_setregs ⟨fun _ => 0, regs⟩
    (readBytes_hexByte ((regcpyWords (fun _ => 0) dut x.last.reply).flatMap wordBytes))
  rw [regcpyWords_reply (fun _ => 0) rfl (by rw [hx]; exact readBytes_hexByte _) (by decide)] at hset
  have hanswered : Answered Guest.obey ⟨fun _ => 0, regs⟩
      [text "g", setregsCommand (regcpyWords (fun _ => 0) dut x.last.reply), text "g"] [x, lateOk, z] := by
    refine ⟨hx, congrArg Prod.snd hset.symm, ?_, trivial⟩
    show _ = (Guest.obey (Guest.obey ⟨fun _ => 0, regs⟩ (text "G" ++ _)).1 (text "g")).2
    rw [hset]
    exact hz
  obtain ⟨w, conn', hto, hout, -, hregs, conn'', hback⟩ := @regcpy_round_trip _ _ _ Guest.copiesRegisters _ x lateOk z
    ⟨x.bytes ++ (lateOk.bytes ++ (z.bytes ++ [])), [], true⟩ rfl [] rfl (fun _ => 0) (fun _ => 0) dut rfl rfl (by decide)
    hanswered rfl
  exact ⟨w, conn', conn'', hto, hout, hregs, hback⟩

end Registers

/-! ## Stepping -/

theorem gdbSi_answered (x : Exchange) {conn : Conn} (hack : conn.ack = true) {rest : List Byte}
    (hinput : conn.input = x.bytes ++ rest) : gdbSi conn =
      .ok { conn with input := rest, output := conn.output ++ x.written (text "vCont;s:1") } := by
  unfold gdbSi
  rw [request_answered x hack hinput]
  rfl

theorem difftestExec_answered (xs : List Exchange) {rest : List Byte} : ∀ {conn : Conn}, conn.ack = true →
    conn.input = xs.flatMap Exchange.bytes ++ rest → difftestExec xs.length conn = .ok { conn with
      input := rest
      output := conn.output ++ writtenAll xs (List.replicate xs.length (text "vCont;s:1")) } := by
  induction xs with
  | nil =>
    intro conn _ hinput
    have houtput : conn.output ++ writtenAll [] (List.replicate ([] : List Exchange).length (text "vCont;s:1")) = conn.output :=
      List.append_nil _
    rw [houtput, ← show conn.input = rest from hinput]
    rfl
  | cons x xs ih =>
    intro conn hack hinput
    rw [List.flatMap_cons, List.append_assoc] at hinput
    let sent : Conn := { conn with
      input := xs.flatMap Exchange.bytes ++ rest
      output := conn.output ++ x.written (text "vCont;s:1") }
    have hsent : sent.ack = true := hack
    show (gdbSi conn >>= difftestExec xs.length) = _
    rw [gdbSi_answered x hack hinput]
    refine (@ih sent hsent rfl).trans ?_
    rw [List.length_cons, List.replicate_succ]
    simp [writtenAll, sent]

/-- **`difftest_exec` makes the stub step once for each instruction.** -/
theorem difftestExec_steps {R : Type*} {obey : R → List Byte → R × List Byte} {r : R} {xs : List Exchange} {conn : Conn}
    {rest : List Byte} (hanswered : Answered obey r (List.replicate xs.length (text "vCont;s:1")) xs)
    (hack : conn.ack = true) (hinput : conn.input = xs.flatMap Exchange.bytes ++ rest) :
    ∃ w, difftestExec xs.length conn = .ok { conn with input := rest, output := conn.output ++ w } ∧
      ∀ r', Session obey r xs w r' ↔ r' = (fun r => (obey r (text "vCont;s:1")).1)^[xs.length] r := by
  have hiterate : ∀ n r, obeyAll obey r (List.replicate n (text "vCont;s:1")) =
      (fun r => (obey r (text "vCont;s:1")).1)^[n] r := by
    intro n
    induction n with
    | zero => exact fun _ => rfl
    | succ n ih => exact fun r => ih _
  refine ⟨_, difftestExec_answered xs hack hinput, fun r' => ?_⟩
  rw [hanswered.session_iff fun c hc => by rw [List.eq_of_mem_replicate hc]; decide, hiterate]

end QemuDiff
