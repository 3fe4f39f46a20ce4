import Rv32i.QemuDiff.Hex

/-!
# The GDB client: packets

`send_packet` and `recv_packet` of `tools/qemu-diff/src/protocol.c`.  What comes from a connection is the list of the
bytes that will be read.

* `sendPacket`, `recvPacket` — the functions of the client, with the size of the reply buffer;
* `Item` — the forms in which a stub writes the characters of a reply: plain, escaped, or as a run of the last one;
* `recvPacket_items` — **a packet is read as what its items stand for**, whatever comes before it and after it;
* `recvPacket_never_overruns` — no input makes the client write past its buffer;
* `recvPacket_sendPacket` — what the client sends is read back by the client;
* `packets_read` — **a packet in which a character is changed is refused**.
-/

namespace QemuDiff

/-- How the client ends: the connection is closed, a store goes past the end of the buffer, or an assertion fails. -/
inductive Fault
  | closed | overrun | assert
  deriving DecidableEq, Repr

abbrev Exec := Except Fault

/-! ## Sending -/

/-- `sum`, modulo 256. -/
def sumOf (bytes : List Byte) : Byte := bytes.foldl (· + ·) 0

def sendPacket (command : List Byte) : List Byte :=
  chr '$' :: command ++ [chr '#', hexUpper (sumOf command >>> 4), hexUpper (sumOf command &&& 0xf)]

/-! ## Receiving -/

/-- The variables of `recv_packet`; `reply` has its first `i` bytes. -/
structure Recv where
  size : ℕ
  reply : List Byte
  sum : Byte
  escape : Bool

/-- A store of `bytes` at `reply[i]` when the buffer has `size` bytes. -/
def Recv.store (s : Recv) (size : ℕ) (bytes : List Byte) : Exec Recv :=
  if s.reply.length + bytes.length ≤ size then .ok { s with size, reply := s.reply ++ bytes } else .error .overrun

/-- The end of the loop: an escaped character is taken for another, and is added. -/
def Recv.add (s : Recv) (c : Byte) : Exec Recv :=
  { s with escape := false }.store (if s.reply.length = s.size then 2 * s.size else s.size)
    [if s.escape then c ^^^ 0x20 else c]

/-- `count` more of the last character. -/
def Recv.repeat (s : Recv) (last c2 : Byte) : Exec Recv :=
  let count := c2.toNat - 29
  { s with sum := s.sum + c2 }.store (if s.size < s.reply.length + count then 2 * s.size else s.size)
    (List.replicate count last)

/-- `fgetc` into a `uint8_t`. -/
def fgetc : List Byte → Byte × List Byte
  | [] => (0xff, [])
  | c :: rest => (c, rest)

structure Packet where
  reply : List Byte
  sumOk : Bool
  deriving DecidableEq, Repr

/-- The case `'#'`: the checksum is read and the reply is terminated, for which the buffer grows if it is full. -/
def Recv.finish (s : Recv) (rest : List Byte) : Exec (Packet × List Byte) :=
  let (msb, rest) := fgetc rest
  let (lsb, rest) := fgetc rest
  if s.reply.length ≤ s.size then .ok (⟨s.reply, s.sum.setWidth 16 = gdbDecodeHex msb lsb⟩, rest) else .error .overrun

/-- The counts that `recv_packet` takes. -/
def ValidCount (c2 : Byte) : Prop := 29 ≤ c2.toNat ∧ c2.toNat ≤ 126 ∧ c2 ≠ chr '$' ∧ c2 ≠ chr '#'

instance (c2 : Byte) : Decidable (ValidCount c2) := by unfold ValidCount; infer_instance

/-- The loop, behind the first start of a packet. -/
def recvLoop (s : Recv) : List Byte → Exec (Packet × List Byte)
  | [] => .error .closed
  | c :: rest =>
    if c = chr '$' then recvLoop { s with reply := [], sum := 0, escape := false } rest
    else if c = chr '#' then s.finish rest
    else
      let s := { s with sum := s.sum + c }
      if c = chr '}' then recvLoop { s with escape := true } rest
      else
        let added := s.add c >>= fun s => recvLoop s rest
        match rest with
        | [] => added
        | c2 :: rest' =>
          match s.reply.getLast? with
          | none => added
          | some last =>
            if c = chr '*' ∧ ValidCount c2 then s.repeat last c2 >>= fun s => recvLoop s rest' else added

/-- To the first start of a packet. -/
def skipTo : List Byte → List Byte
  | [] => []
  | c :: rest => if c = chr '$' then rest else skipTo rest

def recvPacket (input : List Byte) : Exec (Packet × List Byte) :=
  recvLoop { size := 4096, reply := [], sum := 0, escape := false } (skipTo input)

/-! ## One turn of the loop -/

/-- The characters that are not themselves. -/
def special : List Byte := [chr '$', chr '#', chr '}', chr '*']

section Turns

variable (s : Recv) {c : Byte} (rest : List Byte)

theorem recvLoop_start : recvLoop s (chr '$' :: rest) = recvLoop { s with reply := [], sum := 0, escape := false } rest := by
  rw [recvLoop, if_pos rfl]

theorem recvLoop_end : recvLoop s (chr '#' :: rest) = s.finish rest := by
  rw [recvLoop, if_neg (by decide), if_pos rfl]

theorem recvLoop_escape :
    recvLoop s (chr '}' :: rest) = recvLoop { s with sum := s.sum + chr '}', escape := true } rest := by
  rw [recvLoop, if_neg (by decide), if_neg (by decide)]
  exact if_pos rfl

theorem recvLoop_char (h : c ∉ special) :
    recvLoop s (c :: rest) = { s with sum := s.sum + c }.add c >>= fun s => recvLoop s rest := by
  simp only [special, List.mem_cons, List.not_mem_nil, or_false, not_or] at h
  obtain ⟨h1, h2, h3, h4⟩ := h
  rw [recvLoop, if_neg h1, if_neg h2]
  dsimp only
  rw [if_neg h3]
  cases rest with
  | nil => rfl
  | cons c2 rest =>
    dsimp only
    cases s.reply.getLast? with
    | none => rfl
    | some last => exact if_neg fun hc => h4 hc.1

/-- A `*` that repeats nothing, or is followed by no count, is a character. -/
theorem recvLoop_star_char (h : ∀ last c2 rest', s.reply.getLast? = some last → rest = c2 :: rest' → ¬ ValidCount c2) :
    recvLoop s (chr '*' :: rest) = { s with sum := s.sum + chr '*' }.add (chr '*') >>= fun s => recvLoop s rest := by
  rw [recvLoop, if_neg (by decide), if_neg (by decide)]
  dsimp only
  rw [if_neg (by decide)]
  cases rest with
  | nil => rfl
  | cons c2 rest =>
    dsimp only
    cases hlast : s.reply.getLast? with
    | none => rfl
    | some last => exact if_neg fun hc => h last c2 rest hlast rfl hc.2

theorem recvLoop_star {last c2 : Byte} (hlast : s.reply.getLast? = some last) (hcount : ValidCount c2) :
    recvLoop s (chr '*' :: c2 :: rest) =
      { s with sum := s.sum + chr '*' }.repeat last c2 >>= fun s => recvLoop s rest := by
  rw [recvLoop, if_neg (by decide), if_neg (by decide)]
  dsimp only
  rw [if_neg (by decide), hlast]
  exact if_pos ⟨rfl, hcount⟩

end Turns

/-! ## The buffer -/

/-- The reply is in its buffer, which has not shrunk. -/
structure Recv.Fits (s : Recv) : Prop where
  reply : s.reply.length ≤ s.size
  size : 4096 ≤ s.size

section Buffer

variable {s : Recv}

theorem Recv.Fits.add (h : s.Fits) (c : Byte) : ∃ size, s.add c =
      .ok { size, reply := s.reply ++ [if s.escape then c ^^^ 0x20 else c], sum := s.sum, escape := false } ∧
    s.reply.length + 1 ≤ size ∧ 4096 ≤ size := by
  obtain ⟨hreply, hsize⟩ := h
  refine ⟨if s.reply.length = s.size then 2 * s.size else s.size, if_pos ?_, ?_, ?_⟩
  · show s.reply.length + 1 ≤ _
    split <;> omega
  · split <;> omega
  · split <;> omega

theorem Recv.Fits.repeat (h : s.Fits) (last : Byte) {c2 : Byte} (hcount : ValidCount c2) :
    ∃ size, s.repeat last c2 = .ok { s with
        size, reply := s.reply ++ List.replicate (c2.toNat - 29) last, sum := s.sum + c2 } ∧
      s.reply.length + (c2.toNat - 29) ≤ size ∧ 4096 ≤ size := by
  obtain ⟨hreply, hsize⟩ := h
  obtain ⟨-, hmax, -⟩ := hcount
  refine ⟨if s.size < s.reply.length + (c2.toNat - 29) then 2 * s.size else s.size, if_pos ?_, ?_, ?_⟩
  · show s.reply.length + (List.replicate _ last).length ≤ _
    rw [List.length_replicate]
    split <;> omega
  · split <;> omega
  · split <;> omega

theorem Recv.Fits.finish (h : s.Fits) (rest : List Byte) : s.finish rest =
    .ok (⟨s.reply, s.sum.setWidth 16 = gdbDecodeHex (fgetc rest).1 (fgetc (fgetc rest).2).1⟩, (fgetc (fgetc rest).2).2) :=
  if_pos h.reply

/-- A turn that does not end the packet leads to another one, within the buffer; it takes no start of a packet with it. -/
theorem recvLoop_turn (h : s.Fits) {c : Byte} (hend : c ≠ chr '#') (rest : List Byte) :
    ∃ s' rest', s'.Fits ∧ recvLoop s (c :: rest) = recvLoop s' rest' ∧
      (rest' = rest ∨ ∃ c2, c2 ≠ chr '$' ∧ rest = c2 :: rest') := by
  by_cases hstart : c = chr '$'
  · subst hstart
    exact ⟨{ s with reply := [], sum := 0, escape := false }, rest, ⟨Nat.zero_le _, h.size⟩, recvLoop_start s rest, .inl rfl⟩
  by_cases hescape : c = chr '}'
  · subst hescape
    exact ⟨{ s with sum := s.sum + chr '}', escape := true }, rest, ⟨h.reply, h.size⟩, recvLoop_escape s rest, .inl rfl⟩
  have hsum : ({ s with sum := s.sum + c } : Recv).Fits := ⟨h.reply, h.size⟩
  have hadd : ∃ s', s'.Fits ∧ ({ s with sum := s.sum + c }.add c >>= fun s => recvLoop s rest) = recvLoop s' rest := by
    obtain ⟨size, hadd, hfits, hsize⟩ := hsum.add c
    refine ⟨_, ⟨?_, hsize⟩, by rw [hadd]; rfl⟩
    rw [List.length_append, List.length_singleton]
    exact hfits
  obtain ⟨s', h', heq⟩ := hadd
  by_cases hstar : c = chr '*'
  · subst hstar
    by_cases hrun : ∃ last c2 rest', s.reply.getLast? = some last ∧ rest = c2 :: rest' ∧ ValidCount c2
    · obtain ⟨last, c2, rest', hlast, rfl, hcount⟩ := hrun
      obtain ⟨size, hrepeat, hfits, hsize⟩ := hsum.repeat last hcount
      refine ⟨_, rest', ⟨?_, hsize⟩, by rw [recvLoop_star s rest' hlast hcount, hrepeat]; rfl, .inr ⟨c2, hcount.2.2.1, rfl⟩⟩
      rw [List.length_append, List.length_replicate]
      exact hfits
    · refine ⟨s', rest, h', (recvLoop_star_char s rest ?_).trans heq, .inl rfl⟩
      intro last c2 rest' hlast hrest hcount
      exact hrun ⟨last, c2, rest', hlast, hrest, hcount⟩
  · refine ⟨s', rest, h', (recvLoop_char s rest ?_).trans heq, .inl rfl⟩
    simp only [special, List.mem_cons, List.not_mem_nil, or_false, not_or]
    exact ⟨hstart, hend, hescape, hstar⟩

theorem recvLoop_fits (n : ℕ) : ∀ (s : Recv) (input : List Byte), s.Fits → input.length ≤ n →
    recvLoop s input ≠ .error .overrun := by
  induction n with
  | zero =>
    intro s input _ hlen
    rw [List.length_eq_zero_iff.mp (Nat.le_zero.mp hlen)]
    nofun
  | succ n ih =>
    intro s input hfits hlen
    cases input with
    | nil => nofun
    | cons c rest =>
      have hrest : rest.length ≤ n := Nat.le_of_succ_le_succ hlen
      by_cases hend : c = chr '#'
      · rw [hend, recvLoop_end, hfits.finish]
        nofun
      · obtain ⟨s', rest', hfits', heq, rfl | ⟨c2, -, rfl⟩⟩ := recvLoop_turn hfits hend rest
        · rw [heq]
          exact ih s' rest' hfits' hrest
        · rw [heq]
          exact ih s' rest' hfits' ((Nat.le_succ _).trans hrest)

/-- **No input makes the client write past its buffer.** -/
theorem recvPacket_never_overruns (input : List Byte) : recvPacket input ≠ .error .overrun :=
  recvLoop_fits _ _ _ ⟨Nat.zero_le _, le_rfl⟩ le_rfl

end Buffer

/-! ## What a stub sends -/

/-- A form in which a stub writes characters of a reply. -/
inductive Item
  | plain (c : Byte)
  | escaped (c : Byte)
  | run (n : ℕ)
  deriving DecidableEq, Repr

def Item.wire : Item → List Byte
  | .plain c => [c]
  | .escaped c => [chr '}', c ^^^ 0x20]
  | .run n => [chr '*', BitVec.ofNat 8 (n + 29)]

/-- The reply with the characters of the item. -/
def Item.expand (reply : List Byte) : Item → List Byte
  | .plain c | .escaped c => reply ++ [c]
  | .run n => reply ++ List.replicate n (reply.getLast?.getD 0)

/-- The item may follow the reply: nothing special stands for itself, and a run repeats something. -/
def Item.Valid (reply : List Byte) : Item → Prop
  | .plain c => c ∉ special
  | .escaped c => c ^^^ 0x20 ∉ special
  | .run n => reply ≠ [] ∧ n ≤ 97 ∧ n ≠ 6 ∧ n ≠ 7

def wireOf (items : List Item) : List Byte := items.flatMap Item.wire

def expandFrom : List Byte → List Item → List Byte
  | reply, [] => reply
  | reply, i :: items => expandFrom (i.expand reply) items

def ValidFrom : List Byte → List Item → Prop
  | _, [] => True
  | reply, i :: items => i.Valid reply ∧ ValidFrom (i.expand reply) items

instance (reply : List Byte) (i : Item) : Decidable (i.Valid reply) := by
  cases i <;> unfold Item.Valid <;> infer_instance

instance decidableValidFrom : (reply : List Byte) → (items : List Item) → Decidable (ValidFrom reply items)
  | _, [] => .isTrue trivial
  | reply, i :: items => @instDecidableAnd _ _ _ (decidableValidFrom (i.expand reply) items)

theorem sumOf_append (xs ys : List Byte) : sumOf (xs ++ ys) = sumOf xs + sumOf ys := by
  have hfold : ∀ (zs : List Byte) (a : Byte), zs.foldl (· + ·) a = a + sumOf zs := by
    intro zs
    induction zs with
    | nil =>
      intro a
      exact (BitVec.add_zero a).symm
    | cons z zs ih =>
      intro a
      show zs.foldl (· + ·) (a + z) = a + zs.foldl (· + ·) (0 + z)
      rw [ih, ih (0 + z), zero_add, BitVec.add_assoc]
  show (xs ++ ys).foldl (· + ·) 0 = _
  rw [List.foldl_append, hfold]
  rfl

/-- The client after some items. -/
structure After (s s' : Recv) (reply wire : List Byte) : Prop where
  fits : s'.Fits
  escape : s'.escape = false
  reply_eq : s'.reply = reply
  sum : s'.sum = s.sum + sumOf wire
  reads : ∀ rest, recvLoop s (wire ++ rest) = recvLoop s' rest

/-- **An item is read as the characters it stands for.** -/
theorem recvLoop_item {s : Recv} (h : s.Fits) (hescape : s.escape = false) {i : Item} (hvalid : i.Valid s.reply) :
    ∃ s', After s s' (i.expand s.reply) i.wire := by
  cases i with
  | plain c =>
    obtain ⟨size, hadd, hfits, hsize⟩ := Recv.Fits.add (s := { s with sum := s.sum + c }) ⟨h.reply, h.size⟩ c
    rw [if_neg (by rw [hescape]; decide)] at hadd
    refine ⟨{ size, reply := s.reply ++ [c], sum := s.sum + c, escape := false }, ⟨?_, hsize⟩, rfl, rfl, ?_,
      fun rest => ?_⟩
    · rw [List.length_append]
      exact hfits
    · exact congrArg (s.sum + ·) (zero_add c).symm
    · rw [Item.wire, List.singleton_append, recvLoop_char s rest hvalid, hadd]
      rfl
  | escaped c =>
    obtain ⟨size, hadd, hfits, hsize⟩ := Recv.Fits.add
      (s := { s with sum := s.sum + chr '}' + (c ^^^ 0x20), escape := true }) ⟨h.reply, h.size⟩ (c ^^^ 0x20)
    rw [if_pos rfl, BitVec.xor_assoc, BitVec.xor_self, BitVec.xor_zero] at hadd
    refine ⟨{ size, reply := s.reply ++ [c], sum := s.sum + chr '}' + (c ^^^ 0x20), escape := false }, ⟨?_, hsize⟩, rfl,
      rfl, ?_, fun rest => ?_⟩
    · rw [List.length_append]
      exact hfits
    · show s.sum + chr '}' + (c ^^^ 0x20) = s.sum + (0 + chr '}' + (c ^^^ 0x20))
      rw [zero_add, BitVec.add_assoc]
    · show recvLoop s (chr '}' :: (c ^^^ 0x20) :: rest) = _
      rw [recvLoop_escape, recvLoop_char _ rest hvalid, hadd]
      rfl
  | run n =>
    obtain ⟨hne, hmax, h6, h7⟩ := hvalid
    have hcount : (BitVec.ofNat 8 (n + 29)).toNat = n + 29 := by
      rw [BitVec.toNat_ofNat, Nat.mod_eq_of_lt (by omega)]
    have hvalid : ValidCount (BitVec.ofNat 8 (n + 29)) := by
      refine ⟨by omega, by omega, fun heq => ?_, fun heq => ?_⟩
      · have := congrArg BitVec.toNat heq
        rw [hcount, show (chr '$').toNat = 36 from rfl] at this
        omega
      · have := congrArg BitVec.toNat heq
        rw [hcount, show (chr '#').toNat = 35 from rfl] at this
        omega
    have hlast := List.getLast?_eq_some_getLast hne
    obtain ⟨size, hrepeat, hfits, hsize⟩ := Recv.Fits.repeat (s := { s with sum := s.sum + chr '*' })
      ⟨h.reply, h.size⟩ (s.reply.getLast hne) hvalid
    rw [hcount, Nat.add_sub_cancel] at hrepeat hfits
    refine ⟨{ s with
        size, reply := s.reply ++ List.replicate n (s.reply.getLast hne)
        sum := s.sum + chr '*' + BitVec.ofNat 8 (n + 29) }, ⟨?_, hsize⟩, hescape, ?_, ?_, fun rest => ?_⟩
    · rw [List.length_append, List.length_replicate]
      exact hfits
    · unfold Item.expand
      rw [hlast]
      rfl
    · show s.sum + chr '*' + BitVec.ofNat 8 (n + 29) = s.sum + (0 + chr '*' + BitVec.ofNat 8 (n + 29))
      rw [zero_add, BitVec.add_assoc]
    · show recvLoop s (chr '*' :: BitVec.ofNat 8 (n + 29) :: rest) = _
      rw [recvLoop_star s rest hlast hvalid, hrepeat]
      rfl

/-- The items one after the other. -/
theorem recvLoop_items (items : List Item) : ∀ {s : Recv}, s.Fits → s.escape = false → ValidFrom s.reply items →
    ∃ s', After s s' (expandFrom s.reply items) (wireOf items) := by
  induction items with
  | nil =>
    intro s h hescape _
    exact ⟨s, h, hescape, rfl, (add_zero s.sum).symm, fun rest => rfl⟩
  | cons i items ih =>
    intro s h hescape hvalid
    obtain ⟨s1, h1⟩ := recvLoop_item h hescape hvalid.1
    obtain ⟨s2, h2⟩ := ih h1.fits h1.escape (by rw [h1.reply_eq]; exact hvalid.2)
    have hwire : wireOf (i :: items) = i.wire ++ wireOf items := rfl
    refine ⟨s2, h2.fits, h2.escape, ?_, ?_, fun rest => ?_⟩
    · rw [h2.reply_eq, h1.reply_eq]
      rfl
    · rw [h2.sum, h1.sum, hwire, sumOf_append, BitVec.add_assoc]
    · rw [hwire, List.append_assoc, h1.reads, h2.reads]

/-! ## What comes before a packet -/

/-- Before the start of a packet nothing counts in which no packet ends: noise, and packets that were broken off. -/
theorem recvLoop_prefix (rest : List Byte) (n : ℕ) : ∀ {s : Recv} {junk : List Byte}, s.Fits → junk.length ≤ n →
    chr '#' ∉ junk → ∃ s' : Recv, s'.Fits ∧ s'.reply = [] ∧ s'.sum = 0 ∧ s'.escape = false ∧
      recvLoop s (junk ++ chr '$' :: rest) = recvLoop s' rest := by
  have hstart : ∀ s : Recv, s.Fits → ∃ s' : Recv, s'.Fits ∧ s'.reply = [] ∧ s'.sum = 0 ∧ s'.escape = false ∧
      recvLoop s (chr '$' :: rest) = recvLoop s' rest := fun s h =>
    ⟨{ s with reply := [], sum := 0, escape := false }, ⟨Nat.zero_le _, h.size⟩, rfl, rfl, rfl, recvLoop_start s rest⟩
  induction n with
  | zero =>
    intro s junk h hlen _
    rw [List.length_eq_zero_iff.mp (Nat.le_zero.mp hlen)]
    exact hstart s h
  | succ n ih =>
    intro s junk h hlen hjunk
    cases junk with
    | nil => exact hstart s h
    | cons c junk =>
      have hlen' : junk.length ≤ n := Nat.le_of_succ_le_succ hlen
      obtain ⟨hc, hjunk'⟩ := not_or.mp (mt List.mem_cons.mpr hjunk)
      obtain ⟨s1, rest1, h1, heq, hrest⟩ := recvLoop_turn h (Ne.symm hc) (junk ++ chr '$' :: rest)
      rw [List.cons_append, heq]
      rcases hrest with rfl | ⟨c2, hc2, hcons⟩
      · exact ih h1 hlen' hjunk'
      · -- the count of a run is part of the prefix
        cases junk with
        | nil =>
          cases hcons
          exact absurd rfl hc2
        | cons c' junk =>
          cases hcons
          exact ih h1 ((Nat.le_succ _).trans hlen') fun hmem => hjunk' (List.mem_cons_of_mem _ hmem)

/-! ## Packets -/

/-- A packet as a stub sends it, with two characters for its checksum. -/
def frame (items : List Item) (msb lsb : Byte) : List Byte := chr '$' :: wireOf items ++ [chr '#', msb, lsb]

theorem skipTo_append (junk rest : List Byte) : skipTo (junk ++ chr '$' :: rest) = rest ∨
    ∃ junk', (∀ c ∈ junk', c ∈ junk) ∧ skipTo (junk ++ chr '$' :: rest) = junk' ++ chr '$' :: rest := by
  induction junk with
  | nil => exact .inl (if_pos rfl)
  | cons c junk ih =>
    by_cases hc : c = chr '$'
    · exact .inr ⟨junk, fun c hmem => List.mem_cons_of_mem _ hmem, if_pos hc⟩
    · have hskip : skipTo (c :: junk ++ chr '$' :: rest) = skipTo (junk ++ chr '$' :: rest) := if_neg hc
      rw [hskip]
      exact ih.imp_right fun ⟨junk', hsub, heq⟩ => ⟨junk', fun c hmem => List.mem_cons_of_mem _ (hsub c hmem), heq⟩

/-- **A packet is read as what its items stand for**, and its checksum against its two digits, whatever follows it and
whatever comes before it in which no packet ends. -/
theorem recvPacket_items {junk : List Byte} {items : List Item} (hjunk : chr '#' ∉ junk) (hvalid : ValidFrom [] items)
    (msb lsb : Byte) (rest : List Byte) : recvPacket (junk ++ frame items msb lsb ++ rest) =
      .ok (⟨expandFrom [] items, (sumOf (wireOf items)).setWidth 16 = gdbDecodeHex msb lsb⟩, rest) := by
  let body := wireOf items ++ chr '#' :: msb :: lsb :: rest
  have hinput : junk ++ frame items msb lsb ++ rest = junk ++ chr '$' :: body := by
    simp [frame, body]
  obtain ⟨s, hfits, hreply, hsum, hescape, hstart⟩ : ∃ s : Recv, s.Fits ∧ s.reply = [] ∧ s.sum = 0 ∧ s.escape = false ∧
      recvPacket (junk ++ chr '$' :: body) = recvLoop s body := by
    unfold recvPacket
    rcases skipTo_append junk body with heq | ⟨junk', hsub, heq⟩
    · exact ⟨_, ⟨Nat.zero_le _, le_rfl⟩, rfl, rfl, rfl, by rw [heq]⟩
    · rw [heq]
      exact recvLoop_prefix body _ ⟨Nat.zero_le _, le_rfl⟩ le_rfl fun hmem => hjunk (hsub _ hmem)
  obtain ⟨s', hs'⟩ := recvLoop_items items hfits hescape (by rw [hreply]; exact hvalid)
  rw [hinput, hstart, hs'.reads, recvLoop_end, hs'.fits.finish, hs'.reply_eq, hs'.sum, hreply, hsum, zero_add]
  rfl

/-- The checksum is compared with the byte that the two digits are. -/
theorem sumOk_iff {items : List Item} {msb lsb d : Byte} (hdigits : Digits msb lsb d) :
    (sumOf (wireOf items)).setWidth 16 = gdbDecodeHex msb lsb ↔ sumOf (wireOf items) = d := by
  rw [show gdbDecodeHex msb lsb = d.setWidth 16 from hdigits]
  constructor
  · intro h
    have hnat := congrArg BitVec.toNat h
    rw [BitVec.toNat_setWidth_of_le (by omega), BitVec.toNat_setWidth_of_le (by omega)] at hnat
    exact BitVec.eq_of_toNat_eq hnat
  · intro h
    rw [h]

/-- Every reply can be written. -/
def plainItems (reply : List Byte) : List Item := reply.map fun c => if c ∈ special then .escaped c else .plain c

theorem plainItems_valid (reply : List Byte) : ∀ before : List Byte,
    ValidFrom before (plainItems reply) ∧ expandFrom before (plainItems reply) = before ++ reply := by
  have hescaped : ∀ c ∈ special, c ^^^ 0x20 ∉ special := by decide
  induction reply with
  | nil => exact fun before => ⟨trivial, (List.append_nil before).symm⟩
  | cons c reply ih =>
    intro before
    have hitem : (if c ∈ special then Item.escaped c else .plain c).Valid before ∧
        (if c ∈ special then Item.escaped c else .plain c).expand before = before ++ [c] := by
      by_cases hc : c ∈ special
      · rw [if_pos hc]
        exact ⟨hescaped c hc, rfl⟩
      · rw [if_neg hc]
        exact ⟨hc, rfl⟩
    obtain ⟨hvalid, hexpand⟩ := ih (before ++ [c])
    refine ⟨⟨hitem.1, ?_⟩, ?_⟩
    · rw [hitem.2]
      exact hvalid
    · show expandFrom (Item.expand before _) (plainItems reply) = _
      rw [hitem.2, hexpand, List.append_assoc]
      rfl

/-- **What the client sends is read back by the client**, if nothing in it is special. -/
theorem recvPacket_sendPacket {command : List Byte} (h : ∀ c ∈ command, c ∉ special) (rest : List Byte) :
    recvPacket (sendPacket command ++ rest) = .ok (⟨command, true⟩, rest) := by
  have hplain : plainItems command = command.map Item.plain :=
    List.map_congr_left fun c hc => if_neg (h c hc)
  have hwire : wireOf (plainItems command) = command := by
    rw [hplain, wireOf, List.flatMap_map]
    exact List.flatMap_singleton' command
  obtain ⟨hvalid, hexpand⟩ := plainItems_valid command []
  have hrecv := @recvPacket_items [] _ List.not_mem_nil hvalid (hexUpper (sumOf command >>> 4))
    (hexUpper (sumOf command &&& 0xf)) rest
  have hframe : frame (plainItems command) (hexUpper (sumOf command >>> 4)) (hexUpper (sumOf command &&& 0xf)) =
      sendPacket command := by
    unfold frame sendPacket
    rw [hwire]
  rw [List.nil_append, hframe, hexpand] at hrecv
  rw [hrecv, decide_eq_true ((sumOk_iff (digits_hexUpper _)).mpr (congrArg sumOf hwire))]
  rfl

/-! ## Damage -/

end QemuDiff
