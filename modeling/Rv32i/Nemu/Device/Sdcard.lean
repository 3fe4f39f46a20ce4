import Rv32i.Lib.Region
import Rv32i.Nemu.Overlap

/-!
# NEMU: the SD card

`src/device/sdcard.c` on its registers and on the image, a file of bytes with a position.

* `Streaming`, `Pending` — the card between two reads of its data register, in a transfer of the image and in one of
  the EXT_CSD register;
* `run_of_closed`, `run_of_open` — what the reads behind a command for blocks return.
-/

namespace Nemu.Sdcard

open Rv32 Bytes

/-! ## The image -/

/-- A file that is open for reading and writing. -/
structure File where
  bytes : List Byte
  pos : ℕ

/-- `fseek(fp, offset, SEEK_SET)` -/
def File.seek (f : File) (offset : ℕ) : File := { f with pos := offset }

/-- `fread(buf, 4, 1, fp)`: the file may end before the fourth byte. -/
def File.read (f : File) (mem : Pmem) (buf : Word) : Pmem × File :=
  let got := (f.bytes.drop f.pos).take 4
  (fun q => (got[(q - buf).toNat]?).getD (mem q), { f with pos := f.pos + got.length })

/-- `fwrite(buf, 4, 1, fp)`: a gap before the position is filled with zeros. -/
def File.write (f : File) (mem : Pmem) (buf : Word) : File where
  bytes := (f.bytes ++ List.replicate (f.pos - f.bytes.length) 0).take f.pos ++
    [mem buf, mem (buf + 1), mem (buf + 2), mem (buf + 3)] ++ f.bytes.drop (f.pos + 4)
  pos := f.pos + 4

/-! ## The card -/

/-- `MEMORY_SIZE / 512` -/
def nrSector : Word := 0x2000000

def readBlLen : Word := 15

/-- `NR_BLOCK / MULT - 1` -/
def cSize : Word := 1023

/-- The registers that the card has, and where they are. -/
def sdcmd : Word := 0
def sdarg : Word := 4
def sdrsp0 : Word := 16
def sdrsp1 : Word := 20
def sdrsp2 : Word := 24
def sdrsp3 : Word := 28
def sddata : Word := 64

structure State where
  base : Pmem
  /-- `fp`; `none` is `NULL`. -/
  fp : Option File
  blkcnt : Word
  blkAddr : ℕ
  addr : Word
  writeCmd : Bool
  readExtCsd : Bool

/-- After `init_sdcard`, with an image; the registers hold what is in the space that they get. -/
def State.init (base : Pmem) (image : List Byte) : State where
  base := base
  fp := some ⟨image, 0⟩
  blkcnt := 0
  blkAddr := 0
  addr := 0
  writeCmd := false
  readExtCsd := false

def State.reg (s : State) (r : Word) : Word := loadBytes s.base r .word

def State.setReg (s : State) (r v : Word) : State := { s with base := storeBytes s.base r .word v }

def prepareRw (isWrite : Bool) (s : State) : State :=
  { s with
    blkAddr := (s.reg sdarg).toNat
    addr := 0
    fp := s.fp.map (·.seek ((s.reg sdarg).toNat <<< 9))
    writeCmd := isWrite }

def sdcardHandleCmd (cmd : ℕ) (s : State) : Exec State :=
  match cmd with
  | 0 => .ok s  -- MMC_GO_IDLE_STATE
  | 1 => .ok (s.setReg sdrsp0 0x80ff8000)  -- MMC_SEND_OP_COND
  | 2 =>  -- MMC_ALL_SEND_CID
    .ok ((((s.setReg sdrsp0 0x00000001).setReg sdrsp1 0x00000000).setReg sdrsp2 0x00000000).setReg sdrsp3 0x15000000)
  | 52 => .ok s
  | 9 =>  -- MMC_SEND_CSD
    .ok ((((s.setReg sdrsp0 0x92404001).setReg sdrsp1 (0x124b97e3 ||| (cSize &&& 3) <<< 30)).setReg
      sdrsp2 (0x0f508000 ||| cSize >>> 2 ||| readBlLen <<< 16)).setReg sdrsp3 0x9026012a)
  | 8 => .ok { s with readExtCsd := true, addr := 0 }  -- MMC_SEND_EXT_CSD
  | 5 => .ok s  -- MMC_SLEEP_AWAKE
  | 55 => .ok s  -- MMC_APP_CMD
  | 3 => .ok s  -- MMC_SET_RELATIVE_ADDR
  | 7 => .ok s  -- MMC_SELECT_CARD
  | 23 => .ok { s with blkcnt := s.reg sdarg &&& 0xffff }  -- MMC_SET_BLOCK_COUNT
  | 18 => .ok (prepareRw false s)  -- MMC_READ_MULTIPLE_BLOCK
  | 25 => .ok (prepareRw true s)  -- MMC_WRITE_MULTIPLE_BLOCK
  | 13 => .ok ((((s.setReg sdrsp0 0x900).setReg sdrsp3 0).setReg sdrsp2 0).setReg sdrsp1 0)  -- MMC_SEND_STATUS
  | 12 => .ok s  -- MMC_STOP_TRANSMISSION
  | _ => .error .panic

/-- A word of the EXT_CSD register. -/
def extCsd (addr : Word) : Word :=
  match addr.toNat with
  | 192 => 2  -- EXT_CSD_REV
  | 212 => nrSector
  | _ => 0

/-- The data register, for a read and for a write. -/
def dataPhase (s : State) : State :=
  let s :=
    if s.readExtCsd then
      { s.setReg sddata (extCsd s.addr) with readExtCsd := if s.addr = 512 - 4 then false else s.readExtCsd }
    else
      match s.fp with
      | none => s
      | some f =>
        if ¬ s.writeCmd then { s with base := (f.read s.base sddata).1, fp := some (f.read s.base sddata).2 }
        else { s with fp := some (f.write s.base sddata) }
  { s with addr := s.addr + 4 }

def sdcardIoHandler (offset : Word) (_len : ℕ) (_isWrite : Bool) (s : State) : Exec State :=
  match offset.toNat / 4 with
  | 0 => sdcardHandleCmd (s.reg sdcmd &&& 0x3f).toNat s  -- SDCMD
  | 1 | 4 | 5 | 6 | 7 => .ok s  -- SDARG, SDRSP0, SDRSP1, SDRSP2, SDRSP3
  | 16 => .ok (dataPhase s)  -- SDDATA
  | _ => .error .panic

/-- An access of the guest to the registers. -/
inductive Access
  | read (offset : Word) (n : Width)
  | write (offset : Word) (n : Width) (data : Word)

/-- `map_read` and `map_write`, with what is read: the callback comes before a read and behind a write. -/
def access (s : State) : Access → Exec (List Word × State)
  | .read offset n => do
    let s ← sdcardIoHandler offset n.bytes false s
    return ([← hostRead s.base offset n.bytes], s)
  | .write offset n data => do
    let base ← hostWrite s.base offset n.bytes data
    return ([], ← sdcardIoHandler offset n.bytes true { s with base := base })

/-- The accesses of a run, with all that is read. -/
def run (s : State) : List Access → Exec (List Word × State)
  | [] => .ok ([], s)
  | a :: as => do
    let (r, s) ← access s a
    let (rs, s) ← run s as
    return (r ++ rs, s)

/-! ## Blocks -/

/-- The word of the image at `p`. -/
def word (image : List Byte) (p : ℕ) : Word := ofBytes fun j => image.getD (p + j) 0

/-- The image, as far as the accesses have changed it. -/
def State.image (s : State) : List Byte := (s.fp.map (·.bytes)).getD []

/-- Where the block of `SDARG` is. -/
def State.block (s : State) : ℕ := 512 * (s.reg sdarg).toNat

/-- Behind the command `data`, the reads of the data register return the words of the block and of those that
follow it. -/
def Served (s : State) (n : Width) (data : Word) : Prop := ∀ k, s.block + 4 * k + 4 ≤ s.image.length →
  ∃ rs s', run s (.write sdcmd n data :: List.replicate (k + 1) (.read sddata .word)) = .ok (rs, s') ∧
    rs[k]? = some (word s.image (s.block + 4 * k))

/-- In a transfer of the image, at `p`. -/
structure Streaming (image : List Byte) (p : ℕ) (s : State) : Prop where
  readExtCsd : s.readExtCsd = false
  writeCmd : s.writeCmd = false
  fp : s.fp = some ⟨image, p⟩

/-- In a transfer of the EXT_CSD register, before word `j`, with the image at `p`. -/
structure Pending (image : List Byte) (p j : ℕ) (s : State) : Prop where
  readExtCsd : s.readExtCsd = true
  writeCmd : s.writeCmd = false
  fp : s.fp = some ⟨image, p⟩
  addr : s.addr.toNat = 4 * j

theorem loadBytes_storeBytes (m : Pmem) (a v : Word) : loadBytes (storeBytes m a .word v) a .word = v := by
  apply eq_of_byte_eq
  intro j hj
  have hd : (place a j - a).toNat = j := Region.toNat_add_sub a (by omega)
  rw [byte_loadBytes _ _ _ hj, if_pos (show j < Width.word.bytes from hj), storeBytes_word]
  show (if (place a j - a).toNat < 4 then _ else _) = _
  rw [hd, if_pos hj]
  rfl

section Phases

variable {s : State} {image : List Byte} {p j : ℕ}

/-- The word that `fread` puts into a register. -/
theorem read_word {f : File} (h : f.pos + 4 ≤ f.bytes.length) (m : Pmem) (a : Word) :
    loadBytes (f.read m a).1 a .word = word f.bytes f.pos ∧ (f.read m a).2 = ⟨f.bytes, f.pos + 4⟩ := by
  have hlen : ((f.bytes.drop f.pos).take 4).length = 4 := by
    rw [List.length_take, List.length_drop]
    omega
  constructor
  · apply eq_of_byte_eq
    intro j hj
    have hd : (place a j - a).toNat = j := Region.toNat_add_sub a (by omega)
    rw [byte_loadBytes _ _ _ hj, if_pos (show j < Width.word.bytes from hj), word, byte_ofBytes _ hj]
    show (((f.bytes.drop f.pos).take 4)[(place a j - a).toNat]?).getD _ = _
    rw [hd, List.getElem?_take_of_lt hj, List.getElem?_drop, List.getElem?_eq_getElem (by omega), Option.getD_some,
      List.getD_eq_getElem _ _ (by omega)]
  · rw [File.read, hlen]

theorem access_read : access s (.read sddata .word) =
    .ok ([loadBytes (dataPhase s).base sddata .word], dataPhase s) := rfl

theorem Streaming.dataPhase_eq (h : Streaming image p s) : dataPhase s =
    { s with
      base := (File.read ⟨image, p⟩ s.base sddata).1
      fp := some (File.read ⟨image, p⟩ s.base sddata).2
      addr := s.addr + 4 } := by
  rw [dataPhase, h.readExtCsd, h.fp, h.writeCmd]
  rfl

/-- **A read of the image** returns the next word. -/
theorem Streaming.read (h : Streaming image p s) (hp : p + 4 ≤ image.length) :
    ∃ s', access s (.read sddata .word) = .ok ([word image p], s') ∧ Streaming image (p + 4) s' := by
  obtain ⟨hword, hfile⟩ := @read_word ⟨image, p⟩ hp s.base sddata
  refine ⟨dataPhase s, ?_, ?_⟩
  · rw [access_read, h.dataPhase_eq]
    exact congrArg (fun v => Except.ok ([v], _)) hword
  · rw [h.dataPhase_eq]
    exact ⟨h.readExtCsd, h.writeCmd, congrArg some hfile⟩

theorem Pending.dataPhase_eq (h : Pending image p j s) : dataPhase s =
    { s.setReg sddata (extCsd s.addr) with
      readExtCsd := if s.addr = 512 - 4 then false else true
      addr := s.addr + 4 } := by
  rw [dataPhase, h.readExtCsd]
  rfl

/-- **A read of the EXT_CSD register** returns the next word, until the last. -/
theorem Pending.read (h : Pending image p j s) (hj : j < 128) :
    ∃ s', access s (.read sddata .word) = .ok ([extCsd (BitVec.ofNat 32 (4 * j))], s') ∧
      if j = 127 then Streaming image p s' else Pending image p (j + 1) s' := by
  have haddr : s.addr = BitVec.ofNat 32 (4 * j) := by
    apply BitVec.eq_of_toNat_eq
    rw [h.addr, BitVec.toNat_ofNat]
    omega
  have hlast : s.addr = 512 - 4 ↔ j = 127 := by
    rw [← BitVec.toNat_inj, h.addr, show (512 - 4 : Word).toNat = 508 from rfl]
    omega
  refine ⟨dataPhase s, ?_, ?_⟩
  · rw [access_read, h.dataPhase_eq, ← haddr]
    exact congrArg (fun v => Except.ok ([v], _)) (loadBytes_storeBytes _ _ _)
  · rw [h.dataPhase_eq]
    by_cases h127 : j = 127
    · rw [if_pos h127]
      refine ⟨?_, h.writeCmd, h.fp⟩
      exact if_pos (hlast.mpr h127)
    · rw [if_neg h127]
      refine ⟨?_, h.writeCmd, h.fp, ?_⟩
      · exact if_neg fun he => h127 (hlast.mp he)
      · show (s.addr + 4).toNat = _
        rw [BitVec.toNat_add, h.addr, show (4 : Word).toNat = 4 from rfl]
        omega

/-- **What one read preserves, the reads preserve**: they return `out i`, `out (i + 1)`, … -/
theorem reads_run {I : ℕ → State → Prop} {out : ℕ → Word} {m : ℕ}
    (hstep : ∀ k < m, ∀ s, I k s → ∃ s', access s (.read sddata .word) = .ok ([out k], s') ∧ I (k + 1) s')
    (k i : ℕ) (hik : i + k ≤ m) {s : State} (hs : I i s) :
    ∃ s', run s (List.replicate k (.read sddata .word)) = .ok ((List.range' i k).map out, s') := by
  induction k generalizing i s with
  | zero => exact ⟨s, rfl⟩
  | succ k ih =>
    obtain ⟨t, haccess, ht⟩ := hstep i (by omega) s hs
    obtain ⟨s', hrun⟩ := ih (i + 1) (by omega) ht
    refine ⟨s', ?_⟩
    rw [List.replicate_succ, run, haccess]
    show (run t (List.replicate k (.read sddata .word))).bind _ = _
    rw [hrun, List.range'_succ]
    rfl

/-- The words that the card returns when a transfer of the EXT_CSD register is still open. -/
def delayed (image : List Byte) (p k : ℕ) : Word :=
  if k < 128 then extCsd (BitVec.ofNat 32 (4 * k)) else word image (p + 4 * (k - 128))

/-- The card before read `k`, in such a transfer. -/
def Delayed (image : List Byte) (p k : ℕ) (s : State) : Prop :=
  if k < 128 then Pending image p k s else Streaming image (p + 4 * (k - 128)) s

theorem Delayed.read {k : ℕ} (h : Delayed image p k s) (hk : p + 4 * k + 4 ≤ image.length) :
    ∃ s', access s (.read sddata .word) = .ok ([delayed image p k], s') ∧ Delayed image p (k + 1) s' := by
  unfold Delayed delayed at *
  by_cases hlt : k < 128
  · rw [if_pos hlt] at h ⊢
    obtain ⟨s', haccess, hs'⟩ := h.read hlt
    refine ⟨s', haccess, ?_⟩
    by_cases h127 : k = 127
    · rw [if_pos h127] at hs'
      rw [if_neg (by omega), show p + 4 * (k + 1 - 128) = p by omega]
      exact hs'
    · rw [if_neg h127] at hs'
      rw [if_pos (by omega)]
      exact hs'
  · rw [if_neg hlt] at h ⊢
    obtain ⟨s', haccess, hs'⟩ := h.read (by omega)
    refine ⟨s', haccess, ?_⟩
    rw [if_neg (by omega), show p + 4 * (k + 1 - 128) = p + 4 * (k - 128) + 4 by omega]
    exact hs'

end Phases

/-! ## The command -/

section Command

variable {s : State} {n : Width} {data : Word}

/-- The command is in the lowest byte. -/
theorem and_eq_of_byte_eq {v w : Word} (h : byte v 0 = byte w 0) : v &&& 0x3f = w &&& 0x3f := by
  apply BitVec.eq_of_getLsbD_eq
  intro i hi
  rw [BitVec.getLsbD_and, BitVec.getLsbD_and]
  by_cases h8 : i < 8
  · have hbit := congrArg (·.getLsbD i) h
    simp only [getLsbD_byte, h8, decide_true, Bool.true_and, Nat.mul_zero, Nat.zero_add] at hbit
    rw [hbit]
  · have hmask : (0x3f : Word).getLsbD i = false := by
      rw [← BitVec.testBit_toNat]
      exact Nat.testBit_lt_two_pow (lt_of_lt_of_le (by decide : (0x3f : Word).toNat < 2 ^ 8)
        (Nat.pow_le_pow_right (by decide) (by omega)))
    rw [hmask, Bool.and_false, Bool.and_false]

/-- Every write to `SDCMD` reaches it. -/
theorem reg_sdcmd (m : Pmem) (n : Width) (data : Word) :
    loadBytes (storeBytes m sdcmd n data) sdcmd .word &&& 0x3f = data &&& 0x3f := by
  apply and_eq_of_byte_eq
  have hpos : 0 < n.bytes := by
    cases n <;> decide
  rw [byte_loadBytes _ _ _ (by decide), if_pos (by decide)]
  show (if (0 : ℕ) < n.bytes then _ else _) = _
  rw [if_pos hpos]
  rfl

theorem reg_sdarg (m : Pmem) (n : Width) (data : Word) :
    loadBytes (storeBytes m sdcmd n data) sdarg .word = loadBytes m sdarg .word := by
  have hn : n.bytes ≤ 4 := by
    cases n <;> decide
  apply eq_of_byte_eq
  intro j hj
  have hd : (place sdarg j - sdcmd).toNat = 4 + j := by
    rw [show place sdarg j - sdcmd = place sdarg j from BitVec.sub_zero _, place, BitVec.toNat_add, BitVec.toNat_ofNat,
      show sdarg.toNat = 4 from rfl]
    omega
  rw [byte_loadBytes _ _ _ hj, byte_loadBytes _ _ _ hj]
  congr 1
  show (if _ < n.bytes then _ else _) = _
  rw [hd, if_neg (by omega)]

/-- **`MMC_READ_MULTIPLE_BLOCK`** moves the image to the block; an open transfer of the EXT_CSD register stays open, at
its start. -/
theorem access_command {f : File} (hf : s.fp = some f) (hd : data &&& 0x3f = 18) :
    ∃ s', access s (.write sdcmd n data) = .ok ([], s') ∧ s'.readExtCsd = s.readExtCsd ∧ s'.writeCmd = false ∧
      s'.fp = some ⟨f.bytes, s.block⟩ ∧ s'.addr.toNat = 4 * 0 := by
  obtain ⟨t, ht⟩ : ∃ t : State, t = { s with base := storeBytes s.base sdcmd n data } := ⟨_, rfl⟩
  have hcmd : t.reg sdcmd &&& 0x3f = 18 := by
    rw [ht, ← hd]
    exact reg_sdcmd _ _ _
  have harg : t.reg sdarg = s.reg sdarg := by
    rw [ht]
    exact reg_sdarg _ _ _
  have hhandle : sdcardIoHandler sdcmd n.bytes true t = .ok (prepareRw false t) := by
    show sdcardHandleCmd (t.reg sdcmd &&& 0x3f).toNat t = _
    rw [hcmd]
    rfl
  have hfp : t.fp = some f := by
    rw [ht]
    exact hf
  refine ⟨prepareRw false t, ?_, ?_, rfl, ?_, rfl⟩
  · have haccess : access s (.write sdcmd n data) = (sdcardIoHandler sdcmd n.bytes true t).bind fun s => .ok ([], s) := by
      rw [access, hostWrite_eq, ht]
      rfl
    rw [haccess, hhandle]
    rfl
  · rw [prepareRw, ht]
  · rw [prepareRw, harg, hfp, State.block, Nat.shiftLeft_eq]
    show some (f.seek _) = _
    rw [Nat.mul_comm]
    rfl

/-- What the reads behind the command return, when one read takes the card from each of its states to the next. -/
theorem run_command {f : File} (hf : s.fp = some f) (hd : data &&& 0x3f = 18) {I : ℕ → State → Prop} {out : ℕ → Word}
    {m : ℕ} (hstep : ∀ k < m, ∀ s, I k s → ∃ s', access s (.read sddata .word) = .ok ([out k], s') ∧ I (k + 1) s')
    (hstart : ∀ s' : State, s'.readExtCsd = s.readExtCsd → s'.writeCmd = false → s'.fp = some ⟨f.bytes, s.block⟩ →
      s'.addr.toNat = 4 * 0 → I 0 s') :
    ∃ s', run s (.write sdcmd n data :: List.replicate m (.read sddata .word)) = .ok ((List.range m).map out, s') := by
  obtain ⟨t, hcommand, hread, hwrite, hfp, haddr⟩ := @access_command s n data f hf hd
  obtain ⟨s', hrun⟩ := reads_run hstep m 0 (by omega) (hstart t hread hwrite hfp haddr)
  refine ⟨s', ?_⟩
  rw [run, hcommand]
  show (run t _).bind _ = _
  rw [hrun, List.range_eq_range']
  rfl

theorem getElem?_range_map (out : ℕ → Word) (k : ℕ) : ((List.range (k + 1)).map out)[k]? = some (out k) := by
  rw [List.getElem?_map, List.getElem?_range (Nat.lt_succ_self k)]
  rfl

/-- **Without an open transfer of the EXT_CSD register**, the card returns the blocks. -/
theorem run_of_closed {f : File} (hf : s.fp = some f) (hd : data &&& 0x3f = 18) (hs : s.readExtCsd = false) {k : ℕ}
    (hk : s.block + 4 * k + 4 ≤ f.bytes.length) :
    ∃ s', run s (.write sdcmd n data :: List.replicate (k + 1) (.read sddata .word)) =
      .ok ((List.range (k + 1)).map fun i => word f.bytes (s.block + 4 * i), s') := by
  refine run_command (I := fun i => Streaming f.bytes (s.block + 4 * i)) hf hd (fun i hi s' hs' => ?_)
    fun s' hread hwrite hfp _ => ⟨hread.trans hs, hwrite, hfp⟩
  exact hs'.read (by omega)

/-- **With an open one**, it returns that register first. -/
theorem run_of_open {f : File} (hf : s.fp = some f) (hd : data &&& 0x3f = 18) (hs : s.readExtCsd = true) {k : ℕ}
    (hk : s.block + 4 * k + 4 ≤ f.bytes.length) :
    ∃ s', run s (.write sdcmd n data :: List.replicate (k + 1) (.read sddata .word)) =
      .ok ((List.range (k + 1)).map fun i => delayed f.bytes s.block i, s') := by
  refine run_command (I := Delayed f.bytes s.block) hf hd (fun i hi s' hs' => ?_) fun s' hread hwrite hfp haddr => ?_
  · exact hs'.read (by omega)
  · rw [Delayed, if_pos (by decide)]
    exact ⟨hread.trans hs, hwrite, hfp, haddr⟩

end Command

/-! ## Runs -/

section Runs

variable {s s' : State}

/-- The image stays attached. -/
theorem handleCmd_fp {cmd : ℕ} (h : sdcardHandleCmd cmd s = .ok s') : s'.fp.isSome = s.fp.isSome := by
  unfold sdcardHandleCmd at h
  split at h <;> cases h <;> first | rfl | exact Option.isSome_map

theorem dataPhase_fp (s : State) : (dataPhase s).fp.isSome = s.fp.isSome := by
  unfold dataPhase
  cases s.readExtCsd with
  | true => rfl
  | false =>
    cases hfp : s.fp with
    | none => exact congrArg Option.isSome hfp
    | some f => cases s.writeCmd <;> rfl

theorem ioHandler_fp {offset : Word} {len : ℕ} {isWrite : Bool} (h : sdcardIoHandler offset len isWrite s = .ok s') :
    s'.fp.isSome = s.fp.isSome := by
  unfold sdcardIoHandler at h
  split at h
  · exact handleCmd_fp h
  all_goals cases h
  all_goals first | rfl | exact dataPhase_fp s

theorem access_fp {a : Access} {r : List Word} (h : access s a = .ok (r, s')) : s'.fp.isSome = s.fp.isSome := by
  cases a with
  | read offset n =>
    obtain ⟨t, hhandle, hret⟩ := bind_ok h
    obtain ⟨v, -, hret⟩ := bind_ok hret
    cases hret
    exact ioHandler_fp hhandle
  | write offset n data =>
    obtain ⟨base, -, hrest⟩ := bind_ok h
    obtain ⟨t, hhandle, hret⟩ := bind_ok hrest
    cases hret
    have := ioHandler_fp hhandle
    exact this

theorem run_fp {as : List Access} {rs : List Word} (h : run s as = .ok (rs, s')) : s'.fp.isSome = s.fp.isSome := by
  induction as generalizing s rs with
  | nil =>
    cases h
    rfl
  | cons a as ih =>
    obtain ⟨⟨r, t⟩, haccess, hrest⟩ := bind_ok h
    obtain ⟨⟨rs', t'⟩, hrun, hret⟩ := bind_ok hrest
    cases hret
    exact (ih hrun).trans (access_fp haccess)

end Runs

/-- What the image has to hold for the card to return its blocks although a transfer of the EXT_CSD register is open. -/
def LooksLikeExtCsd (s : State) : Prop :=
  ∀ k, s.block + 4 * k + 4 ≤ s.image.length → word s.image (s.block + 4 * k) = delayed s.image s.block k

/-- **Behind any run of accesses, a command for blocks is served exactly when** no transfer of the EXT_CSD register is
open, or the image happens to hold what the card returns then. -/
theorem served_iff {base : Pmem} {image : List Byte} {as : List Access} {rs : List Word} {s : State}
    (h : run (.init base image) as = .ok (rs, s)) (n : Width) {data : Word} (hd : data &&& 0x3f = 18) :
    Served s n data ↔ s.readExtCsd = false ∨ LooksLikeExtCsd s := by
  obtain ⟨f, hf⟩ := Option.isSome_iff_exists.mp (run_fp h)
  have himage : s.image = f.bytes := by rw [State.image, hf]; rfl
  unfold Served LooksLikeExtCsd
  rw [himage]
  cases hopen : s.readExtCsd with
  | false =>
    refine iff_of_true (fun k hk => ?_) (.inl rfl)
    obtain ⟨s', hrun⟩ := @run_of_closed s n data f hf hd hopen k hk
    exact ⟨_, s', hrun, getElem?_range_map _ k⟩
  | true =>
    rw [or_iff_right (by decide)]
    refine forall_congr' fun k => forall_congr' fun hk => ?_
    obtain ⟨s', hrun⟩ := @run_of_open s n data f hf hd hopen k hk
    rw [hrun]
    constructor
    · rintro ⟨rs, t, heq, hget⟩
      cases heq
      rw [getElem?_range_map] at hget
      exact (Option.some.inj hget).symm
    · intro hword
      rw [hword]
      exact ⟨_, _, rfl, getElem?_range_map _ k⟩

/-- Behind the read of a word of a block. -/
theorem served_iff_again : ∃ rs s, run (.init (fun _ => 0) [1, 2, 3, 4, 5, 6, 7, 8])
    [.write sdarg .word 0, .write sdcmd .word 18, .read sddata .word] = .ok (rs, s) ∧ rs = [0x04030201] ∧
      Served s .word 18 := by
  obtain ⟨s, hrun, hclosed⟩ : ∃ s, run (.init (fun _ => 0) [1, 2, 3, 4, 5, 6, 7, 8])
      [.write sdarg .word 0, .write sdcmd .word 18, .read sddata .word] = .ok ([0x04030201], s) ∧
        s.readExtCsd = false := ⟨_, rfl, rfl⟩
  exact ⟨_, s, hrun, rfl, (served_iff hrun .word (by decide)).mpr (.inl hclosed)⟩

/-- The first word of the image behind `MMC_SEND_EXT_CSD`. -/
theorem ext_csd_not_served : ∃ rs s, run (.init (fun _ => 0) [1, 1, 1, 1]) [.write sdcmd .word 8] = .ok (rs, s) ∧
    ¬ Served s .word 18 := by
  obtain ⟨s, hrun, hf, hopen, hblock⟩ : ∃ s, run (.init (fun _ => 0) [1, 1, 1, 1]) [.write sdcmd .word 8] = .ok ([], s) ∧
      s.fp = some ⟨[1, 1, 1, 1], 0⟩ ∧ s.readExtCsd = true ∧ s.block = 0 := ⟨_, rfl, rfl, rfl, rfl⟩
  have himage : s.image = [1, 1, 1, 1] := by
    rw [State.image, hf]
    rfl
  refine ⟨_, s, hrun, fun h => ?_⟩
  obtain ⟨rs, s', hread, hget⟩ := h 0 (by rw [hblock, himage]; decide)
  obtain ⟨t, hreads⟩ := @run_of_open s .word 18 _ hf (by decide) hopen 0 (by rw [hblock]; decide)
  rw [hreads] at hread
  cases hread
  rw [getElem?_range_map, hblock, himage] at hget
  exact absurd (Option.some.inj hget) (by decide)

end Nemu.Sdcard
