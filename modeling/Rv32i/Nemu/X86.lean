import Rv32i.Lib.Bytes
import Rv32i.Nemu.Memory

/-!
# NEMU: the operands of x86

`src/isa/x86/inst.c`: `decode_rm` and `load_addr` on the bytes behind an opcode.

* `Form` — the operands of the i386 with 32-bit addresses, and the bytes that encode them;
* `exists_form` — every byte stream starts with an operand;
* `decodeRm_form` — `decode_rm` takes its bytes, and finds it.
-/

namespace Nemu.X86

open Rv32

/-! ## The decoder -/

def resp : ℤ := 4
def rebp : ℤ := 5

/-- `CONFIG_MBASE`, `CONFIG_MSIZE` and the memory. -/
structure Memory where
  mbase : Word
  msize : Word
  pmem : Pmem

def Memory.inPmem (m : Memory) (addr : Word) : Bool := addr - m.mbase < m.msize

/-- The byte at an address of the guest. -/
def Memory.byte (m : Memory) (addr : Word) : Byte := m.pmem (addr - m.mbase)

def Memory.ifetch (m : Memory) (addr : Word) (len : ℕ) : Exec Word :=
  if m.inPmem addr then hostRead m.pmem (addr - m.mbase) len else .error .panic

structure Decode where
  pc : Word
  /-- The static next pc. -/
  snpc : Word

/-- `itrace` tells whether the bytes are recorded, in an array of 16. -/
def x86InstFetch (itrace : Bool) (m : Memory) (len : ℕ) (s : Decode) : Exec (Word × Decode) := do
  let ret ← m.ifetch s.snpc len
  let s := { s with snpc := s.snpc + BitVec.ofNat 32 len }
  if itrace ∧ ¬ s.snpc - s.pc < 16 then throw .assert
  return (ret, s)

/-- `cpu.gpr[index]._32` of the eight registers. -/
abbrev Gpr := BitVec 3 → Word

/-- `reg_l(index)` -/
def regL (gpr : Gpr) (index : ℤ) : Exec Word :=
  if index ≥ 0 ∧ index < 8 then .ok (gpr (BitVec.ofInt 3 index)) else .error .assert

/-- The fields of a byte `ModR_M`. -/
def rm (val : Byte) : BitVec 3 := val.extractLsb' 0 3
def reg (val : Byte) : BitVec 3 := val.extractLsb' 3 3
def mod (val : Byte) : BitVec 2 := val.extractLsb' 6 2

/-- The fields of a byte `SIB`. -/
def sibBase (val : Byte) : BitVec 3 := val.extractLsb' 0 3
def sibIndex (val : Byte) : BitVec 3 := val.extractLsb' 3 3
def sibSs (val : Byte) : BitVec 2 := val.extractLsb' 6 2

/-- The registers that an address is built from; `-1` is none. -/
structure Parts where
  baseReg : ℤ
  indexReg : ℤ
  scale : ℕ

/-- The part of `load_addr` that reads the byte `SIB`. -/
def loadSib (itrace : Bool) (mem : Memory) (m : Byte) (s : Decode) : Exec (Parts × Decode) :=
  if (rm m).toNat = resp then do
    let (b, s) ← x86InstFetch itrace mem 1 s
    let sib := b.setWidth 8
    let indexReg : ℤ := if (sibIndex sib).toNat ≠ resp then (sibIndex sib).toNat else -1
    return (⟨(sibBase sib).toNat, indexReg, (sibSs sib).toNat⟩, s)
  else return (⟨(rm m).toNat, -1, 0⟩, s)

/-- The base register and the size of the displacement, for the field `mod`. -/
def dispSize (m : Byte) (baseReg : ℤ) : ℤ × ℕ :=
  if mod m = 0 then if baseReg = rebp then (-1, 4) else (baseReg, 0)
  else if mod m = 1 then (baseReg, 1)
  else (baseReg, 4)

/-- The part of `load_addr` that reads the displacement. -/
def loadDisp (itrace : Bool) (mem : Memory) (size : ℕ) (s : Decode) : Exec (Word × Decode) :=
  if size ≠ 0 then do
    let (disp, s) ← x86InstFetch itrace mem size s
    return (if size = 1 then (disp.setWidth 8).signExtend 32 else disp, s)
  else return (0, s)

/-- `if (base_reg != -1) addr += reg_l(base_reg);` -/
def addBase (gpr : Gpr) (baseReg : ℤ) (addr : Word) : Exec Word :=
  if baseReg ≠ -1 then (regL gpr baseReg).map (addr + ·) else .ok addr

/-- `if (index_reg != -1) addr += reg_l(index_reg) << scale;` -/
def addIndex (gpr : Gpr) (indexReg : ℤ) (scale : ℕ) (addr : Word) : Exec Word :=
  if indexReg ≠ -1 then (regL gpr indexReg).map fun x : Word => addr + x <<< scale else .ok addr

def loadAddr (itrace : Bool) (mem : Memory) (gpr : Gpr) (m : Byte) (s : Decode) : Exec (Word × Decode) := do
  if mod m = 3 then throw .assert
  let (parts, s) ← loadSib itrace mem m s
  let (baseReg, size) := dispSize m parts.baseReg
  let (disp, s) ← loadDisp itrace mem size s
  let addr ← addBase gpr baseReg disp
  let addr ← addIndex gpr parts.indexReg parts.scale addr
  return (addr, s)

/-- What `decode_rm` stores: `*rm_reg`, `*rm_addr` and `*reg`. -/
structure Rm where
  rmReg : ℤ
  rmAddr : Word
  reg : BitVec 3

/-- `rmAddr` is what `*rm_addr` holds before; an operand in a register leaves it. -/
def decodeRm (itrace : Bool) (mem : Memory) (gpr : Gpr) (rmAddr : Word) (s : Decode) : Exec (Rm × Decode) := do
  let (b, s) ← x86InstFetch itrace mem 1 s
  let m := b.setWidth 8
  if mod m = 3 then return (⟨(rm m).toNat, rmAddr, reg m⟩, s)
  let (addr, s) ← loadAddr itrace mem gpr m s
  return (⟨-1, addr, reg m⟩, s)

/-! ## The operands of the i386 -/

inductive Operand
  | register (r : BitVec 3)
  /-- A base register, an index register with its scale, and a displacement. -/
  | memory (base : Option (BitVec 3)) (index : Option (BitVec 3 × BitVec 2)) (disp : Word)

/-- The effective address. -/
def effectiveAddress (gpr : Gpr) (base : Option (BitVec 3)) (index : Option (BitVec 3 × BitVec 2)) (disp : Word) : Word :=
  base.elim 0 gpr + index.elim 0 (fun i => gpr i.1 <<< i.2.toNat) + disp

def modRM (mod : BitVec 2) (reg rm : BitVec 3) : Byte := mod ++ reg ++ rm

def sib (ss : BitVec 2) (index base : BitVec 3) : Byte := ss ++ index ++ base

/-- The bytes of a displacement. -/
def disp32 (d : Word) : List Byte := (List.range 4).map fun i => d.extractLsb' (8 * i) 8

/-- Index 4 is no index. -/
def scaled (ss : BitVec 2) (index : BitVec 3) : Option (BitVec 3 × BitVec 2) := if index = 4 then none else some (index, ss)

/-- **The operands with 32-bit addresses**, with their bytes and the field `reg`: the rows of the tables of the byte
ModR/M and of the byte SIB. -/
inductive Form : List Byte → BitVec 3 → Operand → Prop
  | register (reg r : BitVec 3) : Form [modRM 3 reg r] reg (.register r)
  | base (reg b : BitVec 3) (hsib : b ≠ 4) (hdisp : b ≠ 5) : Form [modRM 0 reg b] reg (.memory (some b) none 0)
  | disp (reg : BitVec 3) (d : Word) : Form (modRM 0 reg 5 :: disp32 d) reg (.memory none none d)
  | baseDisp8 (reg b : BitVec 3) (hsib : b ≠ 4) (d : Byte) :
    Form [modRM 1 reg b, d] reg (.memory (some b) none (d.signExtend 32))
  | baseDisp32 (reg b : BitVec 3) (hsib : b ≠ 4) (d : Word) :
    Form (modRM 2 reg b :: disp32 d) reg (.memory (some b) none d)
  | sib (reg : BitVec 3) (ss : BitVec 2) (i b : BitVec 3) (hdisp : b ≠ 5) :
    Form [modRM 0 reg 4, sib ss i b] reg (.memory (some b) (scaled ss i) 0)
  | sibDisp (reg : BitVec 3) (ss : BitVec 2) (i : BitVec 3) (d : Word) :
    Form (modRM 0 reg 4 :: X86.sib ss i 5 :: disp32 d) reg (.memory none (scaled ss i) d)
  | sibDisp8 (reg : BitVec 3) (ss : BitVec 2) (i b : BitVec 3) (d : Byte) :
    Form [modRM 1 reg 4, X86.sib ss i b, d] reg (.memory (some b) (scaled ss i) (d.signExtend 32))
  | sibDisp32 (reg : BitVec 3) (ss : BitVec 2) (i b : BitVec 3) (d : Word) :
    Form (modRM 2 reg 4 :: X86.sib ss i b :: disp32 d) reg (.memory (some b) (scaled ss i) d)

/-- The bytes from an address on start with `bs`. -/
def Memory.StartsWith (m : Memory) (addr : Word) (bs : List Byte) : Prop :=
  ∀ i (hi : i < bs.length), m.byte (addr + BitVec.ofNat 32 i) = bs[i]

instance (m : Memory) (addr : Word) (bs : List Byte) : Decidable (m.StartsWith addr bs) := by
  unfold Memory.StartsWith
  infer_instance

/-! ## Fetches -/

def Decode.advance (s : Decode) (n : ℕ) : Decode := { s with snpc := s.snpc + BitVec.ofNat 32 n }

@[simp] theorem advance_advance (s : Decode) (n k : ℕ) : (s.advance n).advance k = s.advance (n + k) := by
  simp only [Decode.advance, BitVec.ofNat_add, BitVec.add_assoc]

/-- The next bytes are `bs`; they are in the memory, and the array of a recorded instruction has room for them. -/
structure Ahead (itrace : Bool) (m : Memory) (s : Decode) (bs : List Byte) : Prop where
  starts : m.StartsWith s.snpc bs
  inside : ∀ i < bs.length, m.inPmem (s.snpc + BitVec.ofNat 32 i) = true
  room : itrace = true → (s.snpc - s.pc).toNat + bs.length < 16

section Fetch

variable {itrace : Bool} {m : Memory} {s : Decode} {b : Byte} {bs : List Byte}

theorem Ahead.tail (h : Ahead itrace m s (b :: bs)) : Ahead itrace m (s.advance 1) bs := by
  have hplace : ∀ i, (s.advance 1).snpc + BitVec.ofNat 32 i = s.snpc + BitVec.ofNat 32 (i + 1) := by
    intro i
    rw [Nat.add_comm i 1, BitVec.ofNat_add, ← BitVec.add_assoc]
    rfl
  refine ⟨fun i hi => ?_, fun i hi => ?_, fun ht => ?_⟩
  · rw [hplace]
    exact h.starts (i + 1) (Nat.succ_lt_succ hi)
  · rw [hplace]
    exact h.inside (i + 1) (Nat.succ_lt_succ hi)
  · have hroom := h.room ht
    rw [List.length_cons] at hroom
    show (s.snpc + 1 - s.pc).toNat + bs.length < 16
    rw [← BitVec.sub_add_comm, BitVec.toNat_add, show (1 : Word).toNat = 1 from rfl]
    omega

/-- **A fetch takes the next bytes.** -/
theorem x86InstFetch_eq (n : Width) (hin : m.inPmem s.snpc = true)
    (hroom : itrace = true → (s.snpc - s.pc).toNat + n.bytes < 16) :
    x86InstFetch itrace m n.bytes s = .ok (loadBytes m.byte s.snpc n, s.advance n.bytes) := by
  have hload : m.ifetch s.snpc n.bytes = .ok (loadBytes m.byte s.snpc n) := by
    have hbyte : ∀ k : Word, m.pmem (s.snpc - m.mbase + k) = m.byte (s.snpc + k) := by
      intro k
      rw [Memory.byte, BitVec.sub_add_comm]
    rw [Memory.ifetch, if_pos hin]
    cases n <;> simp only [Width.bytes, hostRead, hbyte] <;> rfl
  have hassert : ¬ (itrace = true ∧ ¬ (s.advance n.bytes).snpc - s.pc < 16) := by
    rintro ⟨ht, hlt⟩
    have hr := hroom ht
    refine hlt (BitVec.lt_def.mpr ?_)
    show (s.snpc + BitVec.ofNat 32 n.bytes - s.pc).toNat < 16
    rw [← BitVec.sub_add_comm, BitVec.toNat_add, BitVec.toNat_ofNat]
    omega
  rw [x86InstFetch, hload]
  show (if itrace = true ∧ ¬ (s.advance n.bytes).snpc - s.pc < 16 then _ else _) = _
  rw [if_neg hassert]
  rfl

theorem fetch_byte (h : Ahead itrace m s (b :: bs)) :
    x86InstFetch itrace m 1 s = .ok (b.setWidth 32, s.advance 1) := by
  have hb := h.starts 0 (Nat.succ_pos _)
  have hin := h.inside 0 (Nat.succ_pos _)
  rw [show s.snpc + BitVec.ofNat 32 0 = s.snpc from BitVec.add_zero _] at hb hin
  have hfetch := @x86InstFetch_eq itrace m s .byte hin fun ht => by
    have := h.room ht
    rw [List.length_cons] at this
    show _ + 1 < 16
    omega
  have hload : loadBytes m.byte s.snpc .byte = b.setWidth 32 := congrArg (BitVec.setWidth 32) hb
  rwa [hload] at hfetch

theorem fetch_disp {d : Word} (h : Ahead itrace m s (disp32 d)) :
    x86InstFetch itrace m 4 s = .ok (d, s.advance 4) := by
  have hlen : (disp32 d).length = 4 := rfl
  have hbyte : ∀ i < 4, m.byte (s.snpc + BitVec.ofNat 32 i) = d.extractLsb' (8 * i) 8 := by
    intro i hi
    rw [h.starts i (hlen ▸ hi)]
    simp [disp32]
  have hload : loadBytes m.byte s.snpc .word = d := by
    rw [loadBytes_word, Bytes.ofBytes_congr hbyte]
    exact Bytes.ofBytes_byte d
  have hin := h.inside 0 (by rw [hlen]; decide)
  rw [show s.snpc + BitVec.ofNat 32 0 = s.snpc from BitVec.add_zero _] at hin
  have hfetch := @x86InstFetch_eq itrace m s .word hin h.room
  rwa [hload] at hfetch

end Fetch

/-! ## Fields -/

section Fields

variable (md ss : BitVec 2) (rg r i b : BitVec 3)

theorem modRM_fields : mod (modRM md rg r) = md ∧ reg (modRM md rg r) = rg ∧ rm (modRM md rg r) = r := by
  have h : ∀ k l, (modRM md rg r).extractLsb' k l = BitVec.extractLsb' (n := 2 + 3 + 3) k l (md ++ rg ++ r) :=
    fun _ _ => rfl
  unfold mod reg rm
  simp (disch := decide) only [h, BitVec.extractLsb'_append_eq_of_le, BitVec.extractLsb'_append_eq_of_add_le]
  simp

theorem sib_fields : sibSs (sib ss i b) = ss ∧ sibIndex (sib ss i b) = i ∧ sibBase (sib ss i b) = b := modRM_fields ss i b

theorem modRM_self (m : Byte) : modRM (mod m) (reg m) (rm m) = m := by
  unfold modRM mod reg rm
  simp (disch := decide) only [BitVec.extractLsb'_append_extractLsb'_eq_extractLsb']
  exact BitVec.extractLsb'_eq_self

theorem sib_self (m : Byte) : sib (sibSs m) (sibIndex m) (sibBase m) = m := modRM_self m

theorem byte_of_word (m : Byte) : (m.setWidth 32).setWidth 8 = m := by
  rw [BitVec.setWidth_setWidth_of_le _ (by decide), BitVec.setWidth_eq]

theorem regL_eq (gpr : Gpr) : regL gpr r.toNat = .ok (gpr r) := by
  have hlt := r.isLt
  rw [regL, if_pos (by omega)]
  congr 2
  apply BitVec.eq_of_toNat_eq
  rw [BitVec.ofInt_natCast, BitVec.toNat_ofNat, Nat.mod_eq_of_lt hlt]

/-- `-1` for none. -/
def num (r : Option (BitVec 3)) : ℤ := r.elim (-1) fun r => r.toNat

theorem num_ne (r : BitVec 3) : num (some r) ≠ -1 := by
  show (r.toNat : ℤ) ≠ -1
  omega

theorem addBase_eq (gpr : Gpr) (base : Option (BitVec 3)) (addr : Word) :
    addBase gpr (num base) addr = .ok (base.elim 0 gpr + addr) := by
  cases base with
  | none => exact congrArg Except.ok (BitVec.zero_add addr).symm
  | some b =>
    rw [addBase, if_pos (num_ne b)]
    show (regL gpr b.toNat).map _ = _
    rw [regL_eq]
    exact congrArg Except.ok (BitVec.add_comm _ _)

theorem addIndex_eq (gpr : Gpr) (index : Option (BitVec 3 × BitVec 2)) {scale : ℕ} (addr : Word)
    (hscale : ∀ x ∈ index, x.2.toNat = scale) : addIndex gpr (num (index.map (·.1))) scale addr =
      .ok (addr + index.elim 0 fun i => gpr i.1 <<< i.2.toNat) := by
  cases index with
  | none => exact congrArg Except.ok (BitVec.add_zero addr).symm
  | some x =>
    rw [Option.map_some, addIndex, if_pos (num_ne x.1), ← hscale x rfl]
    show (regL gpr x.1.toNat).map _ = _
    rw [regL_eq]
    rfl

end Fields

/-! ## Operands -/

section Operands

variable {itrace : Bool} {mem : Memory} {gpr : Gpr} {m : Byte} {s s' s'' : Decode}

/-- **`load_addr`, from its parts.** -/
theorem loadAddr_eq {b : BitVec 3} {base : Option (BitVec 3)} {index : Option (BitVec 3 × BitVec 2)} {scale size : ℕ}
    {disp : Word} (hmod : mod m ≠ 3)
    (hsib : loadSib itrace mem m s = .ok (⟨b.toNat, num (index.map (·.1)), scale⟩, s'))
    (hscale : ∀ x ∈ index, x.2.toNat = scale) (hsize : dispSize m b.toNat = (num base, size))
    (hdisp : loadDisp itrace mem size s' = .ok (disp, s'')) :
    loadAddr itrace mem gpr m s = .ok (effectiveAddress gpr base index disp, s'') := by
  rw [loadAddr, if_neg hmod, hsib]
  show (loadDisp itrace mem (dispSize m b.toNat).2 s').bind _ = _
  rw [hsize, hdisp]
  show (addBase gpr (dispSize m b.toNat).1 disp).bind _ = _
  rw [hsize, addBase_eq]
  show (addIndex gpr (num (index.map (·.1))) scale _).bind _ = _
  rw [addIndex_eq gpr index _ hscale]
  refine congrArg (fun a => Except.ok (a, s'')) ?_
  rw [effectiveAddress, BitVec.add_assoc, BitVec.add_assoc, BitVec.add_comm disp]

theorem toNat_eq_resp (r : BitVec 3) : ((r.toNat : ℤ) = resp) ↔ r = 4 := by
  rw [← BitVec.toNat_inj, show (4 : BitVec 3).toNat = 4 from rfl, resp]
  omega

theorem toNat_eq_rebp (r : BitVec 3) : ((r.toNat : ℤ) = rebp) ↔ r = 5 := by
  rw [← BitVec.toNat_inj, show (5 : BitVec 3).toNat = 5 from rfl, rebp]
  omega

theorem loadSib_none (h : rm m ≠ 4) : loadSib itrace mem m s = .ok (⟨(rm m).toNat, num none, 0⟩, s) := by
  rw [loadSib, if_neg fun hr => h ((toNat_eq_resp _).mp hr)]
  rfl

theorem loadSib_some {ss : BitVec 2} {i b : BitVec 3} {bs : List Byte} (h : rm m = 4)
    (ha : Ahead itrace mem s (sib ss i b :: bs)) :
    loadSib itrace mem m s = .ok (⟨b.toNat, num ((scaled ss i).map (·.1)), ss.toNat⟩, s.advance 1) := by
  obtain ⟨hss, hi, hb⟩ := sib_fields ss i b
  have hindex : (if (i.toNat : ℤ) ≠ resp then (i.toNat : ℤ) else -1) = num ((scaled ss i).map (·.1)) := by
    by_cases h4 : i = 4
    · rw [if_neg (not_not.mpr ((toNat_eq_resp i).mpr h4)), scaled, if_pos h4]
      rfl
    · rw [if_pos (mt (toNat_eq_resp i).mp h4), scaled, if_neg h4]
      rfl
  rw [loadSib, if_pos ((toNat_eq_resp _).mpr h), fetch_byte ha, ← hindex]
  show Except.ok (Parts.mk (sibBase _).toNat (if ((sibIndex _).toNat : ℤ) ≠ resp then _ else -1) (sibSs _).toNat, _) = _
  rw [byte_of_word, hss, hi, hb]

theorem scaled_scale {ss : BitVec 2} {i : BitVec 3} : ∀ x ∈ scaled ss i, x.2.toNat = ss.toNat := by
  intro x hx
  unfold scaled at hx
  by_cases h4 : i = 4
  · rw [if_pos h4] at hx
    cases hx
  · rw [if_neg h4] at hx
    cases hx
    rfl

/-- The base register and the size of the displacement, for each row of the table. -/
theorem dispSize_eq (rg r b : BitVec 3) : dispSize (modRM 0 rg r) (5 : BitVec 3).toNat = (num none, 4) ∧
    (b ≠ 5 → dispSize (modRM 0 rg r) b.toNat = (num (some b), 0)) ∧
    dispSize (modRM 1 rg r) b.toNat = (num (some b), 1) ∧ dispSize (modRM 2 rg r) b.toNat = (num (some b), 4) := by
  refine ⟨?_, fun hb => ?_, ?_, ?_⟩
  · rw [dispSize, (modRM_fields 0 rg r).1, if_pos rfl, if_pos ((toNat_eq_rebp 5).mpr rfl)]
    rfl
  · rw [dispSize, (modRM_fields 0 rg r).1, if_pos rfl, if_neg (mt (toNat_eq_rebp b).mp hb)]
    rfl
  · rw [dispSize, (modRM_fields 1 rg r).1, if_neg (by decide), if_pos rfl]
    rfl
  · rw [dispSize, (modRM_fields 2 rg r).1, if_neg (by decide), if_neg (by decide)]
    rfl

theorem loadDisp_none : loadDisp itrace mem 0 s = .ok (0, s) := rfl

theorem loadDisp_byte {d : Byte} (h : Ahead itrace mem s [d]) :
    loadDisp itrace mem 1 s = .ok (d.signExtend 32, s.advance 1) := by
  rw [loadDisp, if_pos (by decide), fetch_byte h]
  show Except.ok (((d.setWidth 32).setWidth 8).signExtend 32, _) = _
  rw [byte_of_word]

theorem loadDisp_word {d : Word} (h : Ahead itrace mem s (disp32 d)) :
    loadDisp itrace mem 4 s = .ok (d, s.advance 4) := by
  rw [loadDisp, if_pos (by decide), fetch_disp h]
  rfl

/-- What `decode_rm` stores for an operand. -/
def Rm.ofOperand (gpr : Gpr) (rmAddr : Word) (reg : BitVec 3) : Operand → Rm
  | .register r => ⟨r.toNat, rmAddr, reg⟩
  | .memory base index disp => ⟨-1, effectiveAddress gpr base index disp, reg⟩

theorem decodeRm_memory {bs : List Byte} {addr rmAddr : Word} (ha : Ahead itrace mem s (m :: bs)) (hmod : mod m ≠ 3)
    (h : loadAddr itrace mem gpr m (s.advance 1) = .ok (addr, s')) :
    decodeRm itrace mem gpr rmAddr s = .ok (⟨-1, addr, reg m⟩, s') := by
  rw [decodeRm, fetch_byte ha]
  show (if mod ((m.setWidth 32).setWidth 8) = 3 then _ else _) = _
  rw [byte_of_word, if_neg hmod, h]
  rfl

section Rows

variable {md ss : BitVec 2} {rg r i b : BitVec 3} {bs : List Byte} {base : Option (BitVec 3)} {size : ℕ}
    {disp rmAddr : Word}

/-- A row of the table of the byte ModR/M. -/
theorem decodeRm_plain (hmd : md ≠ 3) (hr : r ≠ 4) (hsize : dispSize (modRM md rg r) r.toNat = (num base, size))
    (ha : Ahead itrace mem s (modRM md rg r :: bs))
    (hdisp : loadDisp itrace mem size (s.advance 1) = .ok (disp, s')) : decodeRm itrace mem gpr rmAddr s =
      .ok (.ofOperand gpr rmAddr rg (.memory base none disp), s') := by
  obtain ⟨hmod, hreg, hrm⟩ := modRM_fields md rg r
  have hne : mod (modRM md rg r) ≠ 3 := by rwa [hmod]
  have hsib := @loadSib_none itrace mem (modRM md rg r) (s.advance 1) (by rwa [hrm])
  rw [hrm] at hsib
  have haddr := @loadAddr_eq itrace mem gpr _ _ _ _ r base none 0 size disp hne hsib nofun hsize hdisp
  rw [decodeRm_memory ha hne haddr, hreg]
  rfl

/-- A row of the table of the byte SIB. -/
theorem decodeRm_sib (hmd : md ≠ 3) (hsize : dispSize (modRM md rg 4) b.toNat = (num base, size))
    (ha : Ahead itrace mem s (modRM md rg 4 :: sib ss i b :: bs))
    (hdisp : loadDisp itrace mem size (s.advance 2) = .ok (disp, s')) : decodeRm itrace mem gpr rmAddr s =
      .ok (.ofOperand gpr rmAddr rg (.memory base (scaled ss i) disp), s') := by
  obtain ⟨hmod, hreg, hrm⟩ := modRM_fields md rg 4
  have hne : mod (modRM md rg 4) ≠ 3 := by rwa [hmod]
  have hsib := loadSib_some hrm ha.tail
  rw [advance_advance] at hsib
  have haddr := @loadAddr_eq itrace mem gpr _ _ _ _ b base _ ss.toNat size disp hne hsib scaled_scale hsize hdisp
  rw [decodeRm_memory ha hne haddr, hreg]
  rfl

end Rows

/-- **`decode_rm` takes the bytes of the operand, and finds it.** -/
theorem decodeRm_form {bs : List Byte} {rg : BitVec 3} {op : Operand} (hop : Form bs rg op) (rmAddr : Word)
    (ha : Ahead itrace mem s bs) : decodeRm itrace mem gpr rmAddr s =
      .ok (.ofOperand gpr rmAddr rg op, s.advance bs.length) := by
  have hadvance : ∀ n k, (s.advance n).advance k = s.advance (n + k) := advance_advance s
  cases hop with
  | register _ r =>
    obtain ⟨hmod, hreg, hrm⟩ := modRM_fields 3 rg r
    rw [decodeRm, fetch_byte ha]
    show (if mod ((((modRM 3 rg r).setWidth 32)).setWidth 8) = 3 then _ else _) = _
    rw [byte_of_word, if_pos hmod, hreg, hrm]
    rfl
  | base _ b hsib hdisp => exact decodeRm_plain (by decide) hsib ((dispSize_eq rg b b).2.1 hdisp) ha loadDisp_none
  | disp _ d =>
    rw [decodeRm_plain (by decide) (by decide) (dispSize_eq rg 5 5).1 ha (loadDisp_word ha.tail), hadvance]
    rfl
  | baseDisp8 _ b hsib d =>
    rw [decodeRm_plain (by decide) hsib (dispSize_eq rg b b).2.2.1 ha (loadDisp_byte ha.tail), hadvance]
    rfl
  | baseDisp32 _ b hsib d =>
    rw [decodeRm_plain (by decide) hsib (dispSize_eq rg b b).2.2.2 ha (loadDisp_word ha.tail), hadvance]
    rfl
  | sib _ ss i b hdisp => exact decodeRm_sib (by decide) ((dispSize_eq rg 4 b).2.1 hdisp) ha loadDisp_none
  | sibDisp _ ss i d =>
    have htail := ha.tail.tail
    rw [hadvance] at htail
    rw [decodeRm_sib (by decide) (dispSize_eq rg 4 5).1 ha (loadDisp_word htail), hadvance]
    rfl
  | sibDisp8 _ ss i b d =>
    have htail := ha.tail.tail
    rw [hadvance] at htail
    rw [decodeRm_sib (by decide) (dispSize_eq rg 4 b).2.2.1 ha (loadDisp_byte htail), hadvance]
    rfl
  | sibDisp32 _ ss i b d =>
    have htail := ha.tail.tail
    rw [hadvance] at htail
    rw [decodeRm_sib (by decide) (dispSize_eq rg 4 b).2.2.2 ha (loadDisp_word htail), hadvance]
    rfl

end Operands

/-! ## Every stream -/

theorem disp32_ofBytes (f : ℕ → Byte) : disp32 (Bytes.ofBytes f) = [f 0, f 1, f 2, f 3] :=
  List.map_congr_left (l := List.range 4) fun _ hi => Bytes.byte_ofBytes f (List.mem_range.mp hi)

/-- **Every byte stream starts with an operand.** -/
theorem exists_form (f : ℕ → Byte) : ∃ n rg op, Form ((List.range n).map f) rg op := by
  obtain ⟨md, hmd⟩ : ∃ md, md = mod (f 0) := ⟨_, rfl⟩
  obtain ⟨rg, hrg⟩ : ∃ rg, rg = reg (f 0) := ⟨_, rfl⟩
  obtain ⟨r, hr⟩ : ∃ r, r = rm (f 0) := ⟨_, rfl⟩
  have hfirst : f 0 = modRM md rg r := by
    rw [hmd, hrg, hr, modRM_self]
  have hsib := sib_self (f 1)
  have hdisp1 : disp32 (Bytes.ofBytes fun i => f (1 + i)) = [f 1, f 2, f 3, f 4] := disp32_ofBytes _
  have hdisp2 : disp32 (Bytes.ofBytes fun i => f (2 + i)) = [f 2, f 3, f 4, f 5] := disp32_ofBytes _
  have hcases : ∀ md : BitVec 2, md = 0 ∨ md = 1 ∨ md = 2 ∨ md = 3 := by decide
  by_cases h4 : r = 4
  · rw [h4] at hfirst
    obtain rfl | rfl | rfl | rfl := hcases md
    · by_cases h5 : sibBase (f 1) = 5
      · rw [h5] at hsib
        have h := Form.sibDisp rg (sibSs (f 1)) (sibIndex (f 1)) (Bytes.ofBytes fun i => f (2 + i))
        rw [hsib, hdisp2, ← hfirst] at h
        exact ⟨6, rg, _, h⟩
      · have h := Form.sib rg (sibSs (f 1)) (sibIndex (f 1)) _ h5
        rw [hsib, ← hfirst] at h
        exact ⟨2, rg, _, h⟩
    · have h := Form.sibDisp8 rg (sibSs (f 1)) (sibIndex (f 1)) (sibBase (f 1)) (f 2)
      rw [hsib, ← hfirst] at h
      exact ⟨3, rg, _, h⟩
    · have h := Form.sibDisp32 rg (sibSs (f 1)) (sibIndex (f 1)) (sibBase (f 1)) (Bytes.ofBytes fun i => f (2 + i))
      rw [hsib, hdisp2, ← hfirst] at h
      exact ⟨6, rg, _, h⟩
    · have h := Form.register rg 4
      rw [← hfirst] at h
      exact ⟨1, rg, _, h⟩
  · obtain rfl | rfl | rfl | rfl := hcases md
    · by_cases h5 : r = 5
      · rw [h5] at hfirst
        have h := Form.disp rg (Bytes.ofBytes fun i => f (1 + i))
        rw [hdisp1, ← hfirst] at h
        exact ⟨5, rg, _, h⟩
      · have h := Form.base rg r h4 h5
        rw [← hfirst] at h
        exact ⟨1, rg, _, h⟩
    · have h := Form.baseDisp8 rg r h4 (f 1)
      rw [← hfirst] at h
      exact ⟨2, rg, _, h⟩
    · have h := Form.baseDisp32 rg r h4 (Bytes.ofBytes fun i => f (1 + i))
      rw [hdisp1, ← hfirst] at h
      exact ⟨5, rg, _, h⟩
    · have h := Form.register rg r
      rw [← hfirst] at h
      exact ⟨1, rg, _, h⟩

/-- **`decode_rm` follows the tables of the i386**: the bytes behind an opcode start with an operand, and from those
bytes, whatever follows them, `decode_rm` finds it and goes on behind them. -/
theorem decodeRm_i386 (itrace : Bool) (mem : Memory) (gpr : Gpr) (rmAddr : Word) (s : Decode) :
    (∃ bs rg op, Form bs rg op ∧ mem.StartsWith s.snpc bs) ∧
    ∀ bs rg op, Form bs rg op → Ahead itrace mem s bs →
      decodeRm itrace mem gpr rmAddr s = .ok (.ofOperand gpr rmAddr rg op, s.advance bs.length) := by
  refine ⟨?_, fun bs rg op hop ha => decodeRm_form hop rmAddr ha⟩
  obtain ⟨n, rg, op, hop⟩ := exists_form fun i => mem.byte (s.snpc + BitVec.ofNat 32 i)
  refine ⟨_, rg, op, hop, fun i hi => ?_⟩
  rw [List.getElem_map, List.getElem_range]

/-- `16(%ecx,%eax,4)`, with 3 in every register. -/
theorem decodeRm_i386_sib : decodeRm true ⟨0, 16, fun q => ([0x44, 0x81, 0x10][q.toNat]?).getD 0⟩ (fun _ => 3) 0 ⟨0, 0⟩ =
    .ok (⟨-1, 31, 0⟩, ⟨0, 3⟩) :=
  (decodeRm_i386 true _ _ 0 ⟨0, 0⟩).2 _ _ _ (.sibDisp8 0 2 0 1 0x10) ⟨by decide, by decide, by decide⟩

end Nemu.X86
