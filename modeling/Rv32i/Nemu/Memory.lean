import Rv32i.Isa.Step

/-!
# NEMU: macros and guest memory

`include/macro.h`, `src/memory/` and `include/memory/`, in the shipped configuration: one 32-bit guest,
`CONFIG_MBASE = 0x80000000`, `CONFIG_MSIZE = 0x8000000`, `CONFIG_RT_CHECK` on and `CONFIG_DEVICE` off,
on a little-endian host.
-/

namespace Nemu

open Rv32

/-- How a run of the emulator ends abnormally. -/
inductive Fault
  /-- `panic` or a failed `Assert`. -/
  | panic
  /-- A failed `assert`. -/
  | assert
  /-- Host arithmetic that the C standard leaves undefined; the host traps on it. -/
  | trap
  /-- An access past the end of a host array. -/
  | overrun
  /-- The host stack is exhausted by a recursion. -/
  | stack
  /-- A loop that does not end. -/
  | loop
  deriving DecidableEq, Repr

abbrev Exec := Except Fault

theorem bind_ok {α β : Type} {x : Exec α} {f : α → Exec β} {b : β} (h : x >>= f = .ok b) :
    ∃ a, x = .ok a ∧ f a = .ok b := by
  cases x with
  | error e => cases h
  | ok a => exact ⟨a, rfl, h⟩

/-! ## `macro.h` -/

def bitmask (bits : ℕ) : BitVec 64 := (1#64 <<< bits) - 1#64

/-- `BITS(x, hi, lo)`; the mask is an `unsigned long long`, so the result has 64 bits. -/
def bits (x : Word) (hi lo : ℕ) : BitVec 64 := (x >>> lo).setWidth 64 &&& bitmask (hi - lo + 1)

/-- `SEXT(x, len)`: a store to a signed bit-field of `len` bits, read back as a 64-bit number. -/
def sext {n : ℕ} (x : BitVec n) (len : ℕ) : BitVec 64 := (x.setWidth len).signExtend 64

/-- Cut to a register, the extension to 64 bits is the extension to 32. -/
theorem setWidth_sext {n : ℕ} (x : BitVec n) (len : ℕ) :
    (sext x len).setWidth 32 = (x.setWidth len).signExtend 32 := by
  unfold sext
  apply BitVec.eq_of_getLsbD_eq
  intro i hi
  have h64 : i < 64 := by omega
  simp only [BitVec.getLsbD_setWidth, BitVec.getLsbD_signExtend, hi, h64, decide_true, Bool.true_and]

/-! ## Guest memory -/

def configMbase : Word := 0x80000000
def configMsize : Word := 0x8000000

/-- The host bytes from `pmem` on: index `i` is `pmem[i]`.  The array has `CONFIG_MSIZE` bytes; an index
past them is the host byte that follows it. -/
abbrev Pmem := Word → Byte

/-- `paddr - CONFIG_MBASE`, the index of a guest address in `pmem`. -/
def guestToHost (paddr : Word) : Word := paddr - configMbase

def inPmem (addr : Word) : Bool := addr - configMbase < configMsize

def hostRead (pmem : Pmem) (addr : Word) (len : ℕ) : Exec Word :=
  match len with
  | 1 => .ok ((pmem addr).setWidth 32)
  | 2 => .ok ((pmem (addr + 1) ++ pmem addr).setWidth 32)
  | 4 => .ok (pmem (addr + 3) ++ pmem (addr + 2) ++ pmem (addr + 1) ++ pmem addr)
  | _ => .error .assert

/-- One byte stored at an index. -/
def Pmem.put (pmem : Pmem) (i : Word) (b : Byte) : Pmem := fun j => if j = i then b else pmem j

def hostWrite (pmem : Pmem) (addr : Word) (len : ℕ) (data : Word) : Exec Pmem :=
  match len with
  | 1 => .ok (pmem.put addr (data.extractLsb' 0 8))
  | 2 => .ok ((pmem.put addr (data.extractLsb' 0 8)).put (addr + 1) (data.extractLsb' 8 8))
  | 4 => .ok ((((pmem.put addr (data.extractLsb' 0 8)).put (addr + 1) (data.extractLsb' 8 8)).put
      (addr + 2) (data.extractLsb' 16 8)).put (addr + 3) (data.extractLsb' 24 8))
  | _ => .error .assert

def pmemRead (pmem : Pmem) (addr : Word) (len : ℕ) : Exec Word := hostRead pmem (guestToHost addr) len

def pmemWrite (pmem : Pmem) (addr : Word) (len : ℕ) (data : Word) : Exec Pmem :=
  hostWrite pmem (guestToHost addr) len data

/-- An address outside `pmem` reaches `out_of_bound`, which panics. -/
def paddrRead (pmem : Pmem) (addr : Word) (len : ℕ) : Exec Word :=
  if inPmem addr then pmemRead pmem addr len else .error .panic

def paddrWrite (pmem : Pmem) (addr : Word) (len : ℕ) (data : Word) : Exec Pmem :=
  if inPmem addr then pmemWrite pmem addr len data else .error .panic

def vaddrIfetch (pmem : Pmem) (addr : Word) (len : ℕ) : Exec Word := paddrRead pmem addr len
def vaddrRead (pmem : Pmem) (addr : Word) (len : ℕ) : Exec Word := paddrRead pmem addr len
def vaddrWrite (pmem : Pmem) (addr : Word) (len : ℕ) (data : Word) : Exec Pmem := paddrWrite pmem addr len data

/-- `inst_fetch(&pc, len)`: the fetched word and the advanced pc. -/
def instFetch (pmem : Pmem) (pc : Word) (len : ℕ) : Exec (Word × Word) := do
  let inst ← vaddrIfetch pmem pc len
  return (inst, pc + BitVec.ofNat 32 len)

/-- `memcpy` of the words of an image to the start of `pmem`. -/
def Pmem.load (pmem : Pmem) (img : List Word) : Pmem := fun i =>
  match img[i.toNat / 4]? with
  | some w => w.extractLsb' (8 * (i.toNat % 4)) 8
  | none => pmem i

/-! ## The guest's view of memory -/

/-- The memory as the guest addresses it. -/
def guestMem (pmem : Pmem) : Word → Byte := fun a => pmem (guestToHost a)

/-- All bytes of an access of `n` bytes at `a` are in `pmem`. -/
def InPmem (a : Word) (n : Width) : Prop := ∀ i < n.bytes, inPmem (a + BitVec.ofNat 32 i) = true

instance (a : Word) (n : Width) : Decidable (InPmem a n) := by
  unfold InPmem; infer_instance

theorem guestMem_injective : Function.Injective guestMem := by
  intro p q h
  funext i
  have hi : guestToHost (i + configMbase) = i := BitVec.add_sub_cancel i configMbase
  have := congrFun h (i + configMbase)
  unfold guestMem at this
  rwa [hi] at this

theorem InPmem.first {a : Word} {n : Width} (h : InPmem a n) : inPmem a = true := by
  have := h 0 (by cases n <;> decide)
  simpa using this

theorem guestToHost_add (a k : Word) : guestToHost a + k = guestToHost (a + k) := by
  unfold guestToHost
  rw [BitVec.sub_add_comm]

theorem inPmem_add_iff (a : Word) (i : ℕ) :
    inPmem (a + BitVec.ofNat 32 i) = true ↔ (guestToHost a + BitVec.ofNat 32 i).toNat < configMsize.toNat := by
  rw [guestToHost_add]
  exact decide_eq_true_iff.trans BitVec.lt_def

theorem hostRead_eq (m : Pmem) (a : Word) (n : Width) : hostRead m a n.bytes = .ok (loadBytes m a n) := by
  cases n <;> rfl

theorem loadBytes_guestMem (pmem : Pmem) (a : Word) (n : Width) :
    loadBytes (guestMem pmem) a n = loadBytes pmem (guestToHost a) n := by
  cases n <;> simp only [loadBytes, guestMem, guestToHost_add]

/-- A read inside `pmem` is the little-endian load. -/
theorem paddrRead_eq {pmem : Pmem} {a : Word} (n : Width) (h : inPmem a = true) :
    paddrRead pmem a n.bytes = .ok (loadBytes (guestMem pmem) a n) := by
  rw [paddrRead, pmemRead, if_pos h, hostRead_eq, loadBytes_guestMem]

/-- The word fetched at a pc in `pmem`. -/
theorem instFetch_eq {pmem : Pmem} {pc : Word} (h : inPmem pc = true) :
    instFetch pmem pc 4 = .ok (loadBytes (guestMem pmem) pc .word, pc + 4) := by
  unfold instFetch vaddrIfetch
  rw [show (4 : ℕ) = Width.word.bytes from rfl, paddrRead_eq .word h]
  rfl

/-! ### Writes -/

theorem eq_add_iff (q a k : Word) : q = a + k ↔ (q - a).toNat = k.toNat := by
  rw [BitVec.toNat_inj]
  constructor
  · rintro rfl
    rw [BitVec.add_comm, BitVec.add_sub_cancel]
  · rintro rfl
    rw [BitVec.add_comm, BitVec.sub_add_cancel]

theorem hostWrite_eq (m : Pmem) (a : Word) (n : Width) (data : Word) :
    hostWrite m a n.bytes data = .ok (storeBytes m a n data) := by
  have hself : ∀ q, q = a ↔ (q - a).toNat = 0 := by
    intro q
    have h := eq_add_iff q a 0
    rwa [show a + 0 = a from BitVec.add_zero a] at h
  cases n <;> refine congrArg Except.ok (funext fun q => ?_) <;>
    simp only [Pmem.put, hself, eq_add_iff, storeBytes_byte, storeBytes_half, storeBytes_word] <;>
    generalize (q - a).toNat = d <;> rcases d with _ | _ | _ | _ | d <;> simp

/-- A store is at the same distance from its address on both sides. -/
theorem storeBytes_guestMem (pmem : Pmem) (a v : Word) (n : Width) :
    guestMem (storeBytes pmem (guestToHost a) n v) = storeBytes (guestMem pmem) a n v := by
  funext q
  have hdist : guestToHost q - guestToHost a = q - a := by
    unfold guestToHost
    ring
  simp only [guestMem, storeBytes, hdist]

/-- A write inside `pmem` is the little-endian store, and changes no other byte. -/
theorem paddrWrite_eq {pmem : Pmem} {a : Word} (n : Width) (v : Word) (h : inPmem a = true) :
    ∃ pmem', paddrWrite pmem a n.bytes v = .ok pmem' ∧
      guestMem pmem' = storeBytes (guestMem pmem) a n v := by
  refine ⟨storeBytes pmem (guestToHost a) n v, ?_, storeBytes_guestMem pmem a v n⟩
  rw [paddrWrite, pmemWrite, if_pos h, hostWrite_eq]

end Nemu
