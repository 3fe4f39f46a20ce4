import Rv32i.Nemu.Memory
import Rv32i.Lib.Region

/-!
# NEMU: memory accesses with devices

`src/memory/paddr.c`, `src/device/io/map.c` and `src/device/io/mmio.c` on the host memory they work on, with
and without `CONFIG_DEVICE`: an address in `pmem` goes to the array, every other one to the first map that
contains it.  `host_read` and `host_write` record the bytes they dereference, so that what an access
touches can be stated.

`paddrRead_shipped`, `paddrWrite_shipped`: without devices this is the memory of the shipped configuration, seen from `pmem` on.
-/

namespace Nemu.Device

open Rv32

/-! ## Host memory -/

abbrev HostPtr := BitVec 64

/-- The bytes of the host, and the addresses that `host_read` and `host_write` have dereferenced. -/
structure Host where
  mem : HostPtr → Byte
  touched : List HostPtr

def Host.touch (h : Host) (addr : HostPtr) (len : ℕ) : Host :=
  { h with touched := h.touched ++ Region.bytes addr len }

def Host.put (h : Host) (addr : HostPtr) (b : Byte) : Host :=
  { h with mem := fun q => if q = addr then b else h.mem q }

def hostRead (h : Host) (addr : HostPtr) (len : ℕ) : Exec (Word × Host) :=
  match len with
  | 1 => .ok ((h.mem addr).setWidth 32, h.touch addr 1)
  | 2 => .ok ((h.mem (addr + 1) ++ h.mem addr).setWidth 32, h.touch addr 2)
  | 4 => .ok (h.mem (addr + 3) ++ h.mem (addr + 2) ++ h.mem (addr + 1) ++ h.mem addr, h.touch addr 4)
  | _ => .error .assert

def hostWrite (h : Host) (addr : HostPtr) (len : ℕ) (data : Word) : Exec Host :=
  match len with
  | 1 => .ok ((h.put addr (data.extractLsb' 0 8)).touch addr 1)
  | 2 => .ok (((h.put addr (data.extractLsb' 0 8)).put (addr + 1) (data.extractLsb' 8 8)).touch addr 2)
  | 4 => .ok (((((h.put addr (data.extractLsb' 0 8)).put (addr + 1) (data.extractLsb' 8 8)).put
      (addr + 2) (data.extractLsb' 16 8)).put (addr + 3) (data.extractLsb' 24 8)).touch addr 4)
  | _ => .error .assert

/-! ## Maps -/

/-- `io_callback_t`: code of a device, run with the offset, the length and the direction of an access. -/
abbrev IoCallback := Word → ℕ → Bool → (HostPtr → Byte) → Exec (HostPtr → Byte)

structure IOMap where
  low : Word
  high : Word
  space : HostPtr
  callback : Option IoCallback

def mapInside (map : IOMap) (addr : Word) : Bool := addr ≥ map.low ∧ addr ≤ map.high

/-- The index of the first map that contains the address; `none` is `-1`. -/
def findMapidByAddr (maps : List IOMap) (addr : Word) : Option ℕ := maps.findIdx? fun map => mapInside map addr

/-- The failing branch is the one of a `NULL` map or of an address outside it; the map is returned for the code
after the check. -/
def checkBound (map : Option IOMap) (addr : Word) : Exec IOMap :=
  match map with
  | none => .error .panic
  | some map => if addr ≤ map.high ∧ addr ≥ map.low then .ok map else .error .panic

def invokeCallback (c : Option IoCallback) (offset : Word) (len : ℕ) (isWrite : Bool) (h : Host) : Exec Host :=
  match c with
  | none => .ok h
  | some c => do return { h with mem := ← c offset len isWrite h.mem }

def mapRead (h : Host) (addr : Word) (len : ℕ) (map : Option IOMap) : Exec (Word × Host) := do
  if ¬ (len ≥ 1 ∧ len ≤ 8) then throw .assert
  let map ← checkBound map addr
  let offset := addr - map.low
  let h ← invokeCallback map.callback offset len false h  -- prepare data to read
  hostRead h (map.space + offset.setWidth 64) len

def mapWrite (h : Host) (addr : Word) (len : ℕ) (data : Word) (map : Option IOMap) : Exec Host := do
  if ¬ (len ≥ 1 ∧ len ≤ 8) then throw .assert
  let map ← checkBound map addr
  let offset := addr - map.low
  let h ← hostWrite h (map.space + offset.setWidth 64) len data
  invokeCallback map.callback offset len true h

/-! ## Physical addresses -/

/-- What the build and the initialisation fix: where `pmem` is, `CONFIG_DEVICE`, and the registered maps. -/
structure Bus where
  pmem : HostPtr
  device : Bool
  maps : List IOMap

def Bus.guestToHost (b : Bus) (paddr : Word) : HostPtr := b.pmem + paddr.setWidth 64 - configMbase.setWidth 64

def Bus.pmemRead (b : Bus) (h : Host) (addr : Word) (len : ℕ) : Exec (Word × Host) :=
  hostRead h (b.guestToHost addr) len

def Bus.pmemWrite (b : Bus) (h : Host) (addr : Word) (len : ℕ) (data : Word) : Exec Host :=
  hostWrite h (b.guestToHost addr) len data

def Bus.fetchMmioMap (b : Bus) (addr : Word) : Option IOMap := (findMapidByAddr b.maps addr).bind (b.maps[·]?)

def Bus.mmioRead (b : Bus) (h : Host) (addr : Word) (len : ℕ) : Exec (Word × Host) :=
  mapRead h addr len (b.fetchMmioMap addr)

def Bus.mmioWrite (b : Bus) (h : Host) (addr : Word) (len : ℕ) (data : Word) : Exec Host :=
  mapWrite h addr len data (b.fetchMmioMap addr)

/-- Without devices an address outside `pmem` reaches `out_of_bound`, which panics. -/
def Bus.paddrRead (b : Bus) (h : Host) (addr : Word) (len : ℕ) : Exec (Word × Host) :=
  if inPmem addr then b.pmemRead h addr len
  else if b.device then b.mmioRead h addr len
  else .error .panic

def Bus.paddrWrite (b : Bus) (h : Host) (addr : Word) (len : ℕ) (data : Word) : Exec Host :=
  if inPmem addr then b.pmemWrite h addr len data
  else if b.device then b.mmioWrite h addr len data
  else .error .panic

/-! ## What `host_read` and `host_write` touch -/

/-- The `i`-th byte from a host address on. -/
def Host.view (h : Host) (addr : HostPtr) : Word → Byte := fun i => h.mem (addr + i.setWidth 64)

/-- A read is the little-endian load from the address, and touches just its bytes. -/
theorem hostRead_eq (h : Host) (addr : HostPtr) (n : Width) :
    hostRead h addr n.bytes = .ok (loadBytes (h.view addr) 0 n, h.touch addr n.bytes) := by
  cases n <;> simp [hostRead, Width.bytes, loadBytes, Host.view]

/-- Where a write can change the host memory, it has touched it. -/
theorem hostWrite_eq (h : Host) (addr : HostPtr) (n : Width) (data : Word) :
    ∃ h', hostWrite h addr n.bytes data = .ok h' ∧ h'.touched = h.touched ++ Region.bytes addr n.bytes ∧
      ∀ q, h'.mem q = if (q - addr).toNat < n.bytes then data.extractLsb' (8 * (q - addr).toNat) 8 else h.mem q := by
  have hdist : ∀ (q : HostPtr) (k : ℕ), k < 2 ^ 64 → (q = addr + BitVec.ofNat 64 k ↔ (q - addr).toNat = k) := by
    intro q k hk
    constructor
    · rintro rfl
      exact Region.toNat_add_sub addr hk
    · intro hq
      have : q - addr = BitVec.ofNat 64 k := by
        rw [← BitVec.toNat_inj, hq, BitVec.toNat_ofNat, Nat.mod_eq_of_lt hk]
      rw [← this, BitVec.add_comm, BitVec.sub_add_cancel]
  cases n <;> refine ⟨_, rfl, rfl, fun q => ?_⟩ <;>
    · have h0 := hdist q 0 (by omega)
      have h1 := hdist q 1 (by omega)
      have h2 := hdist q 2 (by omega)
      have h3 := hdist q 3 (by omega)
      simp only [BitVec.add_zero] at h0 h1 h2 h3
      simp only [Host.touch, Host.put, Width.bytes, BitVec.ofNat_eq_ofNat, h0, h1, h2, h3]
      generalize (q - addr).toNat = d
      by_cases hd : d < 4
      · interval_cases d <;> simp
      · have hlt : ¬ d < 1 ∧ ¬ d < 2 := by omega
        simp [hd, hlt, show d ≠ 0 ∧ d ≠ 1 ∧ d ≠ 2 ∧ d ≠ 3 by omega]

/-! ## The shipped configuration -/

section Shipped

variable {b : Bus} {addr : Word}

theorem configMbase_toNat : configMbase.toNat = 2147483648 := by simp [configMbase]

theorem configMsize_toNat : configMsize.toNat = 134217728 := by simp [configMsize]

/-- `in_pmem` on numbers. -/
theorem inPmem_iff : inPmem addr = true ↔ configMbase.toNat ≤ addr.toNat ∧
    addr.toNat < configMbase.toNat + configMsize.toNat := by
  unfold inPmem
  rw [decide_eq_true_eq, BitVec.lt_def, BitVec.toNat_sub, configMbase_toNat, configMsize_toNat]
  have := addr.isLt
  omega

/-- An address in `pmem` is its index away from the start of the array. -/
theorem guestToHost_eq (hin : inPmem addr = true) :
    b.guestToHost addr = b.pmem + BitVec.ofNat 64 (addr - configMbase).toNat := by
  obtain ⟨hle, -⟩ := inPmem_iff.mp hin
  have hidx : (addr - configMbase).setWidth 64 = addr.setWidth 64 - configMbase.setWidth 64 := by
    apply BitVec.eq_of_toNat_eq
    have hle' : configMbase.setWidth 64 ≤ addr.setWidth 64 := by
      rw [BitVec.le_def, BitVec.toNat_setWidth, BitVec.toNat_setWidth]
      have := addr.isLt
      rw [configMbase_toNat] at hle ⊢
      omega
    rw [BitVec.toNat_setWidth, BitVec.toNat_sub_of_le hle, BitVec.toNat_sub_of_le hle', BitVec.toNat_setWidth,
      BitVec.toNat_setWidth, configMbase_toNat]
    have := addr.isLt
    omega
  unfold Bus.guestToHost
  rw [BitVec.ofNat_toNat, hidx, BitVec.sub_eq_add_neg, BitVec.add_assoc, ← BitVec.sub_eq_add_neg]

/-- The distance of two guest addresses, one of them in `pmem`, seen in the host memory. -/
theorem host_distance (hin : inPmem addr = true) (q : Word) {n : ℕ} (hn : n ≤ 4) :
    ((b.pmem + (q - configMbase).setWidth 64 - b.guestToHost addr).toNat < n ↔ (q - addr).toNat < n) ∧
      ((q - addr).toNat < n →
        (b.pmem + (q - configMbase).setWidth 64 - b.guestToHost addr).toNat = (q - addr).toNat) := by
  have hk : (addr - configMbase).toNat < 134217728 := by
    obtain ⟨hle, hlt⟩ := inPmem_iff.mp hin
    rw [BitVec.toNat_sub_of_le hle]
    rw [configMsize_toNat] at hlt
    omega
  have hcancel : b.pmem + (q - configMbase).setWidth 64 - b.guestToHost addr =
      (q - configMbase).setWidth 64 - (addr - configMbase).setWidth 64 := by
    rw [guestToHost_eq hin, BitVec.ofNat_toNat, add_sub_add_left_eq_sub]
  have hsplit : q - addr = (q - configMbase) - (addr - configMbase) := (sub_sub_sub_cancel_right q addr _).symm
  rw [hcancel, hsplit]
  generalize q - configMbase = x at *
  generalize addr - configMbase = k at *
  have hx := x.isLt
  rw [BitVec.toNat_sub, BitVec.toNat_sub, BitVec.toNat_setWidth, BitVec.toNat_setWidth]
  omega

/-- A byte of the guest memory is the host byte at its distance from the array. -/
theorem guestMem_view (h : Host) (q : Word) :
    guestMem (h.view b.pmem) q = h.mem (b.pmem + (q - configMbase).setWidth 64) := rfl

/-- **Without devices a read is the one of the shipped configuration.** -/
theorem paddrRead_shipped (hdev : b.device = false) (h : Host) (addr : Word) (n : Width) :
    (b.paddrRead h addr n.bytes).map Prod.fst = Nemu.paddrRead (h.view b.pmem) addr n.bytes := by
  unfold Bus.paddrRead
  by_cases hin : inPmem addr = true
  · have hbyte : ∀ i : ℕ, i < 4 → h.view (b.guestToHost addr) (0 + BitVec.ofNat 32 i) =
        guestMem (h.view b.pmem) (addr + BitVec.ofNat 32 i) := by
      intro i hi
      have hd := (host_distance (b := b) hin (addr + BitVec.ofNat 32 i) (n := 4) (by omega)).2
      rw [Region.toNat_add_sub addr (by omega)] at hd
      have hd := hd hi
      rw [guestMem_view, Host.view]
      congr 1
      rw [zero_add]
      generalize b.pmem + (addr + BitVec.ofNat 32 i - configMbase).setWidth 64 = p at *
      have : p = b.guestToHost addr + BitVec.ofNat 64 i := by
        rw [← hd, BitVec.ofNat_toNat, BitVec.setWidth_eq, add_sub_cancel]
      rw [this]
      congr 1
      apply BitVec.eq_of_toNat_eq
      rw [BitVec.toNat_setWidth, BitVec.toNat_ofNat, BitVec.toNat_ofNat]
      omega
    rw [if_pos hin, paddrRead_eq n hin, Bus.pmemRead, hostRead_eq]
    have h0 := hbyte 0 (by omega)
    have h1 := hbyte 1 (by omega)
    have h2 := hbyte 2 (by omega)
    have h3 := hbyte 3 (by omega)
    simp only [BitVec.add_zero, BitVec.ofNat_eq_ofNat] at h0 h1 h2 h3
    cases n <;> simp only [Except.map, loadBytes, BitVec.ofNat_eq_ofNat, h0, h1, h2, h3]
  · rw [if_neg hin, hdev]
    unfold Nemu.paddrRead
    rw [if_neg hin]
    rfl

/-- **Without devices a write is the one of the shipped configuration.** -/
theorem paddrWrite_shipped (hdev : b.device = false) (h : Host) (addr : Word) (n : Width) (data : Word) :
    (b.paddrWrite h addr n.bytes data).map (·.view b.pmem) =
      Nemu.paddrWrite (h.view b.pmem) addr n.bytes data := by
  unfold Bus.paddrWrite
  by_cases hin : inPmem addr = true
  · obtain ⟨h', hw, -, hmem⟩ := hostWrite_eq h (b.guestToHost addr) n data
    obtain ⟨pmem', hok, hst⟩ := @paddrWrite_eq (h.view b.pmem) _ n data hin
    rw [if_pos hin, Bus.pmemWrite, hw, hok]
    have : h'.view b.pmem = pmem' := by
      apply guestMem_injective
      rw [hst]
      funext q
      obtain ⟨hiff, heq⟩ := host_distance (b := b) hin q (n := n.bytes) (by cases n <;> decide)
      rw [guestMem_view, hmem]
      by_cases hq : (q - addr).toNat < n.bytes
      · rw [if_pos (hiff.mpr hq), heq hq, storeBytes, if_pos hq]
      · rw [if_neg fun hlt => hq (hiff.mp hlt), storeBytes, if_neg hq, guestMem_view]
    rw [← this]
    rfl
  · rw [if_neg hin, hdev]
    unfold Nemu.paddrWrite
    rw [if_neg hin]
    rfl

end Shipped

end Nemu.Device
