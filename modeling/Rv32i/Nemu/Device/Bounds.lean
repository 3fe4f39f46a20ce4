import Rv32i.Nemu.Device.Map

/-!
# NEMU: which accesses stay in their region

`in_pmem`, `map_inside` and `check_bound` look at the first byte of an access.  An access that is accepted stays
inside the region that accepts it exactly when it does not run past the region's last byte
(`access_inside_iff`).
-/

namespace Nemu.Device

open Rv32

def Bus.pmemRegion (b : Bus) : Region 64 := ⟨b.pmem, configMsize.toNat⟩

/-- The host bytes behind `[low, high]`. -/
def IOMap.region (map : IOMap) : Region 64 := ⟨map.space, map.high.toNat - map.low.toNat + 1⟩

/-- The region that accepts an address. -/
def Bus.accepting (b : Bus) (addr : Word) : Option (Region 64) :=
  if inPmem addr then some b.pmemRegion
  else if b.device then (b.fetchMmioMap addr).map IOMap.region
  else none

/-- A read that returns has touched only the region that accepts its address. -/
def Bus.ReadInside (b : Bus) (h : Host) (addr : Word) (n : Width) : Prop :=
  ∀ v h', b.paddrRead { h with touched := [] } addr n.bytes = .ok (v, h') →
    ∃ R, b.accepting addr = some R ∧ ∀ q ∈ h'.touched, R.Contains q

/-- A write that returns has touched only the region that accepts its address. -/
def Bus.WriteInside (b : Bus) (h : Host) (addr : Word) (n : Width) (data : Word) : Prop :=
  ∀ h', b.paddrWrite { h with touched := [] } addr n.bytes data = .ok h' →
    ∃ R, b.accepting addr = some R ∧ ∀ q ∈ h'.touched, R.Contains q

/-- The access does not start in the last `n - 1` bytes of `pmem` or of the map it goes to. -/
def Bus.Fits (b : Bus) (addr : Word) (n : Width) : Prop :=
  if inPmem addr then (addr - configMbase).toNat + n.bytes ≤ configMsize.toNat
  else b.device = true → ∀ map, b.fetchMmioMap addr = some map → addr.toNat + n.bytes ≤ map.high.toNat + 1

/-- The address goes to a device whose callback panics on the access. -/
def Bus.RefusesRead (b : Bus) (h : Host) (addr : Word) (n : Width) : Prop :=
  inPmem addr = false ∧ b.device = true ∧ ∃ map e, b.fetchMmioMap addr = some map ∧
    invokeCallback map.callback (addr - map.low) n.bytes false { h with touched := [] } = .error e

def Bus.RefusesWrite (b : Bus) (h : Host) (addr : Word) (n : Width) (data : Word) : Prop :=
  inPmem addr = false ∧ b.device = true ∧ ∃ map h1 e, b.fetchMmioMap addr = some map ∧
    hostWrite { h with touched := [] } (map.space + (addr - map.low).setWidth 64) n.bytes data = .ok h1 ∧
    invokeCallback map.callback (addr - map.low) n.bytes true h1 = .error e

variable {b : Bus} {h h' : Host} {addr : Word} {n : Width} {map : IOMap}

theorem Width.bytes_pos (n : Width) : 0 < n.bytes := by cases n <;> decide

theorem Width.bytes_le (n : Width) : n.bytes ≤ 4 := by cases n <;> decide

/-! ## The map that is found -/

/-- A map that is fetched contains the address. -/
theorem fetchMmioMap_inside (hf : b.fetchMmioMap addr = some map) : map.low ≤ addr ∧ addr ≤ map.high := by
  unfold Bus.fetchMmioMap findMapidByAddr at hf
  obtain ⟨i, hi, hget⟩ := Option.bind_eq_some_iff.mp hf
  obtain ⟨hlt, hins, -⟩ := List.findIdx?_eq_some_iff_getElem.mp hi
  rw [List.getElem?_eq_getElem hlt] at hget
  cases hget
  simpa [mapInside] using hins

theorem checkBound_ok (hf : b.fetchMmioMap addr = some map) : checkBound (some map) addr = .ok map := by
  obtain ⟨h1, h2⟩ := fetchMmioMap_inside hf
  exact if_pos ⟨h2, h1⟩

/-- The callback leaves the record of touched bytes alone. -/
theorem invokeCallback_touched {c : Option IoCallback} {offset : Word} {len : ℕ} {isWrite : Bool}
    (hc : invokeCallback c offset len isWrite h = .ok h') : h'.touched = h.touched := by
  unfold invokeCallback at hc
  cases c with
  | none => cases hc; rfl
  | some c =>
    cases hm : c offset len isWrite h.mem with
    | error e => simp only [hm] at hc; cases hc
    | ok mem => simp only [hm] at hc; cases hc; rfl

/-! ## Touched bytes -/

/-- Where an access to `pmem` fits. -/
theorem pmem_inside_iff (hin : inPmem addr = true) :
    (∀ q ∈ Region.bytes (b.guestToHost addr) n.bytes, b.pmemRegion.Contains q) ↔ b.Fits addr n := by
  have hlt := (addr - configMbase).isLt
  have := Width.bytes_le n
  rw [guestToHost_eq hin]
  have := @Region.bytes_inside_iff _ b.pmemRegion (addr - configMbase).toNat n.bytes (Width.bytes_pos n) (by omega)
  unfold Bus.Fits
  rw [if_pos hin]
  exact this

/-- Where an access to a map fits. -/
theorem map_inside_iff (hin : inPmem addr = false) (hdev : b.device = true) (hf : b.fetchMmioMap addr = some map) :
    (∀ q ∈ Region.bytes (map.space + (addr - map.low).setWidth 64) n.bytes, map.region.Contains q) ↔
      b.Fits addr n := by
  obtain ⟨h1, h2⟩ := fetchMmioMap_inside hf
  rw [BitVec.le_def] at h1 h2
  have hoff : (addr - map.low).setWidth 64 = BitVec.ofNat 64 (addr.toNat - map.low.toNat) := by
    apply BitVec.eq_of_toNat_eq
    rw [BitVec.toNat_setWidth, BitVec.toNat_sub_of_le h1, BitVec.toNat_ofNat]
  have hlt := addr.isLt
  have := Width.bytes_le n
  have hsize := @Region.bytes_inside_iff _ map.region (addr.toNat - map.low.toNat) n.bytes (Width.bytes_pos n)
    (by omega)
  rw [hoff]
  refine hsize.trans ?_
  unfold Bus.Fits IOMap.region
  rw [if_neg (by simp [hin])]
  constructor
  · intro hle _ map' hf'
    rw [hf] at hf'
    cases hf'
    simp only at hle
    omega
  · intro hfit
    have := hfit hdev map hf
    simp only
    omega

/-! ## Accesses -/

/-- What a read through a map does. -/
theorem mapRead_eq (hf : b.fetchMmioMap addr = some map) :
    mapRead h addr n.bytes (some map) =
      (invokeCallback map.callback (addr - map.low) n.bytes false h).bind fun h1 =>
        hostRead h1 (map.space + (addr - map.low).setWidth 64) n.bytes := by
  have hlen : ¬ ¬ (n.bytes ≥ 1 ∧ n.bytes ≤ 8) := by cases n <;> decide
  unfold mapRead
  rw [if_neg hlen, checkBound_ok hf]
  rfl

theorem mapWrite_eq (hf : b.fetchMmioMap addr = some map) (data : Word) :
    mapWrite h addr n.bytes data (some map) =
      (hostWrite h (map.space + (addr - map.low).setWidth 64) n.bytes data).bind fun h1 =>
        invokeCallback map.callback (addr - map.low) n.bytes true h1 := by
  have hlen : ¬ ¬ (n.bytes ≥ 1 ∧ n.bytes ≤ 8) := by cases n <;> decide
  unfold mapWrite
  rw [if_neg hlen, checkBound_ok hf]
  rfl

/-- Without a map a read panics. -/
theorem mapRead_none : mapRead h addr n.bytes none = .error .panic := by
  have hlen : ¬ ¬ (n.bytes ≥ 1 ∧ n.bytes ≤ 8) := by cases n <;> decide
  unfold mapRead
  rw [if_neg hlen]
  rfl

theorem mapWrite_none (data : Word) : mapWrite h addr n.bytes data none = .error .panic := by
  have hlen : ¬ ¬ (n.bytes ≥ 1 ∧ n.bytes ≤ 8) := by cases n <;> decide
  unfold mapWrite
  rw [if_neg hlen]
  rfl

theorem readInside_iff (b : Bus) (h : Host) (addr : Word) (n : Width) :
    b.ReadInside h addr n ↔ b.Fits addr n ∨ b.RefusesRead h addr n := by
  unfold Bus.ReadInside Bus.paddrRead Bus.RefusesRead Bus.accepting
  by_cases hin : inPmem addr = true
  · simp only [hin, if_true, Bus.pmemRead, hostRead_eq]
    rw [← pmem_inside_iff hin]
    simp [Host.touch]
  · replace hin : inPmem addr = false := by simpa using hin
    cases hdev : b.device with
    | false =>
      -- neither accepts: every access panics
      simp [hin, Bus.Fits, hdev]
    | true =>
      cases hf : b.fetchMmioMap addr with
      | none =>
        simp only [hin, Bus.mmioRead, hf]
        simp [Bus.Fits, hin, hf, mapRead_none]
      | some map =>
        simp only [hin, Bus.mmioRead, hf, mapRead_eq hf]
        rw [← map_inside_iff hin hdev hf]
        cases hc : invokeCallback map.callback (addr - map.low) n.bytes false { h with touched := [] } with
        | error e => simp [Except.bind, hc]
        | ok h1 =>
          have ht := invokeCallback_touched hc
          simp [Except.bind, hc, hostRead_eq, Host.touch, ht]

theorem writeInside_iff (b : Bus) (h : Host) (addr : Word) (n : Width) (data : Word) :
    b.WriteInside h addr n data ↔ b.Fits addr n ∨ b.RefusesWrite h addr n data := by
  unfold Bus.WriteInside Bus.paddrWrite Bus.RefusesWrite Bus.accepting
  by_cases hin : inPmem addr = true
  · obtain ⟨h1, hw, ht, -⟩ := hostWrite_eq { h with touched := [] } (b.guestToHost addr) n data
    simp only [hin, if_true, Bus.pmemWrite, hw]
    rw [← pmem_inside_iff hin]
    simp [ht]
  · replace hin : inPmem addr = false := by simpa using hin
    cases hdev : b.device with
    | false => simp [hin, Bus.Fits, hdev]
    | true =>
      cases hf : b.fetchMmioMap addr with
      | none =>
        simp only [hin, Bus.mmioWrite, hf]
        simp [Bus.Fits, hin, hf, mapWrite_none]
      | some map =>
        obtain ⟨h1, hw, ht, -⟩ := hostWrite_eq { h with touched := [] }
          (map.space + (addr - map.low).setWidth 64) n data
        simp only [hin, Bus.mmioWrite, hf, mapWrite_eq hf, hw]
        rw [← map_inside_iff hin hdev hf]
        cases hc : invokeCallback map.callback (addr - map.low) n.bytes true h1 with
        | error e => simp [Except.bind, hw, hc]
        | ok h2 =>
          have ht2 := invokeCallback_touched hc
          simp [Except.bind, hw, hc, ht2, ht]

/-- **An accepted access touches only the region that accepts it exactly when it does not run past its end**, or
when the device's own callback rejects it. -/
theorem access_inside_iff (b : Bus) (h : Host) (addr : Word) (n : Width) :
    (b.ReadInside h addr n ↔ b.Fits addr n ∨ b.RefusesRead h addr n) ∧
      ∀ data, b.WriteInside h addr n data ↔ b.Fits addr n ∨ b.RefusesWrite h addr n data :=
  ⟨readInside_iff b h addr n, writeInside_iff b h addr n⟩

/-- A word read two bytes before the end of `pmem` touches the two host bytes that follow the array. -/
theorem read_runs_past : ¬ Bus.ReadInside ⟨0, false, []⟩ ⟨fun _ => 0, []⟩ 0x87fffffe .word := by
  intro hinside
  obtain ⟨R, hR, hq⟩ := hinside _ _ rfl
  cases hR
  exact absurd (hq 0x8000000 (by decide)) (by decide)

end Nemu.Device
