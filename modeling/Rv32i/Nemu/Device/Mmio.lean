import Rv32i.Lib.Dispatch
import Rv32i.Nemu.Device.Map

/-!
# NEMU: registration of maps

`add_mmio_map` of `src/device/io/mmio.c`.  It asks whether an end of the new region is in `pmem`, and whether the region
overlaps one that is registered.

* `addMmioMaps_ok` — what the checks have excluded when a sequence of registrations completes;
* `addMmioMaps_separate_iff` — when the regions are separate from `pmem` and from each other, so that the dispatch on
  addresses does not depend on the order of the registrations.
-/

namespace Nemu.Device

open Rv32 Dispatch

/-! ## `add_mmio_map` -/

/-- `NR_MAP`. -/
def nrMap : ℕ := 16

/-- The arguments of a call of `add_mmio_map`, but the name, which is only printed. -/
structure MmioCall where
  addr : Word
  space : HostPtr
  len : Word
  callback : Option IoCallback

/-- The map that a call registers. -/
def MmioCall.map (c : MmioCall) : IOMap := ⟨c.addr, c.addr + c.len - 1, c.space, c.callback⟩

/-- `maps[0]`, …, `maps[nr_map - 1]` behind a call; the failing branches are the assertion and
`report_mmio_overlap`. -/
def addMmioMap (maps : List IOMap) (c : MmioCall) : Exec (List IOMap) := do
  if ¬ maps.length < nrMap then throw .assert
  let left := c.addr
  let right := c.addr + c.len - 1
  if inPmem left || inPmem right then throw .panic
  if maps.any fun map => left ≤ map.high && right ≥ map.low then throw .panic
  return maps ++ [c.map]

/-- A sequence of calls. -/
def addMmioMaps (calls : List MmioCall) : Exec (List IOMap) := calls.foldlM addMmioMap []

/-! ## What the checks exclude -/

/-- No two maps overlap as `add_mmio_map` tests it, and no end of a map is in `pmem`. -/
structure Checked (maps : List IOMap) : Prop where
  apart : maps.Pairwise fun m m' => ¬ (m'.low ≤ m.high ∧ m.low ≤ m'.high)
  ends : ∀ m ∈ maps, inPmem m.low = false ∧ inPmem m.high = false

variable {maps maps' : List IOMap} {c : MmioCall} {calls : List MmioCall}

/-- What a call that returns has found. -/
theorem addMmioMap_ok (h : addMmioMap maps c = .ok maps') : maps.length < nrMap ∧ inPmem c.map.low = false ∧
    inPmem c.map.high = false ∧ (∀ m ∈ maps, ¬ (c.map.low ≤ m.high ∧ m.low ≤ c.map.high)) ∧ maps' = maps ++ [c.map] := by
  unfold addMmioMap at h
  by_cases hlen : maps.length < nrMap
  · rw [if_neg (not_not_intro hlen)] at h
    by_cases hends : (inPmem c.addr || inPmem (c.addr + c.len - 1)) = true
    · rw [if_pos hends] at h
      cases h
    · rw [if_neg hends] at h
      by_cases hany : (maps.any fun map => c.addr ≤ map.high && c.addr + c.len - 1 ≥ map.low) = true
      · rw [if_pos hany] at h
        cases h
      · rw [if_neg hany] at h
        obtain ⟨hl, hr⟩ := Bool.or_eq_false_iff.mp (Bool.eq_false_iff.mpr hends)
        refine ⟨hlen, hl, hr, fun m hm hover => hany ?_, (Except.ok.inj h).symm⟩
        rw [List.any_eq_true]
        exact ⟨m, hm, by simpa [MmioCall.map] using hover⟩
  · rw [if_pos hlen] at h
    cases h

/-- A call keeps what the checks establish. -/
theorem Checked.add (hc : Checked maps) (h : addMmioMap maps c = .ok maps') : Checked maps' := by
  obtain ⟨-, hl, hr, hover, rfl⟩ := addMmioMap_ok h
  constructor
  · rw [List.pairwise_append]
    refine ⟨hc.apart, List.pairwise_singleton _ _, fun m hm m' hm' => ?_⟩
    obtain rfl := List.mem_singleton.mp hm'
    exact hover m hm
  · intro m hm
    rcases List.mem_append.mp hm with hm | hm
    · exact hc.ends m hm
    · obtain rfl := List.mem_singleton.mp hm
      exact ⟨hl, hr⟩

/-- **What the checks have excluded** in a sequence of calls that completes. -/
theorem addMmioMaps_ok (h : addMmioMaps calls = .ok maps) : Checked maps ∧ maps = calls.map MmioCall.map := by
  have hrun : ∀ (calls : List MmioCall) (maps₀ : List IOMap), Checked maps₀ →
      calls.foldlM addMmioMap maps₀ = .ok maps → Checked maps ∧ maps = maps₀ ++ calls.map MmioCall.map := by
    intro calls
    induction calls with
    | nil =>
      intro maps₀ hc h
      obtain rfl := Except.ok.inj h
      exact ⟨hc, (List.append_nil _).symm⟩
    | cons c calls ih =>
      intro maps₀ hc h
      rw [List.foldlM_cons] at h
      cases hstep : addMmioMap maps₀ c with
      | error e =>
        rw [hstep] at h
        cases h
      | ok maps₁ =>
        rw [hstep] at h
        obtain ⟨hchecked, heq⟩ := ih maps₁ (hc.add hstep) h
        obtain ⟨-, -, -, -, rfl⟩ := addMmioMap_ok hstep
        exact ⟨hchecked, by rw [heq, List.map_cons, List.append_assoc, List.singleton_append]⟩
  exact hrun calls [] ⟨List.Pairwise.nil, nofun⟩ h

/-! ## Separate regions -/

/-- The regions are intervals that are not empty, disjoint from each other and from `pmem`. -/
structure Separate (maps : List IOMap) : Prop where
  nonempty : ∀ m ∈ maps, m.low ≤ m.high
  disjoint : Exclusive (fun addr m => mapInside m addr) maps
  pmem : ∀ m ∈ maps, ∀ addr, mapInside m addr → inPmem addr = false

/-- The region does not wrap around the end of the address space, and does not have all of `pmem` inside. -/
def MmioCall.Fits (c : MmioCall) : Prop :=
  c.addr.toNat + c.len.toNat ≤ 2 ^ 32 ∧
    ¬ (c.addr.toNat < configMbase.toNat ∧ configMbase.toNat + configMsize.toNat < c.addr.toNat + c.len.toNat)

theorem mapInside_iff {m : IOMap} {addr : Word} :
    mapInside m addr = true ↔ m.low.toNat ≤ addr.toNat ∧ addr.toNat ≤ m.high.toNat := by
  unfold mapInside
  rw [decide_eq_true_eq, ge_iff_le, BitVec.le_def, BitVec.le_def]

/-- The end of a region that does not wrap. -/
theorem MmioCall.high_toNat (hlen : c.len ≠ 0) (h : c.addr.toNat + c.len.toNat ≤ 2 ^ 32) :
    c.map.high.toNat = c.addr.toNat + c.len.toNat - 1 := by
  have hpos : c.len.toNat ≠ 0 := fun h0 => hlen (BitVec.eq_of_toNat_eq h0)
  have ha := c.addr.isLt
  show (c.addr + c.len - 1).toNat = _
  rw [BitVec.toNat_sub, BitVec.toNat_add, show (1 : Word).toNat = 1 from rfl]
  omega

/-- A region that wraps is empty. -/
theorem MmioCall.nonempty_iff (hlen : c.len ≠ 0) :
    c.map.low ≤ c.map.high ↔ c.addr.toNat + c.len.toNat ≤ 2 ^ 32 := by
  have hpos : c.len.toNat ≠ 0 := fun h0 => hlen (BitVec.eq_of_toNat_eq h0)
  have ha := c.addr.isLt
  have hl := c.len.isLt
  show c.addr ≤ c.addr + c.len - 1 ↔ _
  rw [BitVec.le_def, BitVec.toNat_sub, BitVec.toNat_add, show (1 : Word).toNat = 1 from rfl]
  omega

/-- A region whose ends are not in `pmem` is disjoint from it unless it has all of it inside. -/
theorem disjoint_pmem_iff {m : IOMap} (hle : m.low ≤ m.high) (hl : inPmem m.low = false) (hh : inPmem m.high = false) :
    (∀ addr, mapInside m addr → inPmem addr = false) ↔
      ¬ (m.low.toNat < configMbase.toNat ∧ configMbase.toNat + configMsize.toNat ≤ m.high.toNat) := by
  rw [BitVec.le_def] at hle
  rw [← Bool.not_eq_true, inPmem_iff] at hl hh
  simp only [mapInside_iff, ← Bool.not_eq_true, inPmem_iff]
  constructor
  · rintro hdisj ⟨hlow, hhigh⟩
    exact hdisj configMbase ⟨hlow.le, by omega⟩ ⟨le_rfl, by rw [configMsize_toNat]; omega⟩
  · rintro hnot addr ⟨hla, hha⟩ ⟨hb, hs⟩
    apply hnot
    omega

theorem separate_iff (hc : Checked maps) : Separate maps ↔ ∀ m ∈ maps, m.low ≤ m.high ∧
    ¬ (m.low.toNat < configMbase.toNat ∧ configMbase.toNat + configMsize.toNat ≤ m.high.toNat) := by
  constructor
  · intro hs m hm
    have hle := hs.nonempty m hm
    exact ⟨hle, (disjoint_pmem_iff hle (hc.ends m hm).1 (hc.ends m hm).2).mp (hs.pmem m hm)⟩
  · intro h
    refine ⟨fun m hm => (h m hm).1, ?_, fun m hm => ?_⟩
    · refine hc.apart.imp_of_mem fun {m m'} hm hm' hapart addr => ?_
      rw [mapInside_iff, mapInside_iff]
      intro hboth
      have hcommon := (not_disjoint_iff (BitVec.le_def.mp (h m hm).1) (BitVec.le_def.mp (h m' hm').1)).mp ⟨_, hboth⟩
      rw [BitVec.le_def, BitVec.le_def] at hapart
      exact hapart hcommon.symm
    · exact (disjoint_pmem_iff (h m hm).1 (hc.ends m hm).1 (hc.ends m hm).2).mpr (h m hm).2

/-! ## Dispatch -/

/-- `fetch_mmio_map`. -/
def fetchMap (maps : List IOMap) (addr : Word) : Option IOMap := (findMapidByAddr maps addr).bind (maps[·]?)

theorem fetchMap_eq_find? (maps : List IOMap) (addr : Word) : fetchMap maps addr = maps.find? (mapInside · addr) :=
  List.find?_eq_bind_findIdx?_getElem?.symm

/-- At most one of `pmem` and the maps accepts an address. -/
def AcceptedOnce (maps : List IOMap) : Prop :=
  ∀ addr, (inPmem addr → ∀ m ∈ maps, ¬ mapInside m addr) ∧
    ∀ i j (hi : i < maps.length) (hj : j < maps.length), mapInside maps[i] addr → mapInside maps[j] addr → i = j

/-- The map that is found does not depend on the order of the calls. -/
def OrderFree (calls : List MmioCall) (maps : List IOMap) : Prop :=
  ∀ calls' maps', calls'.Perm calls → addMmioMaps calls' = .ok maps' → ∀ addr, fetchMap maps' addr = fetchMap maps addr

theorem Separate.acceptedOnce (h : Separate maps) : AcceptedOnce maps := by
  intro addr
  refine ⟨fun hp m hm hin => ?_, fun i j hi hj hmi hmj => ?_⟩
  · rw [h.pmem m hm addr hin] at hp
    cases hp
  · have hpair := List.pairwise_iff_getElem.mp h.disjoint
    rcases Nat.lt_trichotomy i j with hij | hij | hij
    · exact (hpair i j hi hj hij addr ⟨hmi, hmj⟩).elim
    · exact hij
    · exact (hpair j i hj hi hij addr ⟨hmj, hmi⟩).elim

theorem Separate.orderFree (h : Separate maps) (hok : addMmioMaps calls = .ok maps) : OrderFree calls maps := by
  intro calls' maps' hperm hok' addr
  have hmaps : maps'.Perm maps := by
    rw [(addMmioMaps_ok hok').2, (addMmioMaps_ok hok).2]
    exact hperm.map _
  rw [fetchMap_eq_find?, fetchMap_eq_find?]
  exact (find?_perm h.disjoint hmaps.symm addr).symm

/-- **The registered regions are separate**, and the dispatch on addresses does not depend on the order of the
registrations, exactly when no region wraps around or has all of `pmem` inside. -/
theorem addMmioMaps_separate_iff (hlen : ∀ c ∈ calls, c.len ≠ 0) (hok : addMmioMaps calls = .ok maps) :
    Separate maps ∧ AcceptedOnce maps ∧ OrderFree calls maps ↔ ∀ c ∈ calls, c.Fits := by
  obtain ⟨hc, heq⟩ := addMmioMaps_ok hok
  have hfits : Separate maps ↔ ∀ c ∈ calls, c.Fits := by
    rw [separate_iff hc, heq, List.forall_mem_map]
    refine forall₂_congr fun c hmem => ?_
    rw [MmioCall.nonempty_iff (hlen c hmem), MmioCall.Fits]
    refine and_congr_right fun hle => ?_
    have hpos : c.len.toNat ≠ 0 := fun h0 => hlen c hmem (BitVec.eq_of_toNat_eq h0)
    rw [MmioCall.high_toNat (hlen c hmem) hle]
    refine not_congr (and_congr_right fun _ => ?_)
    omega
  rw [← hfits]
  exact ⟨fun h => h.1, fun h => ⟨h, h.acceptedOnce, h.orderFree hok⟩⟩

/-- The timer and the serial port. -/
theorem addMmioMaps_separate_iff_devices :
    Separate [⟨0xa0000048, 0xa000004f, 0, none⟩, ⟨0xa00003f8, 0xa00003ff, 8, none⟩] := by
  have hok : addMmioMaps [⟨0xa0000048, 0, 8, none⟩, ⟨0xa00003f8, 8, 8, none⟩] = .ok
      [⟨0xa0000048, 0xa000004f, 0, none⟩, ⟨0xa00003f8, 0xa00003ff, 8, none⟩] := rfl
  exact ((addMmioMaps_separate_iff (by simp) hok).mpr (by simp [MmioCall.Fits, configMbase, configMsize])).1

/-- A region of 512 MiB from `0x70000000` on is registered, with all of `pmem` inside. -/
theorem addMmioMaps_not_separate : ∃ maps, addMmioMaps [⟨0x70000000, 0, 0x20000000, none⟩] = .ok maps ∧
    ¬ Separate maps := by
  refine ⟨_, rfl, fun h => ?_⟩
  have hp := h.pmem _ List.mem_cons_self configMbase rfl
  cases hp

end Nemu.Device
