import Mathlib
import Rv32i.Lib.Radix

/-!
# AM on x86-qemu: address spaces

`src/x86/qemu/vme.c`, for the page tables of 32 bits (two levels) and of 64 bits (four levels).  An address space is a
tree of tables: `protect` makes its root, which has the entries of the kernel, `map` adds the tables that a page needs,
and `unprotect` gives the tables back.

* `vmeInit32`, `vmeInit64`, `protect`, `map`, `unprotect` — the code; a table is the page at an address, or the `ptr` of a space;
* `reach_of_ptwalk`, `teardown_eq` — the walk and the teardown of a tree;
* `protect_tree`, `Tree.map`, `Tree.unprotect` — what the code does to the tree of a space.
-/

namespace Am.Qemu

open Radix (put clear)

/-! ## The configuration -/

section Config

variable {w : ℕ}

def pteP : BitVec w := 0x001#w
def pteW : BitVec w := 0x002#w
def pteU : BitVec w := 0x004#w
def ptePS : BitVec w := 0x080#w

def mmapNone : BitVec 32 := 0
def mmapWrite : BitVec 32 := 2

/-- `mmu.pgsize` -/
def pgsize : ℕ := 4096

structure PtInfo (w : ℕ) where
  mask : BitVec w
  shift : ℕ
  bits : ℕ

structure VmArea (w : ℕ) where
  start : BitVec w
  stop : BitVec w
  kernel : Bool

/-- `mmu` and `vm_areas`: the last row of `pgtables` has the level `ptlevels`, the first area is that of the user. -/
structure Config (w : ℕ) where
  pgtables : List (PtInfo w)
  uvmArea : VmArea w
  kernelAreas : List (VmArea w)

def i386 : Config 32 where
  pgtables := [⟨0x00000000, 0, 0⟩, ⟨0xffc00000, 22, 10⟩, ⟨0x003ff000, 12, 10⟩]
  uvmArea := ⟨0x40000000, 0x80000000, false⟩
  kernelAreas := [⟨0x00000000, 0x40000000, true⟩, ⟨0xfd000000, 0x00000000, true⟩]

def x86_64 : Config 64 where
  pgtables := [⟨0x000000000000, 0, 0⟩, ⟨0xff8000000000, 39, 9⟩, ⟨0x007fc0000000, 30, 9⟩, ⟨0x00003fe00000, 21, 9⟩,
    ⟨0x0000001ff000, 12, 9⟩]
  uvmArea := ⟨0x100000000000, 0x108000000000, false⟩
  kernelAreas := [⟨0x000000000000, 0x008000000000, true⟩]

def indexof (addr : BitVec w) (info : PtInfo w) : ℕ := ((addr &&& info.mask) >>> info.shift).toNat

def baseof (addr : BitVec w) : BitVec w := addr &&& ~~~ BitVec.ofNat w (pgsize - 1)

/-- `IN_RANGE(va, uvm_area)` -/
def inRange (va : BitVec w) (area : VmArea w) : Bool := area.start ≤ va ∧ va < area.stop

/-- `for (cur = start; cur != stop; cur += step)`, with fuel for the steps. -/
def steps (stop step : BitVec w) : ℕ → BitVec w → List (BitVec w)
  | 0, _ => []
  | fuel + 1, cur => if cur = stop then [] else cur :: steps stop step fuel (cur + step)

/-- The addresses of the areas of the kernel, by steps. -/
def Config.kernelSteps (c : Config w) (step : BitVec w) : List (BitVec w) :=
  c.kernelAreas.flatMap fun vma => steps vma.stop step (2 ^ w) vma.start

end Config

/-! ## The code -/

/-- The number of an `AddrSpace`. -/
abbrev Space := ℕ

/-- Where entries are. -/
inductive Table (w : ℕ)
  /-- The `ptr` of the `AddrSpace` that `vme_init` has on its stack. -/
  | boot
  /-- The `ptr` of an address space. -/
  | ptr (as : Space)
  /-- A page. -/
  | page (base : BitVec w)
  deriving DecidableEq

theorem Table.boot_ne {w : ℕ} {base : BitVec w} : Table.boot ≠ .page base := by rintro ⟨⟩

theorem Table.ptr_ne {w : ℕ} {as : Space} {base : BitVec w} : Table.ptr as ≠ .page base := by rintro ⟨⟩

abbrev Mem (w : ℕ) := Table w → ℕ → BitVec w

inductive Panic
  | cannotAllocate
  | nonBootstrapCpu
  | invalidAddress
  | nonPageBoundary
  | unmappingNonMapped
  | remappingMapped
  /-- `bug()` -/
  | bug
  deriving DecidableEq

abbrev Exec := Except Panic

section Code

variable {w : ℕ}

/-- The list is what `pgalloc` returns, call by call; after that it returns `NULL`. -/
def pgallocz (mem : Mem w) : List (BitVec w) → Exec (BitVec w × Mem w × List (BitVec w))
  | [] => .error .cannotAllocate
  | base :: supply =>
    if base = 0 then .error .cannotAllocate else .ok (base, clear 0 mem (.page base), supply)

/-- The entry of an address, by the rows of `pgtables`. -/
def ptwalk (addr flags : BitVec w) :
    List (PtInfo w) → Table w → Mem w → List (BitVec w) → Exec ((Table w × ℕ) × Mem w × List (BitVec w))
  | [], _, _, _ => .error .bug
  | info :: infos, pt, mem, supply =>
    let index := indexof addr info
    if infos.isEmpty then .ok ((pt, index), mem, supply)
    else if mem pt index &&& pteP = 0 then do
      let (nextPage, mem, supply) ← pgallocz mem supply
      ptwalk addr flags infos (.page nextPage) (put mem pt index (nextPage ||| pteP ||| flags)) supply
    else
      ptwalk addr flags infos (.page (baseof (mem pt index))) mem supply

/-- What is at a page after `pgfree`. -/
abbrev Scrub (w : ℕ) := BitVec w → ℕ → BitVec w

/-- `pgfree(pt)`, with the calls so far. -/
def pgfree (scrub : Scrub w) : Table w → Mem w × List (Table w) → Mem w × List (Table w)
  | .page base, (mem, freed) => (Function.update mem (.page base) (scrub base), freed ++ [.page base])
  | pt, (mem, freed) => (mem, freed ++ [pt])

/-- By the rows of `pgtables` from `level` on. -/
def teardown (scrub : Scrub w) :
    List (PtInfo w) → ℕ → Table w → Mem w × List (Table w) → Mem w × List (Table w)
  | [], _, _, s => s
  | info :: infos, level, pt, s =>
    let s := (List.range (2 ^ info.bits)).foldl (fun s index =>
      if s.1 pt index &&& pteP ≠ 0 ∧ s.1 pt index &&& pteU ≠ 0 then
        teardown scrub infos (level + 1) (.page (baseof (s.1 pt index))) s
      else s) s
    if level ≥ 1 then pgfree scrub pt s else s

structure Vm (w : ℕ) where
  mem : Mem w
  kpt : Table w

variable (c : Config w)

def protect (as : Space) (s : Vm w) (supply : List (BitVec w)) : Exec (Vm w × List (BitVec w)) := do
  let (upt, mem, supply) ← pgallocz s.mem supply
  -- level-1 page table
  let info := c.pgtables.getD 1 ⟨0, 0, 0⟩
  let mem := (c.kernelSteps (1#w <<< info.shift)).foldl (fun mem cur =>
    let index := indexof cur info
    put mem (.page upt) index (mem s.kpt index)) mem
  return ({ s with mem := put mem (.ptr as) 0 (upt ||| pteP ||| pteU) }, supply)

def unprotect (scrub : Scrub w) (as : Space) (s : Vm w) : Vm w × List (Table w) :=
  let (mem, freed) := teardown scrub c.pgtables 0 (.ptr as) (s.mem, [])
  ({ s with mem := mem }, freed)

def map (as : Space) (va pa : BitVec w) (prot : BitVec 32) (s : Vm w) (supply : List (BitVec w)) :
    Exec (Vm w × List (BitVec w)) := do
  if ¬ inRange va c.uvmArea then throw .invalidAddress
  if va ≠ baseof va ∨ pa ≠ baseof pa then throw .nonPageBoundary
  let ((pt, index), mem, supply) ← ptwalk va (pteW ||| pteU) c.pgtables (.ptr as) s.mem supply
  let mem ← if prot = mmapNone then
      if mem pt index &&& pteP = 0 then .error .unmappingNonMapped
      else pure (put mem pt index 0)
    else
      if mem pt index &&& pteP ≠ 0 then .error .remappingMapped
      else pure (put mem pt index (pa ||| pteP ||| pteU ||| if prot &&& mmapWrite ≠ 0 then pteW else 0))
  let (_, mem, supply) ← ptwalk va (pteW ||| pteU) c.pgtables (.ptr as) mem supply
  return ({ s with mem := mem }, supply)

end Code

/-! ## The tables of the kernel -/

def pml4Addr : BitVec 64 := 0x1000
def pdptAddr : BitVec 64 := 0x2000

/-- A store of the lower half of an entry. -/
def movl (v : BitVec 32) (e : BitVec 64) : BitVec 64 := e &&& 0xffffffff00000000 ||| v.setWidth 64

/-- `start64.S`: the kernel has the first 512 GiB, in pages of 1 GiB. -/
def start64 (mem : Mem 64) : Mem 64 :=
  let eax : BitVec 32 := (pdptAddr ||| pteP ||| pteW).setWidth 32
  if (mem (.page pml4Addr) 0).setWidth 32 = eax then mem
  else
    let mem := put mem (.page pml4Addr) 0 (movl eax (mem (.page pml4Addr) 0))
    (List.range 512).foldl (fun mem ecx =>
      let low : BitVec 32 := BitVec.ofNat 32 ecx <<< 30 ||| (pteP ||| pteW ||| ptePS)
      let high : BitVec 32 := BitVec.ofNat 32 ecx >>> 2
      put mem (.page pdptAddr) ecx (high ++ low)) mem

/-- The loop of `vme_init` over the pages of the kernel. -/
def mapKernel : List (BitVec 32) → Mem 32 → List (BitVec 32) → Exec (Mem 32 × List (BitVec 32))
  | [], mem, supply => .ok (mem, supply)
  | cur :: rest, mem, supply => do
    let ((pt, index), mem, supply) ← ptwalk cur pteW i386.pgtables .boot mem supply
    mapKernel rest (put mem pt index (cur ||| pteP ||| pteW)) supply

def vmeInit32 (cpu : ℕ) (mem : Mem 32) (supply : List (BitVec 32)) : Exec (Vm 32 × List (BitVec 32)) := do
  if cpu ≠ 0 then throw .nonBootstrapCpu
  let (mem, supply) ← mapKernel (i386.kernelSteps (BitVec.ofNat 32 pgsize)) (put mem .boot 0 0) supply
  return (⟨mem, .page (baseof (mem .boot 0))⟩, supply)

def vmeInit64 (cpu : ℕ) (mem : Mem 64) : Exec (Vm 64) := do
  if cpu ≠ 0 then throw .nonBootstrapCpu
  return ⟨mem, .page pml4Addr⟩

/-! ## Bits of entries -/

section Bits

variable {w : ℕ}

/-- The tables that `teardown` descends to. -/
def link (e : BitVec w) : Option (Table w) :=
  if e &&& pteP ≠ 0 ∧ e &&& pteU ≠ 0 then some (.page (baseof e)) else none

/-- Entries that are present are the user's. -/
def UserOk (e : BitVec w) : Prop := e &&& pteP ≠ 0 → e &&& pteU ≠ 0

/-- Page addresses. -/
def Aligned (p : BitVec w) : Prop := baseof p = p

theorem and_twoPow_ne {e : BitVec w} {i : ℕ} (hi : i < w) : e &&& BitVec.twoPow w i ≠ 0 ↔ e.getLsbD i = true := by
  rw [BitVec.and_twoPow]
  cases h : e.getLsbD i with
  | false => simp
  | true =>
    have hne : BitVec.twoPow w i ≠ 0#w := by
      intro h0
      have hbit := congrArg (fun x : BitVec w => x.getLsbD i) h0
      simp [hi] at hbit
    simpa using hne

theorem pteP_eq : (pteP : BitVec w) = BitVec.twoPow w 0 := BitVec.eq_of_toNat_eq (by simp [pteP])
theorem pteW_eq : (pteW : BitVec w) = BitVec.twoPow w 1 := BitVec.eq_of_toNat_eq (by simp [pteW])
theorem pteU_eq : (pteU : BitVec w) = BitVec.twoPow w 2 := BitVec.eq_of_toNat_eq (by simp [pteU])

theorem present_iff (hw : 12 < w) {e : BitVec w} : e &&& pteP ≠ 0 ↔ e.getLsbD 0 = true := by
  rw [pteP_eq]
  exact and_twoPow_ne (by omega)

theorem writable_iff (hw : 12 < w) {e : BitVec w} : e &&& pteW ≠ 0 ↔ e.getLsbD 1 = true := by
  rw [pteW_eq]
  exact and_twoPow_ne (by omega)

theorem user_iff (hw : 12 < w) {e : BitVec w} : e &&& pteU ≠ 0 ↔ e.getLsbD 2 = true := by
  rw [pteU_eq]
  exact and_twoPow_ne (by omega)

theorem pteP_bit {i : ℕ} (hw : 12 < w) : (pteP : BitVec w).getLsbD i = decide (i = 0) := by
  rw [pteP_eq, BitVec.getLsbD_twoPow]
  simp [show 0 < w by omega, eq_comm]

theorem pteW_bit {i : ℕ} (hw : 12 < w) : (pteW : BitVec w).getLsbD i = decide (i = 1) := by
  rw [pteW_eq, BitVec.getLsbD_twoPow]
  simp [show 1 < w by omega, eq_comm]

theorem pteU_bit {i : ℕ} (hw : 12 < w) : (pteU : BitVec w).getLsbD i = decide (i = 2) := by
  rw [pteU_eq, BitVec.getLsbD_twoPow]
  simp [show 2 < w by omega, eq_comm]

theorem baseof_bit {e : BitVec w} {i : ℕ} : (baseof e).getLsbD i = (e.getLsbD i && decide (12 ≤ i)) := by
  rw [baseof, BitVec.getLsbD_and, BitVec.getLsbD_not, BitVec.getLsbD_ofNat, pgsize,
    show 4096 - 1 = 2 ^ 12 - 1 from rfl, Nat.testBit_two_pow_sub_one]
  by_cases hi : i < w
  · by_cases h12 : i < 12 <;> simp [hi, h12, Nat.not_le.mpr, Nat.not_lt.mp]
  · simp [BitVec.getLsbD_of_ge e i (by omega)]

theorem baseof_or {a b : BitVec w} : baseof (a ||| b) = baseof a ||| baseof b := BitVec.and_or_distrib_right

theorem Aligned.bit {p : BitVec w} (h : Aligned p) {i : ℕ} (hi : i < 12) : p.getLsbD i = false := by
  rw [← h, baseof_bit]
  simp [hi]

/-- The flags are below the address. -/
def Flags (f : BitVec w) : Prop := baseof f = 0

theorem Flags.or {a b : BitVec w} (ha : Flags a) (hb : Flags b) : Flags (a ||| b) := by
  rw [Flags, baseof_or, ha, hb]
  simp

theorem flags_twoPow {i : ℕ} (hi : i < 12) : Flags (BitVec.twoPow w i) := by
  refine BitVec.eq_of_getLsbD_eq fun j _ => ?_
  rw [baseof_bit, BitVec.getLsbD_twoPow]
  by_cases hij : i = j
  · simp [show ¬ 12 ≤ j by omega]
  · simp [hij]

theorem flags_pteP : Flags (pteP : BitVec w) := pteP_eq ▸ flags_twoPow (by decide)
theorem flags_pteW : Flags (pteW : BitVec w) := pteW_eq ▸ flags_twoPow (by decide)
theorem flags_pteU : Flags (pteU : BitVec w) := pteU_eq ▸ flags_twoPow (by decide)

theorem baseof_flags {p f : BitVec w} (hp : Aligned p) (hf : Flags f) : baseof (p ||| f) = p := by
  rw [baseof_or, hp, hf]
  exact BitVec.or_zero

/-! ### Links -/

theorem link_zero : link (0 : BitVec w) = none := by
  rw [link, if_neg]
  rintro ⟨h, -⟩
  simp at h

theorem link_of_user {e : BitVec w} (h : UserOk e) :
    link e = if e &&& pteP = 0 then none else some (.page (baseof e)) := by
  rw [link]
  by_cases hp : e &&& pteP = 0
  · rw [if_pos hp, if_neg fun h => h.1 hp]
  · rw [if_neg hp, if_pos ⟨hp, h hp⟩]

theorem link_of_kernel {e : BitVec w} (h : e &&& pteU = 0) : link e = none := if_neg fun hl => hl.2 h

/-- The entry of a table, as `ptwalk` and `protect` make it. -/
theorem link_made (hw : 12 < w) {p f : BitVec w} (hp : Aligned p) (hf : Flags f) (hu : f.getLsbD 2 = true) :
    link (p ||| pteP ||| f) = some (.page p) := by
  rw [link, if_pos, BitVec.or_assoc, baseof_flags hp (flags_pteP.or hf)]
  rw [present_iff hw, user_iff hw]
  simp [pteP_bit hw, hu]

theorem userOk_zero : UserOk (0 : BitVec w) := fun h => absurd (by simp) h

theorem userOk_of_user (hw : 12 < w) {e : BitVec w} (h : e.getLsbD 2 = true) : UserOk e := fun _ => (user_iff hw).mpr h

end Bits

/-! ## The steps of a loop, and indices -/

section Steps

variable {w : ℕ}

/-- **A loop whose length is a multiple of its step ends.** -/
theorem steps_eq {stop step start : BitVec w} {k n : ℕ} (hstep : 0 < step.toNat)
    (hk : (stop - start).toNat = k * step.toNat) (hn : k ≤ n) :
    steps stop step n start = (List.range k).map fun i => start + BitVec.ofNat w (i * step.toNat) := by
  induction k generalizing start n with
  | zero =>
    have hz : stop - start = 0#w := BitVec.eq_of_toNat_eq (by simpa using hk)
    have heq : start = stop := by rw [← BitVec.sub_add_cancel stop start, hz, BitVec.zero_add]
    cases n with
    | zero => rfl
    | succ n => rw [steps, if_pos heq, List.range_zero, List.map_nil]
  | succ k ih =>
    obtain ⟨n, rfl⟩ : ∃ n', n = n' + 1 := ⟨n - 1, by omega⟩
    have hne : start ≠ stop := by
      rintro rfl
      rw [BitVec.sub_self] at hk
      have : 0 < (k + 1) * step.toNat := Nat.mul_pos (by omega) hstep
      simp only [BitVec.toNat_zero] at hk
      omega
    have hk' : (stop - (start + step)).toNat = k * step.toNat := by
      rw [show stop - (start + step) = stop - start - step by grind, BitVec.toNat_sub_of_le, hk, Nat.succ_mul,
        Nat.add_sub_cancel]
      rw [BitVec.le_def, hk, Nat.succ_mul]
      exact Nat.le_add_left _ _
    rw [steps, if_neg hne, ih hk' (by omega), List.range_succ_eq_map, List.map_cons, List.map_map]
    refine congrArg₂ List.cons (by simp) (List.map_congr_left fun i _ => ?_)
    rw [Function.comp_apply, Nat.succ_mul, Nat.add_comm (i * _), BitVec.ofNat_add, BitVec.ofNat_toNat,
      ← BitVec.add_assoc, BitVec.setWidth_eq]

/-- A row whose mask covers its bits. -/
def PtInfo.Covers (info : PtInfo w) : Prop :=
  info.bits + info.shift ≤ w ∧ info.mask.toNat = (2 ^ info.bits - 1) * 2 ^ info.shift

theorem indexof_eq {info : PtInfo w} {addr : BitVec w} (h : info.Covers) :
    indexof addr info = addr.toNat / 2 ^ info.shift % 2 ^ info.bits := by
  obtain ⟨_, hmask⟩ := h
  rw [indexof, BitVec.toNat_ushiftRight, BitVec.toNat_and, hmask]
  refine Nat.eq_of_testBit_eq fun i => ?_
  rw [Nat.testBit_shiftRight, Nat.testBit_and, Nat.testBit_mul_two_pow, Nat.testBit_two_pow_sub_one,
    Nat.testBit_mod_two_pow, Nat.testBit_div_two_pow]
  simp [Nat.add_comm, Bool.and_comm]

end Steps

/-! ## What the configurations have in common -/

section Sound

variable {w : ℕ} (c : Config w)

/-- The level-1 page table. -/
def Config.root : PtInfo w := c.pgtables.getD 1 ⟨0, 0, 0⟩

/-- The rows from level 1 on of the tables with links. -/
def Config.inner : List (PtInfo w) := c.pgtables.tail.dropLast

/-- The row of the leaf tables. -/
def Config.last : PtInfo w := c.pgtables.getLastD ⟨0, 0, 0⟩

/-- The indices of a table. -/
def Config.idx : List ℕ := List.range (2 ^ c.root.bits)

/-- The indices at which a root has the entries of the kernel. -/
def Config.kernelIdx : List ℕ := (c.kernelSteps (1#w <<< c.root.shift)).map fun cur => indexof cur c.root

/-- The links on the way to the entry of an address. -/
def Config.path (va : BitVec w) : List ℕ := c.inner.map (indexof va)

/-- The addresses of an area, which may end with the address space. -/
def inArea (va : BitVec w) (area : VmArea w) : Prop := va - area.start < area.stop - area.start

structure Config.Sound : Prop where
  width : 12 < w
  rows : c.pgtables = ⟨0, 0, 0⟩ :: (c.inner ++ [c.last])
  inner : ∃ infos, c.inner = c.root :: infos
  bits : ∀ info ∈ c.inner ++ [c.last], info.bits = c.root.bits
  covers : ∀ info ∈ c.inner ++ [c.last], info.Covers
  user : ∀ va, inRange va c.uvmArea → indexof va c.root ∉ c.kernelIdx
  kernel : ∀ va, ∀ area ∈ c.kernelAreas, inArea va area → indexof va c.root ∈ c.kernelIdx
  last : c.last.shift = 12
  page : ∀ va va', inRange va c.uvmArea → inRange va' c.uvmArea →
    (c.path va = c.path va' ∧ indexof va c.last = indexof va' c.last ↔ baseof va = baseof va')

theorem inRange_iff {va : BitVec w} {area : VmArea w} :
    inRange va area = true ↔ area.start.toNat ≤ va.toNat ∧ va.toNat < area.stop.toNat := by
  simp only [inRange, decide_eq_true_eq, BitVec.le_def, BitVec.lt_def]

theorem baseof_eq_iff {va va' : BitVec w} :
    baseof va = baseof va' ↔ va.toNat / 2 ^ 12 = va'.toNat / 2 ^ 12 := by
  constructor
  · intro h
    refine Nat.eq_of_testBit_eq fun i => ?_
    have hbit := congrArg (fun e : BitVec w => e.getLsbD (i + 12)) h
    simp only [baseof_bit, Nat.le_add_left, decide_true, Bool.and_true] at hbit
    rw [Nat.testBit_div_two_pow, Nat.testBit_div_two_pow]
    exact hbit
  · intro h
    refine BitVec.eq_of_getLsbD_eq fun i _ => ?_
    rw [baseof_bit, baseof_bit]
    by_cases hi : 12 ≤ i
    · have hbit := congrArg (fun n : ℕ => n.testBit (i - 12)) h
      simp only [Nat.testBit_div_two_pow, Nat.sub_add_cancel hi] at hbit
      rw [BitVec.getLsbD, BitVec.getLsbD, hbit]
    · simp [hi]

/-- The addresses of the areas of the kernel: a gigabyte from the start, and the rest from `0xfd000000` on. -/
theorem i386_kernelSteps :
    i386.kernelSteps (1#32 <<< i386.root.shift) =
      ((List.range 256).map fun i => BitVec.ofNat 32 (i * 2 ^ 22)) ++
      (List.range 12).map fun i => BitVec.ofNat 32 (0xfd000000 + i * 2 ^ 22) := by
  have h₁ := @steps_eq 32 0x40000000 0x400000 0 256 (2 ^ 32) (by decide) (by decide) (by decide)
  have h₂ := @steps_eq 32 0 0x400000 0xfd000000 12 (2 ^ 32) (by decide) (by decide) (by decide)
  rw [Config.kernelSteps, show 1#32 <<< i386.root.shift = 0x400000 from rfl]
  change steps 0x40000000 0x400000 (2 ^ 32) 0 ++ (steps 0 0x400000 (2 ^ 32) 0xfd000000 ++ []) = _
  rw [h₁, h₂, List.append_nil]
  refine congrArg₂ _ (List.map_congr_left fun i _ => ?_) (List.map_congr_left fun i _ => ?_)
  · exact BitVec.zero_add _
  · rw [BitVec.ofNat_add]
    rfl

theorem x86_64_kernelSteps : x86_64.kernelSteps (1#64 <<< x86_64.root.shift) = [0] := by
  have h := @steps_eq 64 0x008000000000 0x008000000000 0 1 (2 ^ 64) (by decide) (by decide) (by decide)
  rw [Config.kernelSteps, show 1#64 <<< x86_64.root.shift = 0x008000000000 from rfl]
  change steps 0x008000000000 0x008000000000 (2 ^ 64) 0 ++ [] = _
  rw [h, List.append_nil]
  rfl

theorem i386_kernelIdx {i : ℕ} : i ∈ i386.kernelIdx ↔ i < 0x100 ∨ 0x3f4 ≤ i ∧ i < 0x400 := by
  have hidx : ∀ n, indexof (BitVec.ofNat 32 n) i386.root = n % 2 ^ 32 / 2 ^ 22 % 2 ^ 10 := by
    intro n
    change indexof (BitVec.ofNat 32 n) ⟨0xffc00000, 22, 10⟩ = _
    rw [indexof_eq ⟨by decide, by decide⟩, BitVec.toNat_ofNat]
  rw [Config.kernelIdx, i386_kernelSteps, List.map_append, List.mem_append, List.map_map, List.map_map]
  constructor
  · rintro (h | h)
    · obtain ⟨k, hk, rfl⟩ := List.mem_map.mp h
      have hk := List.mem_range.mp hk
      rw [Function.comp_apply, hidx]
      exact .inl (by omega)
    · obtain ⟨k, hk, rfl⟩ := List.mem_map.mp h
      have hk := List.mem_range.mp hk
      rw [Function.comp_apply, hidx]
      exact .inr (by omega)
  · rintro (hi | ⟨hlo, hhi⟩)
    · refine .inl (List.mem_map.mpr ⟨i, List.mem_range.mpr hi, ?_⟩)
      rw [Function.comp_apply, hidx]
      omega
    · refine .inr (List.mem_map.mpr ⟨i - 0x3f4, List.mem_range.mpr (by omega), ?_⟩)
      rw [Function.comp_apply, hidx]
      omega

theorem i386_sound : i386.Sound where
  width := by decide
  rows := rfl
  inner := ⟨[], rfl⟩
  bits := by
    rintro info (_ | ⟨_, _ | ⟨_, ⟨⟩⟩⟩) <;> rfl
  covers := by
    rintro info (_ | ⟨_, _ | ⟨_, ⟨⟩⟩⟩) <;> exact ⟨by decide, by decide⟩
  user := by
    intro va hva hmem
    have hroot : i386.root.Covers := ⟨by decide, by decide⟩
    obtain ⟨hlo, hhi⟩ := inRange_iff.mp hva
    have hidx := i386_kernelIdx.mp hmem
    rw [indexof_eq hroot] at hidx
    change 0x40000000 ≤ va.toNat at hlo
    change va.toNat < 0x80000000 at hhi
    change va.toNat / 2 ^ 22 % 2 ^ 10 < _ ∨ _ ≤ va.toNat / 2 ^ 22 % 2 ^ 10 ∧ _ at hidx
    omega
  kernel := by
    have hroot : i386.root.Covers := ⟨by decide, by decide⟩
    rintro va area (_ | ⟨_, _ | ⟨_, ⟨⟩⟩⟩) hva
    · rw [i386_kernelIdx, indexof_eq hroot]
      rw [inArea, BitVec.lt_def, BitVec.toNat_sub] at hva
      change (2 ^ 32 - 0 + va.toNat) % 2 ^ 32 < 0x40000000 at hva
      change va.toNat / 2 ^ 22 % 2 ^ 10 < _ ∨ _ ≤ va.toNat / 2 ^ 22 % 2 ^ 10 ∧ va.toNat / 2 ^ 22 % 2 ^ 10 < _
      omega
    · rw [i386_kernelIdx, indexof_eq hroot]
      rw [inArea, BitVec.lt_def, BitVec.toNat_sub] at hva
      change (2 ^ 32 - 0xfd000000 + va.toNat) % 2 ^ 32 < 0x3000000 at hva
      change va.toNat / 2 ^ 22 % 2 ^ 10 < _ ∨ _ ≤ va.toNat / 2 ^ 22 % 2 ^ 10 ∧ va.toNat / 2 ^ 22 % 2 ^ 10 < _
      omega
  last := rfl
  page := by
    intro va va' hva hva'
    have hpd : ∀ va : BitVec 32, indexof va ⟨0xffc00000, 22, 10⟩ = va.toNat / 2 ^ 22 % 2 ^ 10 :=
      fun va => indexof_eq ⟨by decide, by decide⟩
    have hpt : ∀ va : BitVec 32, indexof va ⟨0x003ff000, 12, 10⟩ = va.toNat / 2 ^ 12 % 2 ^ 10 :=
      fun va => indexof_eq ⟨by decide, by decide⟩
    obtain ⟨-, hhi⟩ := inRange_iff.mp hva
    obtain ⟨-, hhi'⟩ := inRange_iff.mp hva'
    change va.toNat < 0x80000000 at hhi
    change va'.toNat < 0x80000000 at hhi'
    change [indexof va ⟨0xffc00000, 22, 10⟩] = [indexof va' ⟨0xffc00000, 22, 10⟩] ∧
      indexof va ⟨0x003ff000, 12, 10⟩ = indexof va' ⟨0x003ff000, 12, 10⟩ ↔ _
    simp only [baseof_eq_iff, List.cons.injEq, and_true, hpd, hpt]
    omega

theorem x86_64_sound : x86_64.Sound where
  width := by decide
  rows := rfl
  inner := ⟨_, rfl⟩
  bits := by
    rintro info (_ | ⟨_, _ | ⟨_, _ | ⟨_, _ | ⟨_, ⟨⟩⟩⟩⟩⟩) <;> rfl
  covers := by
    rintro info (_ | ⟨_, _ | ⟨_, _ | ⟨_, _ | ⟨_, ⟨⟩⟩⟩⟩⟩) <;> exact ⟨by decide, by decide⟩
  user := by
    intro va hva hmem
    have hroot : x86_64.root.Covers := ⟨by decide, by decide⟩
    obtain ⟨hlo, hhi⟩ := inRange_iff.mp hva
    rw [Config.kernelIdx, x86_64_kernelSteps, List.map_singleton, List.mem_singleton, indexof_eq hroot] at hmem
    change 0x100000000000 ≤ va.toNat at hlo
    change va.toNat < 0x108000000000 at hhi
    change va.toNat / 2 ^ 39 % 2 ^ 9 = 0 at hmem
    omega
  kernel := by
    have hroot : x86_64.root.Covers := ⟨by decide, by decide⟩
    rintro va area (_ | ⟨_, ⟨⟩⟩) hva
    rw [Config.kernelIdx, x86_64_kernelSteps, List.map_singleton, List.mem_singleton, indexof_eq hroot]
    rw [inArea, BitVec.lt_def, BitVec.toNat_sub] at hva
    change (2 ^ 64 - 0 + va.toNat) % 2 ^ 64 < 0x008000000000 at hva
    change va.toNat / 2 ^ 39 % 2 ^ 9 = 0
    omega
  last := rfl
  page := by
    intro va va' hva hva'
    obtain ⟨-, hhi⟩ := inRange_iff.mp hva
    obtain ⟨-, hhi'⟩ := inRange_iff.mp hva'
    change va.toNat < 0x108000000000 at hhi
    change va'.toNat < 0x108000000000 at hhi'
    have hpml4 : ∀ va : BitVec 64, indexof va ⟨0xff8000000000, 39, 9⟩ = va.toNat / 2 ^ 39 % 2 ^ 9 :=
      fun va => indexof_eq ⟨by decide, by decide⟩
    have hpdpt : ∀ va : BitVec 64, indexof va ⟨0x007fc0000000, 30, 9⟩ = va.toNat / 2 ^ 30 % 2 ^ 9 :=
      fun va => indexof_eq ⟨by decide, by decide⟩
    have hpd : ∀ va : BitVec 64, indexof va ⟨0x00003fe00000, 21, 9⟩ = va.toNat / 2 ^ 21 % 2 ^ 9 :=
      fun va => indexof_eq ⟨by decide, by decide⟩
    have hpt : ∀ va : BitVec 64, indexof va ⟨0x0000001ff000, 12, 9⟩ = va.toNat / 2 ^ 12 % 2 ^ 9 :=
      fun va => indexof_eq ⟨by decide, by decide⟩
    change [indexof va ⟨0xff8000000000, 39, 9⟩, indexof va ⟨0x007fc0000000, 30, 9⟩,
        indexof va ⟨0x00003fe00000, 21, 9⟩] = [indexof va' ⟨0xff8000000000, 39, 9⟩,
        indexof va' ⟨0x007fc0000000, 30, 9⟩, indexof va' ⟨0x00003fe00000, 21, 9⟩] ∧
      indexof va ⟨0x0000001ff000, 12, 9⟩ = indexof va' ⟨0x0000001ff000, 12, 9⟩ ↔ _
    simp only [baseof_eq_iff, List.cons.injEq, and_true, hpml4, hpdpt, hpd, hpt]
    omega

end Sound

/-! ## The walk -/

section Walk

variable {w : ℕ} {addr flags : BitVec w} {info last : PtInfo w} {infos : List (PtInfo w)} {pt leaf : Table w}
  {index : ℕ} {mem mem' : Mem w} {supply rest : List (BitVec w)}

/-- The entry by which `ptwalk` links a table. -/
def made (flags : BitVec w) : Table w → BitVec w
  | .page base => base ||| pteP ||| flags
  | _ => 0

theorem ptwalk_last : ptwalk addr flags [info] pt mem supply = .ok ((pt, indexof addr info), mem, supply) := rfl

theorem ptwalk_present (hinfos : infos ≠ []) (h : mem pt (indexof addr info) &&& pteP ≠ 0) :
    ptwalk addr flags (info :: infos) pt mem supply =
      ptwalk addr flags infos (.page (baseof (mem pt (indexof addr info)))) mem supply := by
  rw [ptwalk, if_neg (by simpa using hinfos), if_neg h]

theorem pgallocz_ok {t : BitVec w × Mem w × List (BitVec w)} (h : pgallocz mem supply = .ok t) :
    supply = t.1 :: t.2.2 ∧ t.2.1 = clear 0 mem (.page t.1) := by
  obtain _ | ⟨p, supply⟩ := supply
  · cases h
  rw [pgallocz] at h
  by_cases hp : p = 0
  · rw [if_pos hp] at h
    cases h
  · rw [if_neg hp] at h
    cases h
    exact ⟨rfl, rfl⟩

theorem ptwalk_missing (hinfos : infos ≠ []) (hp : mem pt (indexof addr info) &&& pteP = 0)
    {s : (Table w × ℕ) × Mem w × List (BitVec w)} (h : ptwalk addr flags (info :: infos) pt mem supply = .ok s) :
    ∃ base supply', supply = base :: supply' ∧ ptwalk addr flags infos (.page base)
      (put (clear 0 mem (.page base)) pt (indexof addr info) (made flags (.page base))) supply' = .ok s := by
  rw [ptwalk, if_neg (by simpa using hinfos), if_pos hp] at h
  cases halloc : pgallocz mem supply with
  | error e =>
    rw [halloc] at h
    cases h
  | ok t =>
    obtain ⟨hsupply, hmem⟩ := pgallocz_ok halloc
    rw [halloc] at h
    refine ⟨t.1, t.2.2, hsupply, ?_⟩
    rw [← hmem]
    exact h

/-- **`ptwalk` is a walk along a path of links**, where the entries that are present are the user's. -/
theorem reach_of_ptwalk (idx : List ℕ) (hidx : ∀ info ∈ infos, indexof addr info ∈ idx) (hsupply : supply.Nodup)
    (hfresh : ∀ p ∈ supply, .page p ∉ Radix.tables link idx mem infos.length pt)
    (halong : Radix.Along link UserOk mem (infos.map (indexof addr)) pt)
    (h : ptwalk addr flags (infos ++ [last]) pt mem supply = .ok ((leaf, index), mem', rest)) :
    index = indexof addr last ∧
      Radix.reach link (made flags) 0 (infos.map (indexof addr)) pt mem (supply.map .page) =
        some (leaf, mem', rest.map .page) := by
  induction infos generalizing pt mem supply with
  | nil =>
    rw [List.nil_append, ptwalk_last] at h
    cases h
    exact ⟨rfl, rfl⟩
  | cons info infos ih =>
    obtain ⟨hi, hidx⟩ := List.forall_mem_cons.mp hidx
    obtain ⟨huser, halong⟩ := halong
    have hne : infos ++ [last] ≠ [] := by simp
    rw [List.cons_append] at h
    rw [List.map_cons]
    by_cases hp : mem pt (indexof addr info) &&& pteP = 0
    · have hlink : link (mem pt (indexof addr info)) = none := by rw [link_of_user huser, if_pos hp]
      obtain ⟨base, supply, rfl, hwalk⟩ := ptwalk_missing hne hp h
      obtain ⟨hbase, hsupply⟩ := List.nodup_cons.mp hsupply
      have hpt : Table.page base ≠ pt := by
        rintro rfl
        exact hfresh base List.mem_cons_self Radix.self_mem_tables
      -- the new table has no links yet
      have hclear : ∀ j, put (clear 0 mem (.page base)) pt (indexof addr info) (made flags (.page base))
          (.page base) j = 0 := fun j => by rw [Radix.put_other hpt, Radix.clear_self]
      simp only [Radix.reach, List.map_cons, hlink]
      refine ih hidx hsupply ?_ ?_ hwalk
      · intro p hp hmem
        rw [Radix.tables_of_clear fun j => by rw [hclear j, link_zero], List.mem_singleton] at hmem
        cases hmem
        exact hbase hp
      · obtain _ | ⟨info', infos⟩ := infos
        · exact trivial
        · refine ⟨by rw [hclear]; exact userOk_zero, fun c hc => ?_⟩
          rw [hclear, link_zero] at hc
          cases hc
    · have hlink : link (mem pt (indexof addr info)) = some (.page (baseof (mem pt (indexof addr info)))) := by
        rw [link_of_user huser, if_neg hp]
      rw [ptwalk_present hne hp] at h
      simp only [Radix.reach, hlink]
      exact ih hidx hsupply (fun p hp hmem => hfresh p hp (Radix.child_subset hi hlink hmem)) (halong _ hlink) h

end Walk

/-! ## The teardown -/

section Teardown

variable {w : ℕ} {info : PtInfo w} {infos : List (PtInfo w)} {scrub : Scrub w} {level bits : ℕ} {base : BitVec w}
  {s : Mem w × List (Table w)}

/-- What `pgfree` leaves at a table. -/
def Scrub.row (scrub : Scrub w) : Table w → ℕ → BitVec w
  | .page base => scrub base
  | _ => fun _ => 0

/-- **Below the root pointer a teardown gives back the tables of a tree**; at a leaf table it stops. -/
theorem teardown_eq (hbits : ∀ i ∈ info :: infos, i.bits = bits) (hlevel : 1 ≤ level) :
    teardown scrub (info :: infos) level (.page base) s =
      Radix.release link (List.range (2 ^ bits)) scrub.row infos.length (.page base) s := by
  induction infos generalizing info level base s with
  | nil =>
    have hloop : ∀ (l : List ℕ) (s : Mem w × List (Table w)), l.foldl (fun s index =>
        if s.1 (.page base) index &&& pteP ≠ 0 ∧ s.1 (.page base) index &&& pteU ≠ 0 then
          teardown scrub [] (level + 1) (.page (baseof (s.1 (.page base) index))) s else s) s = s := by
      intro l
      induction l with
      | nil => exact fun _ => rfl
      | cons i l ih =>
        intro s
        rw [List.foldl_cons, teardown, ite_self]
        exact ih s
    rw [teardown, hloop, if_pos hlevel]
    rfl
  | cons info' infos ih =>
    have hbody : (fun (s : Mem w × List (Table w)) index =>
        if s.1 (.page base) index &&& pteP ≠ 0 ∧ s.1 (.page base) index &&& pteU ≠ 0 then
          teardown scrub (info' :: infos) (level + 1) (.page (baseof (s.1 (.page base) index))) s else s) =
        fun s i => (link (s.1 (.page base) i)).elim s fun t =>
          Radix.release link (List.range (2 ^ bits)) scrub.row infos.length t s := by
      funext s i
      rw [link]
      split
      · exact ih (fun i hi => hbits i (List.mem_cons_of_mem _ hi)) (by omega)
      · rfl
    rw [teardown, if_pos hlevel, hbody, hbits info List.mem_cons_self]
    rfl

end Teardown

/-! ## Address spaces as trees -/

section Tree

variable {w : ℕ} {c : Config w} {mem mem' : Mem w} {kpt : Table w} {as : Space} {r : BitVec w} {owned : List (BitVec w)}

/-- The `ptr` of `as` leads to a tree whose tables are the pages `owned`.  At the indices of the kernel its root has
what `kpt` has, and the other entries are the user's. -/
structure Tree (c : Config w) (mem : Mem w) (kpt : Table w) (as : Space) (r : BitVec w) (owned : List (BitVec w)) :
    Prop where
  ptr : mem (.ptr as) 0 = r ||| pteP ||| pteU
  aligned : Aligned r
  tables : (Radix.tables link c.idx mem c.inner.length (.page r)).Perm (owned.map .page)
  kernel : ∀ i ∈ c.kernelIdx, mem (.page r) i = mem kpt i
  user : ∀ p ∈ owned, ∀ i, UserOk (mem (.page p) i) ∨ p = r ∧ i ∈ c.kernelIdx

theorem indexof_mem_idx (hc : c.Sound) {info : PtInfo w} (hinfo : info ∈ c.inner ++ [c.last]) (va : BitVec w) :
    indexof va info ∈ c.idx := by
  rw [Config.idx, List.mem_range, indexof_eq (hc.covers info hinfo), hc.bits info hinfo]
  exact Nat.mod_lt _ (Nat.two_pow_pos _)

theorem path_mem_idx (hc : c.Sound) (va : BitVec w) : ∀ i ∈ c.path va, i ∈ c.idx := by
  intro i hi
  obtain ⟨info, hinfo, rfl⟩ := List.mem_map.mp hi
  exact indexof_mem_idx hc (List.mem_append_left _ hinfo) va

theorem path_length {va : BitVec w} : (c.path va).length = c.inner.length := List.length_map ..

theorem path_cons (hc : c.Sound) (va : BitVec w) :
    ∃ infos : List (PtInfo w), c.inner.length = (infos.map (indexof va)).length + 1 ∧
      c.path va = indexof va c.root :: infos.map (indexof va) := by
  obtain ⟨infos, hinner⟩ := hc.inner
  exact ⟨infos, by rw [hinner, List.length_map, List.length_cons], by rw [Config.path, hinner, List.map_cons]⟩

theorem page_injective : Function.Injective (Table.page : BitVec w → Table w) := fun _ _ h => Table.page.inj h

theorem Tree.nodup (h : Tree c mem kpt as r owned) (hnodup : owned.Nodup) :
    (Radix.tables link c.idx mem c.inner.length (.page r)).Nodup :=
  h.tables.nodup_iff.mpr (hnodup.map page_injective)

theorem Tree.mem_tables (h : Tree c mem kpt as r owned) {t : Table w} :
    t ∈ Radix.tables link c.idx mem c.inner.length (.page r) ↔ ∃ p ∈ owned, .page p = t := by
  rw [h.tables.mem_iff, List.mem_map]

theorem Tree.root_mem (h : Tree c mem kpt as r owned) : r ∈ owned := by
  obtain ⟨p, hp, heq⟩ := h.mem_tables.mp Radix.self_mem_tables
  exact Table.page.inj heq ▸ hp

/-- A tree depends on its pages, on its root pointer and on the entries of the kernel. -/
theorem Tree.congr (h : Tree c mem kpt as r owned) (hptr : mem' (.ptr as) = mem (.ptr as))
    (howned : ∀ p ∈ owned, mem' (.page p) = mem (.page p)) (hkpt : mem' kpt = mem kpt) :
    Tree c mem' kpt as r owned where
  ptr := by rw [hptr, h.ptr]
  aligned := h.aligned
  tables := by
    rw [Radix.tables_congr]
    · exact h.tables
    · intro t ht
      obtain ⟨p, hp, rfl⟩ := h.mem_tables.mp ht
      exact howned p hp
  kernel := fun i hi => by rw [howned r h.root_mem, hkpt, h.kernel i hi]
  user := fun p hp i => by
    rw [howned p hp]
    exact h.user p hp i

theorem flags_user : Flags (pteW ||| pteU : BitVec w) := flags_pteW.or flags_pteU

theorem Tree.link_ptr (hc : c.Sound) (h : Tree c mem kpt as r owned) : link (mem (.ptr as) 0) = some (.page r) := by
  rw [h.ptr]
  refine link_made hc.width h.aligned flags_pteU ?_
  simp [pteU_bit hc.width]

/-- The first step of `ptwalk` is along the root pointer. -/
theorem Tree.ptwalk_ptr (hc : c.Sound) (h : Tree c mem kpt as r owned) {va flags : BitVec w}
    {supply : List (BitVec w)} :
    ptwalk va flags c.pgtables (.ptr as) mem supply =
      ptwalk va flags (c.inner ++ [c.last]) (.page r) mem supply := by
  have hidx : indexof va (⟨0, 0, 0⟩ : PtInfo w) = 0 := by simp [indexof]
  have hpresent : mem (.ptr as) (indexof va (⟨0, 0, 0⟩ : PtInfo w)) &&& pteP ≠ 0 := by
    rw [hidx, h.ptr, present_iff hc.width]
    simp [pteP_bit hc.width]
  rw [hc.rows, ptwalk_present (by simp) hpresent, hidx, h.ptr, BitVec.or_assoc,
    baseof_flags h.aligned (flags_pteP.or flags_pteU)]

/-- The entries on the way of a user address are the user's. -/
theorem Tree.along (hc : c.Sound) (h : Tree c mem kpt as r owned) (hnodup : owned.Nodup) {va : BitVec w}
    (hva : inRange va c.uvmArea) : Radix.Along link UserOk mem (c.path va) (.page r) := by
  obtain ⟨infos, hlen, hpath⟩ := path_cons hc va
  obtain ⟨hi, his⟩ := List.forall_mem_cons.mp (hpath ▸ path_mem_idx hc va)
  have htree := h.nodup hnodup
  rw [hlen] at htree
  rw [hpath]
  refine ⟨?_, fun c' hc' => Radix.along_of_tables (fun t ht i => ?_) his⟩
  · obtain huser | ⟨-, hk⟩ := h.user r h.root_mem (indexof va c.root)
    · exact huser
    · exact absurd hk (hc.user va hva)
  · -- a table below the root is not the root
    have hroot := (Radix.nodup_succ htree).1 _ hi c' hc'
    have hmem := Radix.child_subset hi hc' ht
    rw [← hlen] at hmem
    obtain ⟨p, hp, rfl⟩ := h.mem_tables.mp hmem
    obtain huser | ⟨rfl, -⟩ := h.user p hp i
    · exact huser
    · exact absurd ht hroot.2

/-- Entries that link tables: writable, the user's, and no large page. -/
def Linked (e : BitVec w) : Prop := e.getLsbD 1 = true ∧ e.getLsbD 2 = true ∧ e.getLsbD 7 = false

theorem linked_made (hw : 12 < w) {p : BitVec w} (hp : Aligned p) : Linked (made (pteW ||| pteU) (.page p)) := by
  refine ⟨?_, ?_, ?_⟩
  · simp [made, pteW_bit hw]
  · simp [made, pteU_bit hw]
  · simp [made, hp.bit, pteP_bit hw, pteW_bit hw, pteU_bit hw]

/-- What a walk of a space leaves as it was: the tables that are neither its own nor new, and the entries of its
tree. -/
structure Kept (c : Config w) (r : BitVec w) (owned : List (BitVec w)) (mem mem' : Mem w) : Prop where
  links : Radix.Links link c.idx Linked mem c.inner.length (.page r) →
    Radix.Links link c.idx Linked mem' c.inner.length (.page r)
  frame : ∀ t, (∀ p ∈ owned, t ≠ .page p) → mem' t = mem t
  entry : ∀ is k, is.length = c.inner.length → (∀ i ∈ is, i ∈ c.idx) →
    Radix.entry link 0 mem' is (.page r) k = Radix.entry link 0 mem is (.page r) k

/-- What `pgalloc` promises of the pages that it returns. -/
structure Supply (supply owned : List (BitVec w)) (kpt : Table w) : Prop where
  nodup : supply.Nodup
  aligned : ∀ p ∈ supply, Aligned p
  fresh : ∀ p ∈ supply, p ∉ owned
  kpt : ∀ p ∈ supply, kpt ≠ .page p

section Walk

variable {va : BitVec w} {supply rest : List (BitVec w)} {leaf : Table w} {index : ℕ}

theorem Tree.reach (hc : c.Sound) (h : Tree c mem kpt as r owned) (hnodup : owned.Nodup) (hva : inRange va c.uvmArea)
    (hsupply : Supply supply owned kpt)
    (hwalk : ptwalk va (pteW ||| pteU) c.pgtables (.ptr as) mem supply = .ok ((leaf, index), mem', rest)) :
    index = indexof va c.last ∧ Radix.reach link (made (pteW ||| pteU)) 0 (c.path va) (.page r) mem (supply.map .page) =
      some (leaf, mem', rest.map .page) := by
  rw [h.ptwalk_ptr hc] at hwalk
  refine reach_of_ptwalk c.idx ?_ hsupply.nodup ?_ (h.along hc hnodup hva) hwalk
  · exact fun info hinfo => indexof_mem_idx hc (List.mem_append_left _ hinfo) va
  · intro p hp hmem
    obtain ⟨q, hq, heq⟩ := h.mem_tables.mp hmem
    cases heq
    exact hsupply.fresh p hp hq

/-- **A walk of a space keeps its tree**, which gets the pages that the walk takes. -/
theorem Tree.walk (hc : c.Sound) (h : Tree c mem kpt as r owned) (hnodup : owned.Nodup) (hva : inRange va c.uvmArea)
    (hkpt : ∀ p ∈ owned, kpt ≠ .page p) (hsupply : Supply supply owned kpt)
    (hwalk : ptwalk va (pteW ||| pteU) c.pgtables (.ptr as) mem supply = .ok ((leaf, index), mem', rest)) :
    ∃ new, supply = new ++ rest ∧ Tree c mem' kpt as r (new ++ owned) ∧ Kept c r (new ++ owned) mem mem' ∧
      Radix.leafAt link mem' (c.path va) (.page r) = some leaf := by
  obtain ⟨rfl, hreach⟩ := h.reach hc hnodup hva hsupply hwalk
  have hlen : (c.path va).length = c.inner.length := path_length
  have htree := h.nodup hnodup
  rw [← hlen] at htree
  have hlink : ∀ t ∈ supply.map Table.page, link (made (pteW ||| pteU) t) = some t := by
    intro t ht
    obtain ⟨p, hp, rfl⟩ := List.mem_map.mp ht
    exact link_made hc.width (hsupply.aligned p hp) flags_user (by simp [pteU_bit hc.width])
  obtain ⟨new, hnew, hgrown, hleaf, hroot⟩ := Radix.reach_grown List.nodup_range hlink link_zero
    (path_mem_idx hc va) htree (hsupply.nodup.map page_injective) (fun t ht hmem => by
      obtain ⟨p, hp, rfl⟩ := List.mem_map.mp ht
      rw [hlen] at hmem
      obtain ⟨q, hq, heq⟩ := h.mem_tables.mp hmem
      cases heq
      exact hsupply.fresh p hp hq) hreach
  obtain ⟨l₁, l₂, rfl, rfl, hl₂⟩ := List.map_eq_append_iff.mp hnew
  obtain rfl : l₂ = rest := List.map_injective_iff.mpr page_injective hl₂
  rw [hlen] at hgrown
  have hother : ∀ t, (∀ p ∈ l₁ ++ owned, t ≠ .page p) → mem' t = mem t := by
    intro t ht
    refine hgrown.other t (fun hmem => ?_) fun hmem => ?_
    · obtain ⟨p, hp, rfl⟩ := h.mem_tables.mp hmem
      exact ht p (List.mem_append_right _ hp) rfl
    · obtain ⟨p, hp, rfl⟩ := List.mem_map.mp hmem
      exact ht p (List.mem_append_left _ hp) rfl
  have hsame : mem' kpt = mem kpt := by
    refine hother kpt fun p hp => ?_
    obtain hp | hp := List.mem_append.mp hp
    · exact hsupply.kpt p (List.mem_append_left _ hp)
    · exact hkpt p hp
  have hlinks : Radix.Links link c.idx Linked mem c.inner.length (.page r) →
      Radix.Links link c.idx Linked mem' c.inner.length (.page r) := by
    refine fun hlinks => hgrown.links link_zero (fun t ht => ?_) (.inr hlinks)
    obtain ⟨p, hp, rfl⟩ := List.mem_map.mp ht
    exact ⟨hlink _ (List.mem_map_of_mem (List.mem_append_left _ hp)),
      linked_made hc.width (hsupply.aligned p (List.mem_append_left _ hp))⟩
  refine ⟨l₁, rfl, ⟨?_, h.aligned, ?_, ?_, ?_⟩, ⟨hlinks, hother, hgrown.entry⟩, hleaf⟩
  · rw [hother (.ptr as) fun _ _ => Table.ptr_ne, h.ptr]
  · rw [List.map_append]
    exact hgrown.tables.trans (h.tables.append_left _)
  · -- the walk leaves the root by an index that is not the kernel's
    intro i hi
    obtain ⟨infos, -, hpath⟩ := path_cons hc va
    rw [hroot i, hsame, h.kernel i hi]
    rw [hpath, List.head?_cons]
    rintro ⟨⟩
    exact hc.user va hva hi
  · intro p hp i
    obtain ⟨hpnew, heq⟩ | heq | ⟨t, ht, heq⟩ := hgrown.made (.page p) i
    · obtain hp | hp := List.mem_append.mp hp
      · exact absurd (List.mem_map_of_mem hp) hpnew
      · rw [heq]
        exact h.user p hp i
    · exact .inl (heq ▸ userOk_zero)
    · obtain ⟨q, -, rfl⟩ := List.mem_map.mp ht
      refine .inl (heq ▸ userOk_of_user hc.width ?_)
      simp [made, pteU_bit hc.width]

/-- **An entry of the user is stored in a leaf table.** -/
theorem Tree.put (hc : c.Sound) (h : Tree c mem kpt as r owned) (hnodup : owned.Nodup)
    (hkpt : ∀ p ∈ owned, kpt ≠ .page p) (hleaf : Radix.leafAt link mem (c.path va) (.page r) = some leaf) {e : BitVec w}
    (he : UserOk e) {k : ℕ} :
    Tree c (put mem leaf k e) kpt as r owned ∧
    Radix.leafAt link (put mem leaf k e) (c.path va) (.page r) = some leaf ∧
    (Radix.Links link c.idx Linked mem c.inner.length (.page r) →
      Radix.Links link c.idx Linked (Radix.put mem leaf k e) c.inner.length (.page r)) ∧
    (∀ t, (∀ p ∈ owned, t ≠ .page p) → put mem leaf k e t = mem t) ∧
    ∀ is l, is.length = c.inner.length → (∀ i ∈ is, i ∈ c.idx) →
      Radix.entry link 0 (Radix.put mem leaf k e) is (.page r) l =
        if is = c.path va ∧ l = k then e else Radix.entry link 0 mem is (.page r) l := by
  have hlen : (c.path va).length = c.inner.length := path_length
  have htree := h.nodup hnodup
  rw [← hlen] at htree
  obtain ⟨htables, hleaf', hentry⟩ := @Radix.put_leaf _ _ _ _ _ _ _ 0 e _ _ _ _ k (path_mem_idx hc va) htree hleaf
  have hlinks := @Radix.put_leaf_links _ _ _ _ _ _ _ e _ _ _ _ k Linked (path_mem_idx hc va) htree hleaf
  rw [hlen] at htables hentry hlinks
  have hmem := Radix.leafAt_mem (path_mem_idx hc va) hleaf
  rw [hlen] at hmem
  obtain ⟨q, hq, rfl⟩ := h.mem_tables.mp hmem
  have hother : ∀ t, (∀ p ∈ owned, t ≠ .page p) → Radix.put mem (.page q) k e t = mem t :=
    fun t ht => Radix.put_other (ht q hq)
  have hqr : q ≠ r := by
    obtain ⟨infos, -, hpath⟩ := path_cons hc va
    obtain ⟨hi, his⟩ := List.forall_mem_cons.mp (hpath ▸ path_mem_idx hc va)
    rw [hpath] at hleaf htree
    rintro rfl
    exact Radix.leafAt_ne hi his htree hleaf rfl
  refine ⟨⟨?_, h.aligned, ?_, ?_, ?_⟩, hleaf', hlinks, hother, hentry⟩
  · rw [hother (.ptr as) fun _ _ => Table.ptr_ne, h.ptr]
  · rw [htables]
    exact h.tables
  · intro i hi
    rw [Radix.put_other fun heq => hqr (Table.page.inj heq).symm, hother kpt hkpt, h.kernel i hi]
  · intro p hp i
    by_cases hpq : p = q ∧ i = k
    · obtain ⟨rfl, rfl⟩ := hpq
      rw [Radix.put_self]
      exact .inl he
    · by_cases hpq' : p = q
      · subst hpq'
        rw [Radix.put_ne fun hik => hpq ⟨rfl, hik⟩]
        exact h.user p hp i
      · rw [Radix.put_other fun heq => hpq' (Table.page.inj heq)]
        exact h.user p hp i

/-- What `map` stores: nothing for `MMAP_NONE`. -/
def pteOf (pa : BitVec w) (prot : BitVec 32) : BitVec w :=
  if prot = mmapNone then 0 else pa ||| pteP ||| pteU ||| if prot &&& mmapWrite ≠ 0 then pteW else 0

theorem userOk_pteOf (hw : 12 < w) {pa : BitVec w} {prot : BitVec 32} : UserOk (pteOf pa prot) := by
  rw [pteOf]
  split
  · exact userOk_zero
  · refine userOk_of_user hw ?_
    simp [pteU_bit hw]

/-- The steps of a `map` that does not panic. -/
theorem map_ok {s s' : Vm w} {pa : BitVec w} {prot : BitVec 32}
    (h : map c as va pa prot s supply = .ok (s', rest)) :
    inRange va c.uvmArea = true ∧ Aligned va ∧ Aligned pa ∧ ∃ pt index mem supply' e,
      ptwalk va (pteW ||| pteU) c.pgtables (.ptr as) s.mem supply = .ok ((pt, index), mem, supply') ∧
      (mem pt index &&& pteP = 0 ↔ prot ≠ mmapNone) ∧
      ptwalk va (pteW ||| pteU) c.pgtables (.ptr as) (Radix.put mem pt index (pteOf pa prot)) supply' =
        .ok (e, s'.mem, rest) ∧ s'.kpt = s.kpt := by
  by_cases hva : inRange va c.uvmArea = true
  swap
  · simp [map, hva, throw, throwThe, MonadExceptOf.throw, bind, Except.bind] at h
  by_cases hal : va ≠ baseof va ∨ pa ≠ baseof pa
  · simp [map, hva, hal, throw, throwThe, MonadExceptOf.throw, bind, Except.bind] at h
  obtain ⟨hval, hpal⟩ := not_or.mp hal
  simp only [map, hva, hal, bind, Except.bind, not_true_eq_false, if_false, pure, Except.pure] at h
  cases hwalk : ptwalk va (pteW ||| pteU) c.pgtables (.ptr as) s.mem supply with
  | error e =>
    rw [hwalk] at h
    cases h
  | ok t =>
    obtain ⟨⟨pt, index⟩, mem, supply'⟩ := t
    rw [hwalk] at h
    simp only at h
    refine ⟨hva, (not_not.mp hval).symm, (not_not.mp hpal).symm, pt, index, mem, supply', ?_⟩
    by_cases hprot : prot = mmapNone
    · rw [if_pos hprot] at h
      by_cases hp : mem pt index &&& pteP = 0
      · rw [if_pos hp] at h
        cases h
      · rw [if_neg hp] at h
        split at h
        · cases h
        · rename_i v hsecond
          cases h
          rw [pteOf, if_pos hprot]
          exact ⟨v.1, rfl, ⟨fun h => absurd h hp, fun h => absurd hprot h⟩, hsecond, rfl⟩
    · rw [if_neg hprot] at h
      by_cases hp : mem pt index &&& pteP = 0
      · rw [if_neg (not_not.mpr hp)] at h
        split at h
        · cases h
        · rename_i v hsecond
          cases h
          rw [pteOf, if_neg hprot]
          exact ⟨v.1, rfl, ⟨fun _ => hprot, fun _ => hp⟩, hsecond, rfl⟩
      · rw [if_pos hp] at h
        cases h

/-- **`map` keeps the tree of a space**: it gets the tables that it misses, and the entry of the page is stored. -/
theorem Tree.map {s s' : Vm w} {pa : BitVec w} {prot : BitVec 32} (hc : c.Sound)
    (h : Tree c s.mem s.kpt as r owned) (hnodup : owned.Nodup) (hkpt : ∀ p ∈ owned, s.kpt ≠ .page p)
    (hsupply : Supply supply owned s.kpt) (hmap : Qemu.map c as va pa prot s supply = .ok (s', rest)) :
    ∃ new, supply = new ++ rest ∧ s'.kpt = s.kpt ∧ Tree c s'.mem s.kpt as r (new ++ owned) ∧
      (Radix.Links link c.idx Linked s.mem c.inner.length (.page r) →
        Radix.Links link c.idx Linked s'.mem c.inner.length (.page r)) ∧
      (∀ t, (∀ p ∈ new ++ owned, t ≠ .page p) → s'.mem t = s.mem t) ∧
      (Radix.entry link 0 s.mem (c.path va) (.page r) (indexof va c.last) &&& pteP = 0 ↔ prot ≠ mmapNone) ∧
      ∀ is l, is.length = c.inner.length → (∀ i ∈ is, i ∈ c.idx) →
        Radix.entry link 0 s'.mem is (.page r) l = if is = c.path va ∧ l = indexof va c.last then pteOf pa prot
          else Radix.entry link 0 s.mem is (.page r) l := by
  obtain ⟨hva, -, -, pt, index, mem, supply', e, hwalk, hold, hsecond, hkpt'⟩ := map_ok hmap
  obtain ⟨hindex, -⟩ := h.reach hc hnodup hva hsupply hwalk
  obtain ⟨new, rfl, htree, hkept, hleaf⟩ := h.walk hc hnodup hva hkpt hsupply hwalk
  have hnodup' : (new ++ owned).Nodup :=
    (List.nodup_append'.mp hsupply.nodup).1.append hnodup fun p hp =>
      hsupply.fresh p (List.mem_append_left _ hp)
  have hkpt₂ : ∀ p ∈ new ++ owned, s.kpt ≠ .page p := by
    intro p hp
    obtain hp | hp := List.mem_append.mp hp
    · exact hsupply.kpt p (List.mem_append_left _ hp)
    · exact hkpt p hp
  obtain ⟨htree', hleaf', hlinks, hother, hentry⟩ := @Tree.put _ _ _ _ _ _ _ _ _ hc htree hnodup' hkpt₂ hleaf _
    (@userOk_pteOf _ hc.width pa prot) index
  -- the second walk finds all tables
  have hsupply' : Supply supply' (new ++ owned) s.kpt := by
    obtain ⟨-, hsub, hdisj⟩ := List.nodup_append'.mp hsupply.nodup
    refine ⟨hsub, fun p hp => hsupply.aligned p (List.mem_append_right _ hp), fun p hp hmem => ?_,
      fun p hp => hsupply.kpt p (List.mem_append_right _ hp)⟩
    obtain hmem | hmem := List.mem_append.mp hmem
    · exact hdisj hmem hp
    · exact hsupply.fresh p (List.mem_append_right _ hp) hmem
  obtain ⟨-, hreach⟩ := htree'.reach hc hnodup' hva hsupply' hsecond
  rw [Radix.reach_of_leafAt hleaf'] at hreach
  obtain ⟨-, hmem, hrest⟩ : pt = e.1 ∧ Radix.put mem pt index (pteOf pa prot) = s'.mem ∧
      supply'.map Table.page = rest.map .page := by
    simpa only [Option.some.injEq, Prod.mk.injEq] using hreach
  obtain rfl : supply' = rest := List.map_injective_iff.mpr page_injective hrest
  rw [← hmem]
  refine ⟨new, rfl, hkpt', htree', fun h => hlinks (hkept.links h), fun t ht => ?_, ?_, fun is l his hidx => ?_⟩
  · rw [hother t ht, hkept.frame t ht]
  · rw [← hkept.entry _ _ path_length (path_mem_idx hc va), ← hindex, Radix.entry_of_leafAt hleaf, hold]
  · rw [hentry is l his hidx, hkept.entry is l his hidx, hindex]

end Walk

/-! ### `protect` and `unprotect` -/

/-- The loop of `protect` over the areas of the kernel. -/
theorem copy_kernel {upt : BitVec w} (hkpt : kpt ≠ .page upt) {info : PtInfo w} {curs : List (BitVec w)} :
    (∀ t, t ≠ .page upt → curs.foldl (fun mem cur =>
      Radix.put mem (.page upt) (indexof cur info) (mem kpt (indexof cur info))) mem t = mem t) ∧
    ∀ i, curs.foldl (fun mem cur =>
      Radix.put mem (.page upt) (indexof cur info) (mem kpt (indexof cur info))) mem (.page upt) i =
        if i ∈ curs.map fun cur => indexof cur info then mem kpt i else mem (.page upt) i := by
  induction curs generalizing mem with
  | nil => exact ⟨fun _ _ => rfl, fun _ => rfl⟩
  | cons cur curs ih =>
    obtain ⟨hother, hself⟩ := @ih (Radix.put mem (.page upt) (indexof cur info) (mem kpt (indexof cur info)))
    refine ⟨fun t ht => ?_, fun i => ?_⟩
    · rw [List.foldl_cons, hother t ht, Radix.put_other ht]
    · rw [List.foldl_cons, hself, Radix.put_other hkpt]
      by_cases hi : i = indexof cur info
      · subst hi
        rw [Radix.put_self, ite_self, List.map_cons, if_pos List.mem_cons_self]
      · rw [Radix.put_ne hi, List.map_cons]
        by_cases hmem : i ∈ curs.map fun cur => indexof cur info
        · rw [if_pos hmem, if_pos (List.mem_cons_of_mem _ hmem)]
        · rw [if_neg hmem, if_neg (List.not_mem_cons_of_ne_of_not_mem hi hmem)]

/-- **`protect` makes a root**, which has no link. -/
theorem protect_tree {s s' : Vm w} {supply rest : List (BitVec w)}
    (hkernel : ∀ i ∈ c.kernelIdx, s.mem s.kpt i &&& pteU = 0) (hkpt : s.kpt ≠ .ptr as)
    (hsupply : Supply supply [] s.kpt) (h : protect c as s supply = .ok (s', rest)) :
    ∃ r, supply = r :: rest ∧ s'.kpt = s.kpt ∧ Tree c s'.mem s.kpt as r [r] ∧
      (∀ t, t ≠ .page r → t ≠ .ptr as → s'.mem t = s.mem t) ∧
      ∀ i, i ∉ c.kernelIdx → s'.mem (.page r) i = 0 := by
  rw [protect] at h
  cases halloc : pgallocz s.mem supply with
  | error e =>
    rw [halloc] at h
    cases h
  | ok t =>
    obtain ⟨r, mem, rest'⟩ := t
    rw [halloc] at h
    obtain ⟨rfl, hmem₀⟩ := pgallocz_ok halloc
    obtain rfl : mem = clear 0 s.mem (.page r) := hmem₀
    have hrkpt : s.kpt ≠ .page r := hsupply.kpt r List.mem_cons_self
    obtain ⟨hother, hself⟩ := @copy_kernel _ (clear 0 s.mem (.page r)) s.kpt r hrkpt c.root
      (c.kernelSteps (1#w <<< c.root.shift))
    obtain ⟨mem, hmem⟩ : ∃ mem, mem = (c.kernelSteps (1#w <<< c.root.shift)).foldl (fun mem cur =>
        Radix.put mem (.page r) (indexof cur c.root) (mem s.kpt (indexof cur c.root))) (clear 0 s.mem (.page r)) :=
      ⟨_, rfl⟩
    rw [← hmem] at hother hself
    obtain ⟨hs', hkpt', rfl⟩ :
        s'.mem = Radix.put mem (.ptr as) 0 (r ||| pteP ||| pteU) ∧ s'.kpt = s.kpt ∧ rest = rest' := by
      rw [hmem]
      cases h
      exact ⟨rfl, rfl, rfl⟩
    -- the root has what the kernel has, and is clear elsewhere
    have hroot : ∀ i, s'.mem (.page r) i = if i ∈ c.kernelIdx then s.mem s.kpt i else 0 := by
      intro i
      rw [hs', Radix.put_other Table.ptr_ne.symm, hself, Radix.clear_self, Radix.clear_other hrkpt]
      rfl
    have hclear : ∀ i, link (s'.mem (.page r) i) = none := by
      intro i
      rw [hroot]
      split
      · exact link_of_kernel (hkernel i ‹_›)
      · exact link_zero
    have hframe : ∀ t, t ≠ .page r → t ≠ .ptr as → s'.mem t = s.mem t := by
      intro t htr hta
      rw [hs', Radix.put_other hta, hother t htr, Radix.clear_other htr]
    refine ⟨r, rfl, hkpt', ⟨?_, hsupply.aligned r List.mem_cons_self, ?_, ?_, ?_⟩, hframe, ?_⟩
    · rw [hs', Radix.put_self]
    · rw [Radix.tables_of_clear hclear]
      rfl
    · intro i hi
      rw [hframe s.kpt hrkpt hkpt, hroot, if_pos hi]
    · intro p hp i
      obtain rfl := List.mem_singleton.mp hp
      rw [hroot]
      split
      · exact .inr ⟨rfl, ‹_›⟩
      · exact .inl userOk_zero
    · intro i hi
      rw [hroot, if_neg hi]

/-- **`unprotect` gives back the tables of the tree.** -/
theorem Tree.unprotect {s : Vm w} {scrub : Scrub w} (hc : c.Sound) (h : Tree c s.mem s.kpt as r owned)
    (hnodup : owned.Nodup) :
    (Qemu.unprotect c scrub as s).2 = Radix.tables link c.idx s.mem c.inner.length (.page r) ∧
    (Qemu.unprotect c scrub as s).1.kpt = s.kpt ∧
    ∀ t, (∀ p ∈ owned, t ≠ .page p) → (Qemu.unprotect c scrub as s).1.mem t = s.mem t := by
  have hbits : ∀ i ∈ c.inner ++ [c.last], i.bits = c.root.bits := hc.bits
  obtain ⟨infos, hinner⟩ := hc.inner
  have hlink := h.link_ptr hc
  have hentry : s.mem (.ptr as) 0 &&& pteP ≠ 0 ∧ s.mem (.ptr as) 0 &&& pteU ≠ 0 := by
    by_contra hne
    rw [link, if_neg hne] at hlink
    cases hlink
  have hbase : baseof (s.mem (.ptr as) 0) = r := by
    rw [link, if_pos hentry] at hlink
    exact Table.page.inj (Option.some.inj hlink)
  have htop : teardown scrub c.pgtables 0 (.ptr as) (s.mem, []) =
      Radix.release link c.idx scrub.row c.inner.length (.page r) (s.mem, []) := by
    rw [hc.rows, hinner, List.cons_append, teardown, if_neg (by omega)]
    rw [hinner, List.cons_append] at hbits
    change (if s.mem (.ptr as) 0 &&& pteP ≠ 0 ∧ s.mem (.ptr as) 0 &&& pteU ≠ 0 then _ else _) = _
    rw [if_pos hentry, hbase, teardown_eq hbits (by omega), List.length_append]
    rfl
  obtain ⟨mem', hrel, hframe⟩ := @Radix.release_eq _ _ _ _ link c.idx scrub.row c.inner.length (.page r) s.mem []
    (h.nodup hnodup)
  rw [List.nil_append] at hrel
  simp only [Qemu.unprotect, htop, hrel, true_and]
  intro t ht
  refine hframe t fun hmem => ?_
  obtain ⟨p, hp, rfl⟩ := h.mem_tables.mp hmem
  exact ht p hp rfl

end Tree

end Am.Qemu
