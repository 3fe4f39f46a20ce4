import Rv32i.Am.QemuVme

/-!
# AM on x86-qemu: runs with address spaces

Address spaces are made, mapped and torn down in any order, while the client takes pages for its data from the allocator
and gives them back.

* `Sys`, `step`, `Reached` — the system with the pages that everyone holds;
* `mapKernel_booted`, `start64_pml4` — what `vme_init` leaves for the kernel has no user bit at its root;
* `Inv`, `inv_reached` — what holds in every run;
* `unprotect_frees` — what `unprotect` gives back.
-/

namespace Am.Qemu

/-! ## The tables of the kernel -/

section Boot

variable {w : ℕ} {addr flags : BitVec w} {infos : List (PtInfo w)} {pt leaf : Table w} {index : ℕ} {mem mem' : Mem w}
  {supply rest new ks : List (BitVec w)}

theorem aligned_of_dvd {p : BitVec w} (h : pgsize ∣ p.toNat) : Aligned p := by
  obtain ⟨q, hq⟩ := h
  refine BitVec.eq_of_getLsbD_eq fun i _ => ?_
  rw [baseof_bit]
  by_cases hi : 12 ≤ i
  · simp [hi]
  · rw [BitVec.getLsbD, hq, show pgsize = 2 ^ 12 from rfl, Nat.mul_comm, Nat.testBit_mul_two_pow]
    simp [hi]

/-- What is new in the tables has no user bit. -/
def NoUser (mem mem' : Mem w) (new : List (BitVec w)) : Prop :=
  ∀ t i, (∀ p ∈ new, t ≠ .page p) ∧ mem' t i = mem t i ∨ mem' t i &&& pteU = 0

theorem made_noUser (hw : 12 < w) {p : BitVec w} (hp : Aligned p) : (p ||| pteP ||| pteW) &&& pteU = 0 := by
  by_contra h
  have hbit := (user_iff hw).mp h
  simp [hp.bit, pteP_bit hw, pteW_bit hw] at hbit

/-- **A walk for the kernel adds no user bit**, and from a page on it leaves the root pointer. -/
theorem ptwalk_noUser (hw : 12 < w) (hsupply : ∀ p ∈ supply, Aligned p) {base : BitVec w}
    (h : ptwalk addr pteW infos (.page base) mem supply = .ok ((leaf, index), mem', rest)) :
    ∃ new, supply = new ++ rest ∧ NoUser mem mem' new ∧ mem' .boot = mem .boot ∧ ∃ base, leaf = .page base := by
  induction infos generalizing base mem supply with
  | nil =>
    rw [ptwalk] at h
    cases h
  | cons info infos ih =>
    by_cases hne : infos = []
    · subst hne
      rw [ptwalk_last] at h
      cases h
      exact ⟨[], rfl, fun _ _ => .inl ⟨List.forall_mem_nil _, rfl⟩, rfl, base, rfl⟩
    by_cases hp : mem (.page base) (indexof addr info) &&& pteP = 0
    · obtain ⟨p, supply, rfl, hwalk⟩ := ptwalk_missing hne hp h
      obtain ⟨hpal, hsupply⟩ := List.forall_mem_cons.mp hsupply
      obtain ⟨new, rfl, huser, hboot, hleaf⟩ := ih hsupply hwalk
      refine ⟨p :: new, rfl, fun t i => ?_, ?_, hleaf⟩
      · obtain ⟨hnew, heq⟩ | heq := huser t i
        · rw [heq]
          by_cases htb : t = .page base ∧ i = indexof addr info
          · rw [htb.1, htb.2, Radix.put_self]
            exact .inr (made_noUser hw hpal)
          have hput : Radix.put (Radix.clear 0 mem (.page p)) (.page base) (indexof addr info)
              (made pteW (.page p)) t i = Radix.clear 0 mem (.page p) t i := by
            by_cases htb' : t = .page base
            · rw [htb', Radix.put_ne fun hi => htb ⟨htb', hi⟩]
            · rw [Radix.put_other htb']
          rw [hput]
          by_cases htp : t = .page p
          · rw [htp, Radix.clear_self]
            exact .inr BitVec.zero_and
          · rw [Radix.clear_other htp]
            refine .inl ⟨fun q hq => ?_, rfl⟩
            obtain rfl | hq := List.mem_cons.mp hq
            · exact htp
            · exact hnew q hq
        · exact .inr heq
      · rw [hboot, Radix.put_other Table.boot_ne, Radix.clear_other Table.boot_ne]
    · rw [ptwalk_present hne hp] at h
      exact ih hsupply h

theorem NoUser.kernel (h : NoUser mem mem' new) (hks : ∀ p ∈ ks, ∀ i, mem (.page p) i &&& pteU = 0) :
    ∀ p ∈ new ++ ks, ∀ i, mem' (.page p) i &&& pteU = 0 := by
  intro p hp i
  obtain ⟨hnew, heq⟩ | heq := h (.page p) i
  · obtain hp | hp := List.mem_append.mp hp
    · exact absurd rfl (hnew p hp)
    · rw [heq]
      exact hks p hp i
  · exact heq

end Boot

section Kernel

variable {mem mem' : Mem 32} {supply rest ks : List (BitVec 32)} {leaf : Table 32} {index : ℕ} {cur : BitVec 32}

/-- The tables of `vme_init` once it has a root. -/
structure Booted (mem : Mem 32) (ks : List (BitVec 32)) : Prop where
  root : ∃ r ∈ ks, Aligned r ∧ mem .boot 0 = r ||| pteP ||| pteW
  user : ∀ p ∈ ks, ∀ i, mem (.page p) i &&& pteU = 0

theorem Booted.of_mem {ks' : List (BitVec 32)} (h : Booted mem ks) (hks : ∀ p, p ∈ ks' ↔ p ∈ ks) : Booted mem ks' := by
  obtain ⟨⟨r, hr, hroot⟩, huser⟩ := h
  exact ⟨⟨r, (hks r).mpr hr, hroot⟩, fun p hp => huser p ((hks p).mp hp)⟩

theorem i386_index_boot : indexof cur (⟨0x00000000, 0, 0⟩ : PtInfo 32) = 0 := by simp [indexof]

theorem walk_booted (hsupply : ∀ p ∈ supply, Aligned p) (hmem : mem .boot 0 = 0 ∧ ks = [] ∨ Booted mem ks)
    (h : ptwalk cur pteW i386.pgtables .boot mem supply = .ok ((leaf, index), mem', rest)) :
    ∃ new, supply = new ++ rest ∧ Booted mem' (new ++ ks) ∧ ∃ base, leaf = .page base := by
  have hw : 12 < 32 := by decide
  obtain ⟨hzero, rfl⟩ | ⟨⟨r, hr, hal, hroot⟩, huser⟩ := hmem
  · have hp : mem .boot (indexof cur (⟨0x00000000, 0, 0⟩ : PtInfo 32)) &&& pteP = 0 := by
      rw [i386_index_boot, hzero]
      rfl
    obtain ⟨base, supply, rfl, hwalk⟩ := ptwalk_missing (by simp) hp h
    obtain ⟨hbase, hsupply⟩ := List.forall_mem_cons.mp hsupply
    obtain ⟨new, rfl, hnew, hboot, hleaf⟩ := ptwalk_noUser hw hsupply hwalk
    refine ⟨base :: new, rfl, ⟨⟨base, by simp, hbase, ?_⟩, ?_⟩, hleaf⟩
    · rw [hboot, i386_index_boot, Radix.put_self]
      rfl
    · have hclear : ∀ p ∈ [base], ∀ i, Radix.put (Radix.clear 0 mem (.page base)) .boot
          (indexof cur (⟨0x00000000, 0, 0⟩ : PtInfo 32)) (made pteW (.page base)) (.page p) i &&& pteU = 0 := by
        intro p hp i
        obtain rfl := List.mem_singleton.mp hp
        rw [Radix.put_other Table.boot_ne.symm, Radix.clear_self]
        exact BitVec.zero_and
      intro p hp i
      refine hnew.kernel hclear p ?_ i
      rw [List.append_nil] at hp
      exact (List.perm_append_singleton base new).mem_iff.mpr hp
  · have hp : mem .boot (indexof cur (⟨0x00000000, 0, 0⟩ : PtInfo 32)) &&& pteP ≠ 0 := by
      rw [i386_index_boot, hroot, present_iff hw]
      simp [pteP_bit hw]
    rw [i386, ptwalk_present (by simp) hp] at h
    obtain ⟨new, rfl, hnew, hboot, hleaf⟩ := ptwalk_noUser hw hsupply h
    refine ⟨new, rfl, ⟨⟨r, List.mem_append_right _ hr, hal, ?_⟩, hnew.kernel huser⟩, hleaf⟩
    rw [hboot, hroot]

/-- **After `vme_init` no table of the kernel has a user bit.** -/
theorem mapKernel_booted {curs : List (BitVec 32)} (hcurs : ∀ cur ∈ curs, Aligned cur) (hne : curs ≠ [])
    (hsupply : ∀ p ∈ supply, Aligned p) (hmem : mem .boot 0 = 0 ∧ ks = [] ∨ Booted mem ks)
    (h : mapKernel curs mem supply = .ok (mem', rest)) :
    ∃ new, supply = new ++ rest ∧ Booted mem' (new ++ ks) := by
  have hw : 12 < 32 := by decide
  induction curs generalizing mem supply ks with
  | nil => exact absurd rfl hne
  | cons cur curs ih =>
    obtain ⟨hcur, hcurs⟩ := List.forall_mem_cons.mp hcurs
    rw [mapKernel] at h
    cases hwalk : ptwalk cur pteW i386.pgtables .boot mem supply with
    | error e =>
      rw [hwalk] at h
      cases h
    | ok t =>
      obtain ⟨⟨leaf, index⟩, mem₁, supply₁⟩ := t
      rw [hwalk] at h
      obtain ⟨new, rfl, ⟨⟨r, hr, hal, hroot⟩, huser⟩, base, rfl⟩ := walk_booted hsupply hmem hwalk
      have hbooted : Booted (Radix.put mem₁ (.page base) index (cur ||| pteP ||| pteW)) (new ++ ks) := by
        refine ⟨⟨r, hr, hal, ?_⟩, fun p hp i => ?_⟩
        · rw [Radix.put_other Table.boot_ne, hroot]
        · by_cases hpb : p = base ∧ i = index
          · obtain ⟨rfl, rfl⟩ := hpb
            rw [Radix.put_self]
            exact made_noUser hw hcur
          · have hput : Radix.put mem₁ (.page base) index (cur ||| pteP ||| pteW) (.page p) i = mem₁ (.page p) i := by
              by_cases hpb' : p = base
              · rw [hpb', Radix.put_ne fun hi => hpb ⟨hpb', hi⟩]
              · rw [Radix.put_other fun heq => hpb' (Table.page.inj heq)]
            rw [hput]
            exact huser p hp i
      by_cases hlast : curs = []
      · subst hlast
        cases h
        exact ⟨new, rfl, hbooted⟩
      · obtain ⟨new', rfl, hbooted'⟩ := ih hcurs hlast (fun p hp => hsupply p (List.mem_append_right _ hp))
          (.inr hbooted) h
        exact ⟨new ++ new', by rw [List.append_assoc], hbooted'.of_mem fun p => by simp [or_left_comm]⟩

end Kernel

/-- The lower half of the first entry of the kernel, on 64 bits. -/
theorem start64_pml4 {mem : Mem 64} :
    (start64 mem (.page pml4Addr) 0).setWidth 32 = (pdptAddr ||| pteP ||| pteW).setWidth 32 := by
  have hframe : ∀ (l : List ℕ) (f : ℕ → BitVec 64) (mem : Mem 64),
      l.foldl (fun mem ecx => Radix.put mem (.page pdptAddr) ecx (f ecx)) mem (.page pml4Addr) =
        mem (.page pml4Addr) := by
    intro l f
    induction l with
    | nil => exact fun _ => rfl
    | cons ecx l ih =>
      intro mem
      rw [List.foldl_cons, ih, Radix.put_other (by decide)]
  rw [start64]
  by_cases h : (mem (.page pml4Addr) 0).setWidth 32 = (pdptAddr ||| pteP ||| pteW).setWidth 32
  · rw [if_pos h, h]
  · rw [if_neg h, hframe, Radix.put_self]
    refine BitVec.eq_of_getLsbD_eq fun i hi => ?_
    rw [movl, BitVec.getLsbD_setWidth, BitVec.getLsbD_or, BitVec.getLsbD_and, BitVec.getLsbD_setWidth,
      show (0xffffffff00000000 : BitVec 64) = (BitVec.allOnes 32) ++ (0#32) from rfl, BitVec.getLsbD_append]
    simp [hi, show i < 64 by omega]

/-! ## The system -/

/-- Who has pages. -/
inductive Owner
  | space (as : Space)
  | kernel
  /-- The client, for its data. -/
  | data
  deriving DecidableEq

structure Sys (w : ℕ) where
  vm : Vm w
  /-- The pages that `pgalloc` returned to an owner and that did not go back to `pgfree`. -/
  pages : Owner → List (BitVec w)

/-- At first only the kernel has pages. -/
def kernelOnly {w : ℕ} (ks : List (BitVec w)) : Owner → List (BitVec w)
  | .kernel => ks
  | _ => []

/-- The pages that a call took, where `rest` is left. -/
def taken {α : Type} (supply rest : List α) : List α := supply.take (supply.length - rest.length)

theorem taken_append {α : Type} {new rest : List α} : taken (new ++ rest) rest = new := by
  rw [taken, List.length_append, Nat.add_sub_cancel, List.take_left']
  rfl

/-- `__x86_64__` -/
inductive Arch
  | i386
  | x86_64

def Arch.width : Arch → ℕ
  | .i386 => 32
  | .x86_64 => 64

def Arch.config : (arch : Arch) → Config arch.width
  | .i386 => Qemu.i386
  | .x86_64 => Qemu.x86_64

/-- The system after `vme_init`. -/
def boot : (arch : Arch) → Mem arch.width → List (BitVec arch.width) → Exec (Sys arch.width)
  | .i386, mem, supply => do
    let (vm, rest) ← vmeInit32 0 mem supply
    return ⟨vm, kernelOnly (taken supply rest)⟩
  | .x86_64, mem, _ => do
    let vm ← vmeInit64 0 (start64 mem)
    return ⟨vm, kernelOnly [pml4Addr, pdptAddr]⟩

/-- A call, with what `pgalloc` returns during the call. -/
inductive Op (w : ℕ)
  | protect (as : Space) (supply : List (BitVec w))
  | map (as : Space) (va pa : BitVec w) (prot : BitVec 32) (supply : List (BitVec w))
  | unprotect (as : Space) (scrub : Scrub w)
  /-- The client takes a page for its data. -/
  | take (p : BitVec w)
  | store (p : BitVec w) (row : ℕ → BitVec w)
  | give (p : BitVec w)

section Run

variable {w : ℕ} (c : Config w)

def step (s : Sys w) : Op w → Exec (Sys w)
  | .protect as supply => do
    let (vm, rest) ← protect c as s.vm supply
    return ⟨vm, Function.update s.pages (.space as) (taken supply rest ++ s.pages (.space as))⟩
  | .map as va pa prot supply => do
    let (vm, rest) ← map c as va pa prot s.vm supply
    return ⟨vm, Function.update s.pages (.space as) (taken supply rest ++ s.pages (.space as))⟩
  | .unprotect as scrub =>
    let (vm, freed) := unprotect c scrub as s.vm
    .ok ⟨vm, Function.update s.pages (.space as) ((s.pages (.space as)).filter fun p => .page p ∉ freed)⟩
  | .take p => .ok ⟨s.vm, Function.update s.pages .data (p :: s.pages .data)⟩
  | .store p row => .ok ⟨{ s.vm with mem := Function.update s.vm.mem (.page p) row }, s.pages⟩
  | .give p => .ok ⟨s.vm, Function.update s.pages .data ((s.pages .data).filter (· ≠ p))⟩

/-- What `pgalloc` returns: pages that nobody has. -/
def Fresh (s : Sys w) (supply : List (BitVec w)) : Prop :=
  supply.Nodup ∧ ∀ p ∈ supply, Aligned p ∧ ∀ o, p ∉ s.pages o

/-- The calls that a client makes: on a space between its `protect` and its `unprotect`, and on its own data. -/
def Allowed (s : Sys w) : Op w → Prop
  | .protect as supply => s.pages (.space as) = [] ∧ Fresh s supply
  | .map as _ _ _ supply => s.pages (.space as) ≠ [] ∧ Fresh s supply
  | .unprotect as _ => s.pages (.space as) ≠ []
  | .take p => Fresh s [p]
  | .store p _ => p ∈ s.pages .data
  | .give p => p ∈ s.pages .data

/-- The states that calls lead to, none of which panics. -/
inductive Reached (s₀ : Sys w) : Sys w → Prop
  | refl : Reached s₀ s₀
  | step {s s' : Sys w} {op : Op w} : Reached s₀ s → Allowed s op → step c s op = .ok s' → Reached s₀ s'

end Run

/-! ## The invariant -/

section Inv

variable {w : ℕ} {c : Config w} {s s' : Sys w}

structure Inv (c : Config w) (s : Sys w) : Prop where
  kpt : ∃ k ∈ s.pages .kernel, s.vm.kpt = .page k
  noUser : ∀ i ∈ c.kernelIdx, s.vm.mem s.vm.kpt i &&& pteU = 0
  tree : ∀ as, s.pages (.space as) ≠ [] → ∃ r, Tree c s.vm.mem s.vm.kpt as r (s.pages (.space as))
  nodup : ∀ as, (s.pages (.space as)).Nodup
  separate : ∀ o o', o ≠ o' → (s.pages o).Disjoint (s.pages o')

/-- What a call for one owner does: it stores in the pages of this owner and in new ones, and the owner has a tree
again. -/
structure Changes (c : Config w) (s s' : Sys w) (o : Owner) : Prop where
  kpt : s'.vm.kpt = s.vm.kpt
  pages : ∀ o', o' ≠ o → s'.pages o' = s.pages o'
  mem : ∀ t, (∀ p, p ∈ s'.pages o ∨ p ∈ s.pages o → t ≠ .page p) → (∀ as, o = .space as → t ≠ .ptr as) →
    s'.vm.mem t = s.vm.mem t
  fresh : ∀ p ∈ s'.pages o, p ∈ s.pages o ∨ ∀ o', p ∉ s.pages o'
  tree : ∀ as, o = .space as → (s'.pages o).Nodup ∧
    (s'.pages o ≠ [] → ∃ r, Tree c s'.vm.mem s.vm.kpt as r (s'.pages o))

/-- A page of another owner is neither new nor one of `o`. -/
theorem Changes.page_ne {o o' : Owner} (h : Inv c s) (hch : Changes c s s' o) (ho' : o' ≠ o) :
    ∀ p ∈ s.pages o', ∀ q, q ∈ s'.pages o ∨ q ∈ s.pages o → Table.page p ≠ .page q := by
  rintro p hp q hq ⟨⟩
  have hpo : p ∉ s.pages o := fun hpo => h.separate o' o ho' hp hpo
  obtain hq | hq := hq
  · obtain hq | hq := hch.fresh p hq
    · exact hpo hq
    · exact hq o' hp
  · exact hpo hq

/-- The pages of another owner keep what they have. -/
theorem Changes.keeps {o o' : Owner} (h : Inv c s) (hch : Changes c s s' o) (ho' : o' ≠ o) :
    ∀ p ∈ s.pages o', s'.vm.mem (.page p) = s.vm.mem (.page p) :=
  fun p hp => hch.mem _ (hch.page_ne h ho' p hp) fun _ _ => nofun

/-- **A call for one owner keeps the invariant.** -/
theorem Changes.inv {o : Owner} (h : Inv c s) (hch : Changes c s s' o) (ho : o ≠ .kernel) : Inv c s' := by
  obtain ⟨k, hk, hkeq⟩ := h.kpt
  have hkmem : s'.vm.mem s.vm.kpt = s.vm.mem s.vm.kpt := by
    rw [hkeq]
    exact hch.keeps h ho.symm k hk
  have hdisj : ∀ o', o' ≠ o → (s'.pages o).Disjoint (s'.pages o') := by
    intro o' ho' p hp hpo'
    rw [hch.pages o' ho'] at hpo'
    exact hch.page_ne h ho' p hpo' p (.inl hp) rfl
  refine ⟨⟨k, ?_, hch.kpt.trans hkeq⟩, ?_, ?_, ?_, ?_⟩
  · rwa [hch.pages _ ho.symm]
  · intro i hi
    rw [hch.kpt, hkmem]
    exact h.noUser i hi
  · intro as has
    rw [hch.kpt]
    by_cases hoas : Owner.space as = o
    · subst hoas
      exact (hch.tree as rfl).2 has
    · rw [hch.pages _ hoas] at has ⊢
      obtain ⟨r, hr⟩ := h.tree as has
      refine ⟨r, hr.congr (hch.mem _ (fun _ _ => Table.ptr_ne) ?_) (hch.keeps h hoas) hkmem⟩
      rintro as' rfl ⟨⟩
      exact hoas rfl
  · intro as
    by_cases hoas : Owner.space as = o
    · subst hoas
      exact (hch.tree as rfl).1
    · rw [hch.pages _ hoas]
      exact h.nodup as
  · intro o₁ o₂ hne
    by_cases h₁ : o₁ = o
    · subst h₁
      exact hdisj o₂ hne.symm
    · by_cases h₂ : o₂ = o
      · subst h₂
        exact fun p hp₁ hp₂ => hdisj o₁ hne hp₂ hp₁
      · rw [hch.pages _ h₁, hch.pages _ h₂]
        exact h.separate o₁ o₂ hne

theorem Inv.kpt_ne (h : Inv c s) {o : Owner} (ho : o ≠ .kernel) : ∀ p ∈ s.pages o, s.vm.kpt ≠ .page p := by
  obtain ⟨k, hk, hkeq⟩ := h.kpt
  intro p hp heq
  obtain rfl : k = p := Table.page.inj (hkeq ▸ heq)
  exact h.separate o .kernel ho hp hk

theorem Inv.kpt_ne_ptr (h : Inv c s) (as : Space) : s.vm.kpt ≠ .ptr as := by
  obtain ⟨k, -, hkeq⟩ := h.kpt
  rw [hkeq]
  nofun

theorem Inv.supply (h : Inv c s) {supply : List (BitVec w)} (hfresh : Fresh s supply) (o : Owner) :
    Supply supply (s.pages o) s.vm.kpt := by
  obtain ⟨k, hk, hkeq⟩ := h.kpt
  refine ⟨hfresh.1, fun p hp => (hfresh.2 p hp).1, fun p hp => (hfresh.2 p hp).2 o, fun p hp heq => ?_⟩
  obtain rfl : k = p := Table.page.inj (hkeq ▸ heq)
  exact (hfresh.2 k hp).2 .kernel hk

theorem changes_update {o : Owner} {vm : Vm w} {ps : List (BitVec w)} (hkpt : vm.kpt = s.vm.kpt)
    (hmem : ∀ t, (∀ p, p ∈ ps ∨ p ∈ s.pages o → t ≠ .page p) → (∀ as, o = .space as → t ≠ .ptr as) →
      vm.mem t = s.vm.mem t)
    (hfresh : ∀ p ∈ ps, p ∈ s.pages o ∨ ∀ o', p ∉ s.pages o')
    (htree : ∀ as, o = .space as → ps.Nodup ∧ (ps ≠ [] → ∃ r, Tree c vm.mem s.vm.kpt as r ps)) :
    Changes c s ⟨vm, Function.update s.pages o ps⟩ o := by
  refine ⟨hkpt, fun o' ho' => Function.update_of_ne ho' _ _, ?_, ?_, ?_⟩
  · change ∀ t, (∀ p, p ∈ Function.update s.pages o ps o ∨ _ → _) → _
    rwa [Function.update_self]
  · change ∀ p ∈ Function.update s.pages o ps o, _
    rwa [Function.update_self]
  · change ∀ as, _ → (Function.update s.pages o ps o).Nodup ∧ (Function.update s.pages o ps o ≠ [] →
      ∃ r, Tree c vm.mem s.vm.kpt as r (Function.update s.pages o ps o))
    rwa [Function.update_self]

/-- A call that may take pages, and the pages of the space after it. -/
theorem called_ok {as : Space} {supply : List (BitVec w)} {call : Exec (Vm w × List (BitVec w))}
    (h : (call >>= fun t =>
      pure ⟨t.1, Function.update s.pages (.space as) (taken supply t.2 ++ s.pages (.space as))⟩) = Except.ok s') :
    ∃ vm rest, call = .ok (vm, rest) ∧
      s' = ⟨vm, Function.update s.pages (.space as) (taken supply rest ++ s.pages (.space as))⟩ := by
  cases call with
  | error e => cases h
  | ok t => exact ⟨t.1, t.2, rfl, (Except.ok.inj h).symm⟩

theorem step_protect {as : Space} {supply : List (BitVec w)} (hstep : step c s (.protect as supply) = .ok s') :
    ∃ vm rest, protect c as s.vm supply = .ok (vm, rest) ∧
      s' = ⟨vm, Function.update s.pages (.space as) (taken supply rest ++ s.pages (.space as))⟩ :=
  called_ok hstep

theorem step_map {as : Space} {va pa : BitVec w} {prot : BitVec 32} {supply : List (BitVec w)}
    (hstep : step c s (.map as va pa prot supply) = .ok s') :
    ∃ vm rest, map c as va pa prot s.vm supply = .ok (vm, rest) ∧
      s' = ⟨vm, Function.update s.pages (.space as) (taken supply rest ++ s.pages (.space as))⟩ :=
  called_ok hstep

/-- After an `unprotect` the space has no pages. -/
theorem step_unprotect (hc : c.Sound) (h : Inv c s) {as : Space} {scrub : Scrub w}
    (hallowed : Allowed s (.unprotect as scrub)) (hstep : step c s (.unprotect as scrub) = .ok s') :
    s' = ⟨(unprotect c scrub as s.vm).1, Function.update s.pages (.space as) []⟩ := by
  obtain ⟨r, htree⟩ := h.tree as hallowed
  obtain ⟨hfreed, -, -⟩ := @Tree.unprotect _ _ _ _ _ s.vm scrub hc htree (h.nodup as)
  have hnone : ((s.pages (.space as)).filter fun p => .page p ∉ (unprotect c scrub as s.vm).2) = [] := by
    refine List.filter_eq_nil_iff.mpr fun p hp => ?_
    rw [hfreed]
    have hmem := htree.mem_tables.mpr ⟨p, hp, rfl⟩
    simp [hmem]
  rw [← hnone]
  exact (Except.ok.inj hstep).symm

def Op.owner : Op w → Owner
  | .protect as _ | .map as _ _ _ _ | .unprotect as _ => .space as
  | .take _ | .store _ _ | .give _ => .data

/-- **Each call is one for its owner.** -/
theorem step_changes (hc : c.Sound) (h : Inv c s) {op : Op w} (hallowed : Allowed s op)
    (hstep : step c s op = .ok s') : Changes c s s' op.owner := by
  cases op with
  | protect as supply =>
    obtain ⟨hempty, hfresh⟩ := hallowed
    obtain ⟨vm, rest, hcall, rfl⟩ := step_protect hstep
    have hsupply := h.supply hfresh (.space as)
    rw [hempty] at hsupply
    obtain ⟨r, rfl, hkpt, htree, hframe, -⟩ := protect_tree h.noUser (h.kpt_ne_ptr as) hsupply hcall
    have htaken : taken (r :: rest) rest = [r] := @taken_append _ [r] rest
    rw [htaken, hempty]
    refine changes_update hkpt ?_ ?_ ?_
    · intro t ht hta
      exact hframe t (ht r (.inl List.mem_cons_self)) (hta as rfl)
    · intro p hp
      obtain rfl := List.mem_singleton.mp hp
      exact .inr (hfresh.2 p List.mem_cons_self).2
    · rintro as' ⟨⟩
      exact ⟨List.nodup_singleton r, fun _ => ⟨r, htree⟩⟩
  | map as va pa prot supply =>
    obtain ⟨hlive, hfresh⟩ := hallowed
    obtain ⟨vm, rest, hcall, rfl⟩ := step_map hstep
    obtain ⟨r, htree⟩ := h.tree as hlive
    have hsupply := h.supply hfresh (.space as)
    obtain ⟨new, rfl, hkpt, htree', -, hframe, -⟩ := htree.map hc (h.nodup as) (h.kpt_ne nofun) hsupply hcall
    rw [taken_append]
    have hnew := (List.nodup_append'.mp hfresh.1).1
    refine changes_update hkpt ?_ ?_ ?_
    · intro t ht _
      exact hframe t fun p hp => ht p (.inl hp)
    · intro p hp
      obtain hp | hp := List.mem_append.mp hp
      · exact .inr (hfresh.2 p (List.mem_append_left _ hp)).2
      · exact .inl hp
    · rintro as' ⟨⟩
      exact ⟨hnew.append (h.nodup as) fun p hp => hsupply.fresh p (List.mem_append_left _ hp), fun _ => ⟨r, htree'⟩⟩
  | unprotect as scrub =>
    obtain rfl := step_unprotect hc h hallowed hstep
    obtain ⟨r, htree⟩ := h.tree as hallowed
    obtain ⟨-, hkpt, hframe⟩ := @Tree.unprotect _ _ _ _ _ s.vm scrub hc htree (h.nodup as)
    refine changes_update hkpt ?_ nofun ?_
    · intro t ht _
      exact hframe t fun p hp => ht p (.inr hp)
    · rintro as' ⟨⟩
      exact ⟨List.nodup_nil, fun hne => absurd rfl hne⟩
  | take p =>
    cases hstep
    refine changes_update rfl (fun _ _ _ => rfl) ?_ nofun
    intro q hq
    obtain rfl | hq := List.mem_cons.mp hq
    · exact .inr (hallowed.2 q List.mem_cons_self).2
    · exact .inl hq
  | store p row =>
    cases hstep
    refine ⟨rfl, fun _ _ => rfl, ?_, fun q hq => .inl hq, nofun⟩
    intro t ht _
    exact Function.update_of_ne (ht p (.inl hallowed)) _ _
  | give p =>
    cases hstep
    exact changes_update rfl (fun _ _ _ => rfl) (fun q hq => .inl (List.mem_of_mem_filter hq)) nofun

theorem Op.owner_ne : (op : Op w) → op.owner ≠ .kernel
  | .protect _ _ | .map _ _ _ _ _ | .unprotect _ _ => nofun
  | .take _ | .store _ _ | .give _ => nofun

/-- **A call keeps the invariant.** -/
theorem inv_step (hc : c.Sound) (h : Inv c s) {op : Op w} (hallowed : Allowed s op) (hstep : step c s op = .ok s') :
    Inv c s' :=
  (step_changes hc h hallowed hstep).inv h op.owner_ne

end Inv

/-! ## Runs -/

theorem Arch.sound : (arch : Arch) → arch.config.Sound
  | .i386 => i386_sound
  | .x86_64 => x86_64_sound

/-- The pages of the areas of the kernel. -/
theorem i386_pages : i386.kernelSteps (BitVec.ofNat 32 pgsize) =
    ((List.range 0x40000).map fun i => BitVec.ofNat 32 (i * pgsize)) ++
    (List.range 0x3000).map fun i => BitVec.ofNat 32 (0xfd000000 + i * pgsize) := by
  have h₁ := @steps_eq 32 0x40000000 (BitVec.ofNat 32 pgsize) 0 0x40000 (2 ^ 32) (by decide) (by decide) (by decide)
  have h₂ := @steps_eq 32 0 (BitVec.ofNat 32 pgsize) 0xfd000000 0x3000 (2 ^ 32) (by decide) (by decide) (by decide)
  rw [Config.kernelSteps]
  change steps 0x40000000 _ (2 ^ 32) 0 ++ (steps 0 _ (2 ^ 32) 0xfd000000 ++ []) = _
  rw [h₁, h₂, List.append_nil]
  refine congrArg₂ _ (List.map_congr_left fun i _ => ?_) (List.map_congr_left fun i _ => ?_)
  · exact BitVec.zero_add _
  · rw [BitVec.ofNat_add]
    rfl

theorem i386_pages_aligned : ∀ cur ∈ i386.kernelSteps (BitVec.ofNat 32 pgsize), Aligned cur := by
  have hofNat : ∀ n, pgsize ∣ n → Aligned (BitVec.ofNat 32 n) := by
    intro n hn
    refine aligned_of_dvd ?_
    rw [BitVec.toNat_ofNat]
    exact (Nat.dvd_mod_iff (by decide)).mpr hn
  intro cur hcur
  rw [i386_pages, List.mem_append] at hcur
  obtain hcur | hcur := hcur
  · obtain ⟨i, -, rfl⟩ := List.mem_map.mp hcur
    exact hofNat _ (Nat.dvd_mul_left _ _)
  · obtain ⟨i, -, rfl⟩ := List.mem_map.mp hcur
    exact hofNat _ (Nat.dvd_add (by decide) (Nat.dvd_mul_left _ _))

theorem inv_of_kernel {w : ℕ} {c : Config w} {vm : Vm w} {ks : List (BitVec w)} {k : BitVec w} (hk : k ∈ ks)
    (hkpt : vm.kpt = .page k) (huser : ∀ i ∈ c.kernelIdx, vm.mem (.page k) i &&& pteU = 0) :
    Inv c ⟨vm, kernelOnly ks⟩ := by
  refine ⟨⟨k, hk, hkpt⟩, ?_, fun as has => absurd rfl has, fun as => List.nodup_nil, fun o o' hne p hp hp' => ?_⟩
  · rw [hkpt]
    exact huser
  · cases o with
    | kernel =>
      cases o' with
      | kernel => exact hne rfl
      | space as => exact List.not_mem_nil hp'
      | data => exact List.not_mem_nil hp'
    | space as => exact List.not_mem_nil hp
    | data => exact List.not_mem_nil hp

/-- **`vme_init` begins a run with the invariant.** -/
theorem boot_inv {arch : Arch} {mem : Mem arch.width} {supply : List (BitVec arch.width)} {s : Sys arch.width}
    (hsupply : ∀ p ∈ supply, Aligned p) (h : boot arch mem supply = .ok s) : Inv arch.config s := by
  cases arch with
  | i386 =>
    simp only [boot, vmeInit32, ne_eq, not_true_eq_false, if_false, bind, Except.bind, pure, Except.pure] at h
    cases hmap : mapKernel (i386.kernelSteps (BitVec.ofNat 32 pgsize)) (Radix.put mem .boot 0 0) supply with
    | error e =>
      rw [hmap] at h
      cases h
    | ok t =>
      obtain ⟨mem', rest⟩ := t
      rw [hmap] at h
      have hne : i386.kernelSteps (BitVec.ofNat 32 pgsize) ≠ [] := by
        rw [i386_pages]
        simp
      obtain ⟨new, rfl, ⟨r, hr, hal, hroot⟩, huser⟩ := @mapKernel_booted _ _ _ _ [] _ i386_pages_aligned hne hsupply
        (.inl ⟨Radix.put_self, rfl⟩) hmap
      rw [List.append_nil] at hr huser
      have hkpt : baseof (mem' .boot 0) = r := by
        rw [hroot, BitVec.or_assoc, baseof_flags hal (flags_pteP.or flags_pteW)]
      simp only [hkpt] at h
      have hinv : Inv i386 ⟨⟨mem', .page r⟩, kernelOnly (taken (new ++ rest) rest)⟩ := by
        rw [taken_append]
        exact inv_of_kernel hr rfl fun i _ => huser r hr i
      obtain rfl := Except.ok.inj h
      exact hinv
  | x86_64 =>
    obtain rfl := Except.ok.inj h
    refine inv_of_kernel List.mem_cons_self rfl fun i hi => ?_
    change i ∈ x86_64.kernelIdx at hi
    rw [Config.kernelIdx, x86_64_kernelSteps, List.map_singleton, List.mem_singleton] at hi
    obtain rfl : i = 0 := hi
    by_contra hbit
    have hbit := (user_iff (by decide)).mp hbit
    have hlow := congrArg (fun e : BitVec 32 => e.getLsbD 2) (@start64_pml4 mem)
    simp only [BitVec.getLsbD_setWidth] at hlow
    change (true && (start64 mem (.page pml4Addr) 0).getLsbD 2) = false at hlow
    rw [Bool.true_and] at hlow
    exact Bool.false_ne_true (hlow.symm.trans hbit)

theorem inv_reached {w : ℕ} {c : Config w} (hc : c.Sound) {s₀ s : Sys w} (h₀ : Inv c s₀) (hrun : Reached c s₀ s) :
    Inv c s := by
  induction hrun with
  | refl => exact h₀
  | step _ hallowed hstep ih => exact inv_step hc ih hallowed hstep

/-- **`unprotect` gives back each table of its space once, and nothing else.** -/
theorem unprotect_frees {arch : Arch} {mem : Mem arch.width} {supply : List (BitVec arch.width)} {s₀ s : Sys arch.width}
    (hsupply : ∀ p ∈ supply, Aligned p) (hboot : boot arch mem supply = .ok s₀) (hrun : Reached arch.config s₀ s)
    {as : Space} (hlive : s.pages (.space as) ≠ []) (scrub : Scrub arch.width) :
    (unprotect arch.config scrub as s.vm).2.Perm ((s.pages (.space as)).map .page) ∧
    (unprotect arch.config scrub as s.vm).2.Nodup ∧
    ∀ o, o ≠ .space as → ∀ p ∈ s.pages o, .page p ∉ (unprotect arch.config scrub as s.vm).2 := by
  have h := inv_reached arch.sound (boot_inv hsupply hboot) hrun
  obtain ⟨r, htree⟩ := h.tree as hlive
  obtain ⟨hfreed, -, -⟩ := @Tree.unprotect _ _ _ _ _ s.vm scrub arch.sound htree (h.nodup as)
  rw [hfreed]
  refine ⟨htree.tables, htree.nodup (h.nodup as), fun o ho p hp hmem => ?_⟩
  obtain ⟨q, hq, heq⟩ := htree.mem_tables.mp hmem
  obtain rfl : q = p := Table.page.inj heq
  exact h.separate o _ ho hp hq

theorem bind_ok {α β : Type} {x : Exec α} {a : α} (h : x = .ok a) (f : α → Exec β) : (x >>= f) = f a := by
  rw [h]
  rfl

/-- A run on 64 bits: a `protect`, and a `map` of a page. -/
theorem sample_run : ∃ s₀ s₁ s₂ : Sys 64, boot .x86_64 (fun _ _ => 0x2003) [] = .ok s₀ ∧
    Allowed s₀ (.protect 0 [0x10000]) ∧ step x86_64 s₀ (.protect 0 [0x10000]) = .ok s₁ ∧
    Allowed s₁ (.map 0 0x100000000000 0x20000 1 [0x11000, 0x12000, 0x13000]) ∧
    step x86_64 s₁ (.map 0 0x100000000000 0x20000 1 [0x11000, 0x12000, 0x13000]) = .ok s₂ ∧
    s₂.pages (.space 0) = [0x11000, 0x12000, 0x13000, 0x10000] := by
  have hok : ∀ {x : Exec (Vm 64 × List (BitVec 64))}, x.toOption.map Prod.snd = some [] → ∃ vm, x = .ok (vm, []) := by
    rintro (e | ⟨vm, rest⟩) h
    · cases h
    · cases h
      exact ⟨vm, rfl⟩
  obtain ⟨s₀, hs₀⟩ : ∃ s₀ : Sys 64,
      s₀ = ⟨⟨start64 fun _ _ => 0x2003, .page pml4Addr⟩, kernelOnly [pml4Addr, pdptAddr]⟩ := ⟨_, rfl⟩
  have hboot : boot .x86_64 (fun _ _ => 0x2003) [] = .ok s₀ := by
    rw [hs₀]
    rfl
  obtain ⟨vm₁, hprotect⟩ : ∃ vm, protect x86_64 0 s₀.vm [0x10000] = .ok (vm, []) := hok (by rw [hs₀]; decide +kernel)
  have hmap₁ : (protect x86_64 0 s₀.vm [0x10000] >>= fun t =>
      map x86_64 0 0x100000000000 0x20000 1 t.1 [0x11000, 0x12000, 0x13000]).toOption.map Prod.snd = some [] := by
    rw [hs₀]
    decide +kernel
  rw [hprotect] at hmap₁
  obtain ⟨vm₂, hmap⟩ := hok hmap₁
  change map x86_64 0 0x100000000000 0x20000 1 vm₁ [0x11000, 0x12000, 0x13000] = _ at hmap
  obtain ⟨s₁, hs₁⟩ : ∃ s₁ : Sys 64, s₁ = ⟨vm₁, Function.update s₀.pages (.space 0) [0x10000]⟩ := ⟨_, rfl⟩
  obtain ⟨s₂, hs₂⟩ : ∃ s₂ : Sys 64,
      s₂ = ⟨vm₂, Function.update s₁.pages (.space 0) [0x11000, 0x12000, 0x13000, 0x10000]⟩ := ⟨_, rfl⟩
  have hstep₁ : step x86_64 s₀ (.protect 0 [0x10000]) = .ok s₁ := by
    rw [step, hprotect, hs₁, hs₀]
    rfl
  have hstep₂ : step x86_64 s₁ (.map 0 0x100000000000 0x20000 1 [0x11000, 0x12000, 0x13000]) = .ok s₂ := by
    rw [step, hs₁, hmap, hs₂, hs₁]
    rfl
  have hkernel : ∀ p : BitVec 64, p ∉ [pml4Addr, pdptAddr] → ∀ o, p ∉ kernelOnly [pml4Addr, pdptAddr] o := by
    rintro p hp (_ | _ | _)
    · exact List.not_mem_nil
    · exact hp
    · exact List.not_mem_nil
  have hallowed₁ : Allowed s₀ (.protect 0 [0x10000]) := by
    rw [hs₀]
    refine ⟨rfl, by decide, List.forall_mem_cons.mpr ⟨⟨rfl, hkernel _ (by decide)⟩, nofun⟩⟩
  have hallowed₂ : Allowed s₁ (.map 0 0x100000000000 0x20000 1 [0x11000, 0x12000, 0x13000]) := by
    have hspace : ∀ p : BitVec 64, p ∉ [pml4Addr, pdptAddr] → p ∉ ([0x10000] : List (BitVec 64)) →
        ∀ o, p ∉ s₁.pages o := by
      intro p hpk hp o
      rw [hs₁, hs₀]
      change p ∉ Function.update (kernelOnly [pml4Addr, pdptAddr]) (.space 0) [0x10000] o
      by_cases ho : o = .space 0
      · rwa [ho, Function.update_self]
      · rw [Function.update_of_ne ho]
        exact hkernel p hpk o
    refine ⟨by rw [hs₁]; exact List.cons_ne_nil _ _, by decide, ?_⟩
    exact List.forall_mem_cons.mpr ⟨⟨rfl, hspace _ (by decide) (by decide)⟩,
      List.forall_mem_cons.mpr ⟨⟨rfl, hspace _ (by decide) (by decide)⟩,
        List.forall_mem_cons.mpr ⟨⟨rfl, hspace _ (by decide) (by decide)⟩, nofun⟩⟩⟩
  refine ⟨s₀, s₁, s₂, hboot, hallowed₁, hstep₁, hallowed₂, hstep₂, ?_⟩
  rw [hs₂]
  exact Function.update_self (Owner.space 0) _ s₁.pages

/-- The `unprotect` after this run. -/
theorem unprotect_frees_map : ∃ s : Sys 64,
    (boot .x86_64 (fun _ _ => 0x2003) [] >>= fun s => step x86_64 s (.protect 0 [0x10000]) >>= fun s =>
      step x86_64 s (.map 0 0x100000000000 0x20000 1 [0x11000, 0x12000, 0x13000])) = .ok s ∧
    (unprotect x86_64 (fun _ _ => 7) 0 s.vm).2.Perm
      [.page 0x11000, .page 0x12000, .page 0x13000, .page 0x10000] := by
  obtain ⟨s₀, s₁, s₂, hboot, hallowed₁, hstep₁, hallowed₂, hstep₂, hpages⟩ := sample_run
  have hrun : Reached x86_64 s₀ s₂ := .step (.step .refl hallowed₁ hstep₁) hallowed₂ hstep₂
  refine ⟨s₂, ?_, ?_⟩
  · rw [bind_ok hboot, bind_ok hstep₁, hstep₂]
  · have hfrees := (@unprotect_frees .x86_64 (fun _ _ => 0x2003) [] s₀ s₂ nofun hboot hrun 0
      (by rw [hpages]; exact List.cons_ne_nil _ _) fun _ _ => 7).1
    rw [hpages] at hfrees
    exact hfrees

end Am.Qemu
