import Rv32i.Am.QemuRun

/-!
# AM on x86-qemu: what the processor translates

The processor walks the tables that `protect` and `map` leave, with levels and fields of its own.

* `walk`, `translate` — the walk of the processor, from the `ptr` of a space;
* `mapped` — what the pages of a space are mapped to, by the calls alone;
* `walk_links` — along links that are writable and the user's, the walk reads the entry of the page;
* `Holds`, `holds_run` — the entries of a space are those that the calls say, in every run;
* `translate_run` — so is what the processor translates.
-/

namespace Am.Qemu

/-! ## The processor -/

/-- The bits of an address that are the index at a level, and whether an entry of the level can be a large page. -/
structure Level where
  shift : ℕ
  bits : ℕ
  large : Bool

/-- On 32 bits `CR4.PSE` is clear, so that no page is large. -/
def Arch.levels : Arch → List Level
  | .i386 => [⟨22, 10, false⟩, ⟨12, 10, false⟩]
  | .x86_64 => [⟨39, 9, false⟩, ⟨30, 9, true⟩, ⟨21, 9, true⟩, ⟨12, 9, false⟩]

/-- The bits of a physical address: on 64 bits, an entry has it up to bit 51. -/
def Arch.physical : Arch → ℕ
  | .i386 => 32
  | .x86_64 => 52

structure Translation (w : ℕ) where
  pa : BitVec w
  writable : Bool
  user : Bool
  deriving DecidableEq

section Walk

variable {w : ℕ}

/-- The bits from `lo` up to `hi`, in their place. -/
def field (lo hi : ℕ) (e : BitVec w) : BitVec w := e >>> lo <<< lo &&& BitVec.ofNat w (2 ^ hi - 1)

/-- The walk of the processor, where `phys` is the number of bits of a physical address. -/
def walk (phys : ℕ) (mem : Mem w) (va : BitVec w) : List Level → Table w → Option (Translation w)
  | [], _ => none
  | level :: levels, pt =>
    let e := mem pt (va.toNat / 2 ^ level.shift % 2 ^ level.bits)
    let writable := decide (e &&& pteW ≠ 0)
    let user := decide (e &&& pteU ≠ 0)
    if e &&& pteP = 0 then none
    else if levels.isEmpty ∨ level.large ∧ e &&& ptePS ≠ 0 then
      some ⟨field level.shift phys e ||| field 0 level.shift va, writable, user⟩
    else (walk phys mem va levels (.page (field 12 phys e))).map fun t =>
      { t with writable := t.writable && writable, user := t.user && user }

end Walk

/-- What the processor translates when `CR3` has the `ptr` of a space. -/
def translate (arch : Arch) (vm : Vm arch.width) (as : Space) (va : BitVec arch.width) :
    Option (Translation arch.width) :=
  walk arch.physical vm.mem va arch.levels (.page (field 12 arch.physical (vm.mem (.ptr as) 0)))

/-- What it translates when `CR3` has `kpt`. -/
def translateKernel (arch : Arch) (vm : Vm arch.width) (va : BitVec arch.width) : Option (Translation arch.width) :=
  walk arch.physical vm.mem va arch.levels vm.kpt

/-! ## What the calls say -/

section Calls

variable {w : ℕ}

/-- The address that a page is mapped to, and whether the page is writable. -/
abbrev Pages (w : ℕ) := BitVec w → Option (BitVec w × Bool)

/-- What a call says about the pages of a space. -/
def Op.tell (as : Space) (m : Pages w) : Op w → Pages w
  | .protect as' _ => if as' = as then fun _ => none else m
  | .map as' va pa prot _ =>
    if as' = as then
      Function.update m va (if prot = mmapNone then none else some (pa, decide (prot &&& mmapWrite ≠ 0)))
    else m
  | _ => m

/-- What the calls of a run say about the pages of a space, where the last call is the last of the list. -/
def mapped (as : Space) (ops : List (Op w)) : Pages w := ops.foldl (fun m op => op.tell as m) fun _ => none

/-- Runs, with their calls. -/
inductive Trace (c : Config w) (s₀ : Sys w) : List (Op w) → Sys w → Prop
  | nil : Trace c s₀ [] s₀
  | snoc {ops : List (Op w)} {s s' : Sys w} {op : Op w} :
    Trace c s₀ ops s → Allowed s op → step c s op = .ok s' → Trace c s₀ (ops ++ [op]) s'

theorem Trace.reached {c : Config w} {s₀ s : Sys w} {ops : List (Op w)} (h : Trace c s₀ ops s) : Reached c s₀ s := by
  induction h with
  | nil => exact .refl
  | snoc _ hallowed hstep ih => exact .step ih hallowed hstep

/-- The pages that `pgalloc` returns, and the page that is mapped, have addresses of physical memory. -/
def Op.Physical (phys : ℕ) : Op w → Prop
  | .protect _ supply => ∀ p ∈ supply, p.toNat < 2 ^ phys
  | .map _ _ pa _ supply => pa.toNat < 2 ^ phys ∧ ∀ p ∈ supply, p.toNat < 2 ^ phys
  | _ => True

theorem mapped_snoc {as : Space} {ops : List (Op w)} {op : Op w} :
    mapped as (ops ++ [op]) = op.tell as (mapped as ops) := by
  rw [mapped, List.foldl_append]
  rfl

/-- A call for another owner says nothing. -/
theorem Op.tell_other {as : Space} {m : Pages w} {op : Op w} (h : op.owner ≠ .space as) : op.tell as m = m := by
  have hne : ∀ as', Owner.space as' ≠ .space as → as' ≠ as := fun as' hne heq => hne (congrArg _ heq)
  cases op with
  | protect as' supply => exact if_neg (hne as' h)
  | map as' va pa prot supply => exact if_neg (hne as' h)
  | unprotect as' scrub => rfl
  | take p => rfl
  | store p row => rfl
  | give p => rfl

end Calls

/-! ## Fields of entries -/

section Fields

variable {w phys lo hi i : ℕ} {e p pa va : BitVec w}

theorem field_bit : (field lo hi e).getLsbD i = (e.getLsbD i && decide (lo ≤ i ∧ i < hi)) := by
  rw [field, BitVec.getLsbD_and, BitVec.getLsbD_ofNat, Nat.testBit_two_pow_sub_one, BitVec.getLsbD_shiftLeft,
    BitVec.getLsbD_ushiftRight]
  by_cases hw : i < w
  · by_cases hlo : lo ≤ i
    · simp [hw, hlo, Nat.not_lt.mpr hlo]
    · simp [hlo, Nat.not_le.mp hlo]
  · simp [BitVec.getLsbD_of_ge e i (by omega), hw]

theorem bit_of_physical (hp : p.toNat < 2 ^ phys) (hi : phys ≤ i) : p.getLsbD i = false :=
  Nat.testBit_lt_two_pow (hp.trans_le (Nat.pow_le_pow_right (by decide) hi))

/-- The processor and `baseof` read the same address off an entry. -/
theorem field_eq_baseof (hp : (baseof e).toNat < 2 ^ phys) : field 12 phys e = baseof e := by
  refine BitVec.eq_of_getLsbD_eq fun i _ => ?_
  rw [field_bit]
  by_cases hi : i < phys
  · rw [baseof_bit]
    simp [hi]
  · rw [bit_of_physical hp (by omega)]
    simp [hi]

theorem large_iff (hw : 12 < w) : e &&& ptePS ≠ 0 ↔ e.getLsbD 7 = true := by
  rw [show (ptePS : BitVec w) = BitVec.twoPow w 7 from BitVec.eq_of_toNat_eq (by simp [ptePS])]
  exact and_twoPow_ne (by omega)

/-- What an entry of a leaf table translates to. -/
def leaf (phys shift : ℕ) (va e : BitVec w) : Option (Translation w) :=
  if e &&& pteP = 0 then none
  else some ⟨field shift phys e ||| field 0 shift va, decide (e &&& pteW ≠ 0), decide (e &&& pteU ≠ 0)⟩

/-- The entry that the calls say. -/
def entryOf : Option (BitVec w × Bool) → BitVec w
  | none => 0
  | some (pa, writable) => pa ||| pteP ||| pteU ||| if writable then pteW else 0

theorem pteOf_eq {prot : BitVec 32} :
    pteOf pa prot = entryOf (if prot = mmapNone then none else some (pa, decide (prot &&& mmapWrite ≠ 0))) := by
  rw [pteOf]
  by_cases hprot : prot = mmapNone
  · rw [if_pos hprot, if_pos hprot]
    rfl
  · rw [if_neg hprot, if_neg hprot, entryOf]
    simp only [decide_eq_true_eq]

theorem leaf_zero {shift : ℕ} : leaf phys shift va 0 = none := if_pos BitVec.zero_and

/-- **The entry of a page translates to the page.** -/
theorem leaf_entryOf (hw : 12 < w) {m : Option (BitVec w × Bool)}
    (hm : ∀ pa writable, m = some (pa, writable) → Aligned pa ∧ pa.toNat < 2 ^ phys) :
    leaf phys 12 va (entryOf m) = m.map fun page => ⟨page.1 ||| field 0 12 va, page.2, true⟩ := by
  obtain _ | ⟨pa, writable⟩ := m
  · exact leaf_zero
  obtain ⟨hal, hphys⟩ := hm pa writable rfl
  obtain ⟨f, hf, hflags, hbits⟩ : ∃ f, entryOf (some (pa, writable)) = pa ||| f ∧ Flags f ∧
      f.getLsbD 0 = true ∧ f.getLsbD 1 = writable ∧ f.getLsbD 2 = true := by
    refine ⟨pteP ||| pteU ||| if writable then pteW else 0, ?_, ?_, ?_⟩
    · rw [entryOf, BitVec.or_assoc, BitVec.or_assoc, BitVec.or_assoc]
    · refine (flags_pteP.or flags_pteU).or ?_
      split
      · exact flags_pteW
      · exact BitVec.zero_and
    · cases writable <;> simp [pteP_bit hw, pteU_bit hw, pteW_bit hw]
  obtain ⟨hP, hW, hU⟩ := hbits
  have hbase : baseof (pa ||| f) = pa := baseof_flags hal hflags
  have hbit : ∀ j < 12, (pa ||| f).getLsbD j = f.getLsbD j := by
    intro j hj
    rw [BitVec.getLsbD_or, hal.bit hj, Bool.false_or]
  have hpresent : (pa ||| f) &&& pteP ≠ 0 := by rw [present_iff hw, hbit 0 (by omega), hP]
  have hwritable : decide ((pa ||| f) &&& pteW ≠ 0) = writable := by
    rw [Bool.decide_congr (writable_iff hw), hbit 1 (by omega), hW, Bool.decide_eq_true]
  have huser : (pa ||| f) &&& pteU ≠ 0 := by rw [user_iff hw, hbit 2 (by omega), hU]
  rw [hf, leaf, if_neg hpresent, field_eq_baseof (by rwa [hbase]), hbase, hwritable, decide_eq_true huser]
  rfl

end Fields

/-! ## The walk along the links of a space -/

section Links

variable {w phys : ℕ} {mem : Mem w} {va : BitVec w} {pt pt' : Table w} {infos : List (PtInfo w)} {last : PtInfo w}

/-- The level of a row. -/
def PtInfo.level (large : PtInfo w → Bool) (info : PtInfo w) : Level := ⟨info.shift, info.bits, large info⟩

/-- **Along links that are writable, the user's and of no large page, the walk reads the entry behind the links.** -/
theorem walk_links (hw : 12 < w) {idx : List ℕ} {large : PtInfo w → Bool}
    (hcovers : ∀ info ∈ infos ++ [last], info.Covers) (hidx : ∀ info ∈ infos, indexof va info ∈ idx)
    (halong : Radix.Along link UserOk mem (infos.map (indexof va)) pt)
    (hlinks : Radix.Links link idx Linked mem infos.length pt)
    (hphys : ∀ p, .page p ∈ Radix.tables link idx mem infos.length pt → p.toNat < 2 ^ phys) :
    walk phys mem va ((infos ++ [last]).map (PtInfo.level large)) pt =
      leaf phys last.shift va (Radix.entry link 0 mem (infos.map (indexof va)) pt (indexof va last)) := by
  induction infos generalizing pt with
  | nil =>
    have hindex := @indexof_eq _ _ va (hcovers last List.mem_cons_self)
    rw [List.nil_append, List.map_singleton, walk]
    change (if mem pt (va.toNat / 2 ^ last.shift % 2 ^ last.bits) &&& pteP = 0 then none else some _) =
      leaf phys last.shift va (mem pt (indexof va last))
    rw [hindex]
    rfl
  | cons info infos ih =>
    obtain ⟨hcover, hcovers⟩ := List.forall_mem_cons.mp hcovers
    obtain ⟨hi, hidx⟩ := List.forall_mem_cons.mp hidx
    obtain ⟨huser, halong⟩ := halong
    have hindex := @indexof_eq _ _ va hcover
    rw [List.cons_append, List.map_cons, List.map_cons, walk, Radix.entry]
    simp only [PtInfo.level, ← hindex]
    by_cases hp : mem pt (indexof va info) &&& pteP = 0
    · have hlink : link (mem pt (indexof va info)) = none := by rw [link_of_user huser, if_pos hp]
      rw [if_pos hp, hlink, Option.elim_none, leaf_zero]
    · have hlink : link (mem pt (indexof va info)) = some (.page (baseof (mem pt (indexof va info)))) := by
        rw [link_of_user huser, if_neg hp]
      obtain ⟨⟨hW, hU, hPS⟩, hlinks⟩ := hlinks _ hi _ hlink
      have hchild := @Radix.child_subset _ _ _ link idx mem infos.length _ _ _ hi hlink
      have hsmall : mem pt (indexof va info) &&& ptePS = 0 := by
        by_contra h
        exact Bool.false_ne_true (hPS.symm.trans ((large_iff hw).mp h))
      have hW : decide (mem pt (indexof va info) &&& pteW ≠ 0) = true := decide_eq_true ((writable_iff hw).mpr hW)
      have hU : decide (mem pt (indexof va info) &&& pteU ≠ 0) = true := decide_eq_true ((user_iff hw).mpr hU)
      have hbase := field_eq_baseof (hphys _ (hchild Radix.self_mem_tables))
      rw [if_neg hp, if_neg (by simp [hsmall]), hbase, hlink, Option.elim_some, hW, hU]
      rw [← ih hcovers hidx (halong _ hlink) hlinks fun p hp => hphys p (hchild hp)]
      simp only [Bool.and_true, Option.map_id']

/-- Two tables with the same entry for an address translate it to the same. -/
theorem walk_congr {level : Level} {levels : List Level}
    (h : mem pt (va.toNat / 2 ^ level.shift % 2 ^ level.bits) =
      mem pt' (va.toNat / 2 ^ level.shift % 2 ^ level.bits)) :
    walk phys mem va (level :: levels) pt = walk phys mem va (level :: levels) pt' := by
  rw [walk, walk, h]

end Links

/-! ## The levels of the configurations -/

/-- The levels of the processor are the rows of `pgtables` behind the first. -/
theorem Arch.levels_eq (arch : Arch) :
    ∃ large, arch.levels = (arch.config.inner ++ [arch.config.last]).map (PtInfo.level large) := by
  cases arch with
  | i386 => exact ⟨fun _ => false, rfl⟩
  | x86_64 => exact ⟨fun info => info.shift = 30 ∨ info.shift = 21, rfl⟩

section Tree

variable {arch : Arch} {vm : Vm arch.width} {as : Space} {r : BitVec arch.width} {owned : List (BitVec arch.width)}
  {va : BitVec arch.width}

theorem Tree.field_ptr (h : Tree arch.config vm.mem vm.kpt as r owned)
    (hphys : ∀ p ∈ owned, p.toNat < 2 ^ arch.physical) :
    field 12 arch.physical (vm.mem (.ptr as) 0) = r := by
  have hbase : baseof (vm.mem (.ptr as) 0) = r := by
    rw [h.ptr, BitVec.or_assoc, baseof_flags h.aligned (flags_pteP.or flags_pteU)]
  rw [field_eq_baseof, hbase]
  rw [hbase]
  exact hphys r h.root_mem

/-- **A user address is translated by the entry of its page.** -/
theorem Tree.translate_user (h : Tree arch.config vm.mem vm.kpt as r owned) (hnodup : owned.Nodup)
    (hphys : ∀ p ∈ owned, p.toNat < 2 ^ arch.physical)
    (hlinks : Radix.Links link arch.config.idx Linked vm.mem arch.config.inner.length (.page r))
    (hva : inRange va arch.config.uvmArea) :
    translate arch vm as va = leaf arch.physical 12 va
      (Radix.entry link 0 vm.mem (arch.config.path va) (.page r) (indexof va arch.config.last)) := by
  have hc := arch.sound
  obtain ⟨large, hlevels⟩ := arch.levels_eq
  rw [translate, h.field_ptr hphys, hlevels, walk_links hc.width hc.covers
    (fun info hinfo => indexof_mem_idx hc (List.mem_append_left _ hinfo) va) (h.along hc hnodup hva) hlinks, hc.last]
  · rfl
  · intro p hp
    obtain ⟨q, hq, heq⟩ := h.mem_tables.mp hp
    obtain rfl := Table.page.inj heq
    exact hphys q hq

/-- **A kernel address is translated as by `kpt`.** -/
theorem Tree.translate_kernel (h : Tree arch.config vm.mem vm.kpt as r owned)
    (hphys : ∀ p ∈ owned, p.toNat < 2 ^ arch.physical) {area : VmArea arch.width}
    (harea : area ∈ arch.config.kernelAreas) (hva : inArea va area) : translate arch vm as va = translateKernel arch vm va := by
  have hc := arch.sound
  obtain ⟨large, hlevels⟩ := arch.levels_eq
  obtain ⟨infos, hinner⟩ := hc.inner
  have hroot : arch.config.root ∈ arch.config.inner ++ [arch.config.last] := by
    rw [hinner]
    exact List.mem_cons_self
  have hentry := h.kernel _ (hc.kernel va area harea hva)
  rw [indexof_eq (hc.covers _ hroot)] at hentry
  rw [translate, translateKernel, h.field_ptr hphys, hlevels, hinner]
  exact walk_congr hentry

end Tree

/-! ## Runs -/

section Holds

variable {w phys : ℕ} {c : Config w} {s s' : Sys w} {as : Space} {r : BitVec w} {m : Pages w} {op : Op w}

/-- The tree of a space has the entries of the pages `m`. -/
structure Holds (c : Config w) (phys : ℕ) (s : Sys w) (as : Space) (r : BitVec w) (m : Pages w) : Prop where
  tree : Tree c s.vm.mem s.vm.kpt as r (s.pages (.space as))
  physical : ∀ p ∈ s.pages (.space as), p.toNat < 2 ^ phys
  pages : ∀ va pa writable, m va = some (pa, writable) → Aligned pa ∧ pa.toNat < 2 ^ phys
  links : Radix.Links link c.idx Linked s.vm.mem c.inner.length (.page r)
  entry : ∀ va, inRange va c.uvmArea →
    Radix.entry link 0 s.vm.mem (c.path va) (.page r) (indexof va c.last) = entryOf (m (baseof va))

/-- **A call for another owner leaves the entries of a space.** -/
theorem Holds.other (hc : c.Sound) (hinv : Inv c s) (h : Holds c phys s as r m) (hallowed : Allowed s op)
    (hstep : step c s op = .ok s') (hop : op.owner ≠ .space as) : Holds c phys s' as r m := by
  have hch := step_changes hc hinv hallowed hstep
  have hpages : s'.pages (.space as) = s.pages (.space as) := hch.pages _ hop.symm
  have hkeeps := hch.keeps hinv hop.symm
  have hptr : s'.vm.mem (.ptr as) = s.vm.mem (.ptr as) := by
    refine hch.mem _ (fun _ _ => Table.ptr_ne) ?_
    rintro as' heq ⟨⟩
    exact hop heq
  have hkpt : s'.vm.mem s.vm.kpt = s.vm.mem s.vm.kpt := by
    obtain ⟨k, hk, hkeq⟩ := hinv.kpt
    rw [hkeq]
    exact hch.keeps hinv op.owner_ne.symm k hk
  have htables : ∀ t ∈ Radix.tables link c.idx s.vm.mem c.inner.length (.page r), s'.vm.mem t = s.vm.mem t := by
    intro t ht
    obtain ⟨p, hp, rfl⟩ := h.tree.mem_tables.mp ht
    exact hkeeps p hp
  refine ⟨?_, ?_, h.pages, Radix.links_congr htables h.links, fun va hva => ?_⟩
  · rw [hch.kpt, hpages]
    exact h.tree.congr hptr hkeeps hkpt
  · rw [hpages]
    exact h.physical
  · rw [← h.entry va hva]
    rw [← @path_length _ c va] at htables
    exact Radix.entry_congr htables (path_mem_idx hc va)

theorem holds_update {vm : Vm w} {ps : List (BitVec w)} (htree : Tree c vm.mem vm.kpt as r ps)
    (hphys : ∀ p ∈ ps, p.toNat < 2 ^ phys)
    (hpages : ∀ va pa writable, m va = some (pa, writable) → Aligned pa ∧ pa.toNat < 2 ^ phys)
    (hlinks : Radix.Links link c.idx Linked vm.mem c.inner.length (.page r))
    (hentry : ∀ va, inRange va c.uvmArea →
      Radix.entry link 0 vm.mem (c.path va) (.page r) (indexof va c.last) = entryOf (m (baseof va))) :
    Holds c phys ⟨vm, Function.update s.pages (.space as) ps⟩ as r m := by
  refine ⟨?_, ?_, hpages, hlinks, hentry⟩
  · change Tree c vm.mem vm.kpt as r (Function.update s.pages (.space as) ps (.space as))
    rwa [Function.update_self]
  · change ∀ p ∈ Function.update s.pages (.space as) ps (.space as), p.toNat < 2 ^ phys
    rwa [Function.update_self]

/-- **After `protect` a space has no page.** -/
theorem holds_protect (hc : c.Sound) (hinv : Inv c s) {supply : List (BitVec w)}
    (hallowed : Allowed s (.protect as supply)) (hstep : step c s (.protect as supply) = .ok s')
    (hphys : ∀ p ∈ supply, p.toNat < 2 ^ phys) : ∃ r, Holds c phys s' as r fun _ => none := by
  obtain ⟨vm, rest, hcall, rfl⟩ := step_protect hstep
  have hempty : s.pages (.space as) = [] := hallowed.1
  have hsupply := hinv.supply hallowed.2 (.space as)
  rw [hempty] at hsupply
  obtain ⟨r, rfl, hkpt, htree, -, hclear⟩ := protect_tree hinv.noUser (hinv.kpt_ne_ptr as) hsupply hcall
  have hinv' := inv_step hc hinv hallowed hstep
  have htaken : taken (r :: rest) rest = [r] := @taken_append _ [r] rest
  rw [htaken, hempty] at hinv' ⊢
  have hlink : ∀ i, link (vm.mem (.page r) i) = none := by
    intro i
    by_cases hi : i ∈ c.kernelIdx
    · rw [htree.kernel i hi, ← hkpt]
      exact link_of_kernel (hinv'.noUser i hi)
    · rw [hclear i hi, link_zero]
  refine ⟨r, holds_update ?_ ?_ (fun va pa writable => nofun) (Radix.links_of_clear hlink) fun va _ => ?_⟩
  · rw [hkpt]
    exact htree
  · intro p hp
    obtain rfl := List.mem_singleton.mp hp
    exact hphys p List.mem_cons_self
  · obtain ⟨infos, -, hpath⟩ := path_cons hc va
    rw [hpath, Radix.entry, hlink]
    rfl

/-- **A `map` stores the entry of its page.** -/
theorem Holds.map (hc : c.Sound) (hinv : Inv c s) (h : Holds c phys s as r m) {va pa : BitVec w} {prot : BitVec 32}
    {supply : List (BitVec w)} (hallowed : Allowed s (.map as va pa prot supply))
    (hstep : step c s (.map as va pa prot supply) = .ok s') (hpa : pa.toNat < 2 ^ phys)
    (hphys : ∀ p ∈ supply, p.toNat < 2 ^ phys) :
    Holds c phys s' as r ((Op.map as va pa prot supply).tell as m) := by
  obtain ⟨hlive, hfresh⟩ := hallowed
  obtain ⟨vm, rest, hcall, rfl⟩ := step_map hstep
  have hsupply := hinv.supply hfresh (.space as)
  obtain ⟨new, rfl, hkpt, htree, hlinks, -, -, hentry⟩ :=
    h.tree.map hc (hinv.nodup as) (hinv.kpt_ne nofun) hsupply hcall
  obtain ⟨hva, hval, hpal, -⟩ := map_ok hcall
  have htell : (Op.map as va pa prot (new ++ rest)).tell as m = Function.update m va
      (if prot = mmapNone then none else some (pa, decide (prot &&& mmapWrite ≠ 0))) := if_pos rfl
  rw [taken_append, htell]
  refine holds_update ?_ ?_ ?_ (hlinks h.links) fun va' hva' => ?_
  · rw [hkpt]
    exact htree
  · intro p hp
    obtain hp | hp := List.mem_append.mp hp
    · exact hphys p (List.mem_append_left _ hp)
    · exact h.physical p hp
  · intro va' pa' writable hm
    by_cases heq : va' = va
    · rw [heq, Function.update_self] at hm
      split at hm
      · cases hm
      · cases hm
        exact ⟨hpal, hpa⟩
    · rw [Function.update_of_ne heq] at hm
      exact h.pages va' pa' writable hm
  · have hpage := hc.page va' va hva' hva
    rw [hval] at hpage
    rw [hentry _ _ path_length (path_mem_idx hc va')]
    by_cases heq : baseof va' = va
    · rw [if_pos (hpage.mpr heq), heq, Function.update_self, pteOf_eq]
    · rw [if_neg fun hsame => heq (hpage.mp hsame), Function.update_of_ne heq, h.entry va' hva']

/-- **In every run the entries of a space are those that the calls say.** -/
theorem holds_run (hc : c.Sound) {s₀ : Sys w} (h₀ : Inv c s₀) (hempty : ∀ as, s₀.pages (.space as) = [])
    {ops : List (Op w)} (hrun : Trace c s₀ ops s) (hphys : ∀ op ∈ ops, op.Physical phys)
    (hlive : s.pages (.space as) ≠ []) : ∃ r, Holds c phys s as r (mapped as ops) := by
  induction hrun with
  | nil => exact absurd (hempty as) hlive
  | @snoc ops s s' op hrun hallowed hstep ih =>
    have hinv := inv_reached hc h₀ hrun.reached
    obtain ⟨hbefore, hop⟩ := List.forall_mem_append.mp hphys
    have hop := hop op List.mem_cons_self
    rw [mapped_snoc]
    by_cases hown : op.owner = .space as
    swap
    · have hpages := (step_changes hc hinv hallowed hstep).pages _ (Ne.symm hown)
      rw [hpages] at hlive
      obtain ⟨r, hr⟩ := ih hbefore hlive
      rw [Op.tell_other hown]
      exact ⟨r, hr.other hc hinv hallowed hstep hown⟩
    cases op with
    | protect as' supply =>
      obtain rfl : as' = as := Owner.space.inj hown
      obtain ⟨r, hr⟩ := holds_protect hc hinv hallowed hstep hop
      refine ⟨r, ?_⟩
      rw [Op.tell, if_pos rfl]
      exact hr
    | map as' va pa prot supply =>
      obtain rfl : as' = as := Owner.space.inj hown
      obtain ⟨r, hr⟩ := ih hbefore hallowed.1
      exact ⟨r, hr.map hc hinv hallowed hstep hop.1 hop.2⟩
    | unprotect as' scrub =>
      obtain rfl : as' = as := Owner.space.inj hown
      rw [step_unprotect hc hinv hallowed hstep] at hlive
      exact absurd (Function.update_self ..) hlive
    | take p => cases hown
    | store p row => cases hown
    | give p => cases hown

end Holds

theorem Holds.translate {arch : Arch} {s : Sys arch.width} {as : Space} {r : BitVec arch.width} {m : Pages arch.width}
    (h : Holds arch.config arch.physical s as r m) (hnodup : (s.pages (.space as)).Nodup) {va : BitVec arch.width}
    (hva : inRange va arch.config.uvmArea) :
    translate arch s.vm as va = (m (baseof va)).map fun page => ⟨page.1 ||| field 0 12 va, page.2, true⟩ := by
  rw [h.tree.translate_user hnodup h.physical h.links hva, h.entry va hva, leaf_entryOf arch.sound.width]
  exact h.pages (baseof va)

theorem boot_pages {arch : Arch} {mem : Mem arch.width} {supply : List (BitVec arch.width)} {s : Sys arch.width}
    (h : boot arch mem supply = .ok s) (as : Space) : s.pages (.space as) = [] := by
  cases arch with
  | i386 =>
    rw [boot] at h
    cases hinit : vmeInit32 0 mem supply with
    | error e =>
      rw [hinit] at h
      cases h
    | ok t =>
      rw [hinit] at h
      obtain rfl := Except.ok.inj h
      rfl
  | x86_64 =>
    obtain rfl := Except.ok.inj h
    rfl

/-- **The processor translates a user address as the calls for the space say, and a kernel address as by `kpt`; a call
for another space changes nothing.** -/
theorem translate_run {arch : Arch} {mem : Mem arch.width} {supply : List (BitVec arch.width)} {s₀ s : Sys arch.width}
    {ops : List (Op arch.width)} (hsupply : ∀ p ∈ supply, Aligned p) (hboot : boot arch mem supply = .ok s₀)
    (hrun : Trace arch.config s₀ ops s) (hphys : ∀ op ∈ ops, op.Physical arch.physical) {as : Space}
    (hlive : s.pages (.space as) ≠ []) :
    (∀ va, inRange va arch.config.uvmArea → translate arch s.vm as va =
      (mapped as ops (baseof va)).map fun page => ⟨page.1 ||| field 0 12 va, page.2, true⟩) ∧
    (∀ area ∈ arch.config.kernelAreas, ∀ va, inArea va area →
      translate arch s.vm as va = translateKernel arch s.vm va) ∧
    ∀ op s', op.owner ≠ .space as → Allowed s op → step arch.config s op = .ok s' →
      ∀ va, inRange va arch.config.uvmArea → translate arch s'.vm as va = translate arch s.vm as va := by
  have h₀ := boot_inv hsupply hboot
  have hinv := inv_reached arch.sound h₀ hrun.reached
  obtain ⟨r, h⟩ := holds_run arch.sound h₀ (boot_pages hboot) hrun hphys hlive
  refine ⟨fun va hva => h.translate (hinv.nodup as) hva, ?_, ?_⟩
  · exact fun area harea va hva => h.tree.translate_kernel h.physical harea hva
  · intro op s' hop hallowed hstep va hva
    have hinv' := inv_step arch.sound hinv hallowed hstep
    have h' := h.other arch.sound hinv hallowed hstep hop
    rw [h'.translate (hinv'.nodup as) hva, h.translate (hinv.nodup as) hva]

/-- After a `protect` and a `map` for reading, the page is there and the next one is not. -/
theorem translate_run_map : ∃ s : Sys 64,
    (boot .x86_64 (fun _ _ => 0x2003) [] >>= fun s => step x86_64 s (.protect 0 [0x10000]) >>= fun s =>
      step x86_64 s (.map 0 0x100000000000 0x20000 1 [0x11000, 0x12000, 0x13000])) = .ok s ∧
    translate .x86_64 s.vm 0 0x100000000abc = some ⟨0x20abc, false, true⟩ ∧
    translate .x86_64 s.vm 0 0x100000001abc = none ∧
    translate .x86_64 s.vm 0 0x30000 = translateKernel .x86_64 s.vm 0x30000 := by
  obtain ⟨s₀, s₁, s₂, hboot, hallowed₁, hstep₁, hallowed₂, hstep₂, hpages⟩ := sample_run
  have hrun := Trace.snoc (.snoc .nil hallowed₁ hstep₁) hallowed₂ hstep₂
  have hsupply : ∀ p ∈ [0x10000, 0x11000, 0x12000, 0x13000, (0x20000 : BitVec 64)], p.toNat < 2 ^ 52 := by simp
  have hphys : ∀ op ∈ [.protect 0 [0x10000], .map 0 0x100000000000 0x20000 1 [0x11000, 0x12000, 0x13000]],
      @Op.Physical 64 52 op := by
    refine List.forall_mem_cons.mpr ⟨?_, List.forall_mem_singleton.mpr ⟨?_, ?_⟩⟩
    · exact fun p hp => hsupply p (List.mem_of_mem_take (i := 1) hp)
    · exact hsupply _ (by decide)
    · exact fun p hp => hsupply p (by simp at hp; grind)
  obtain ⟨huser, hkernel, -⟩ := @translate_run .x86_64 (fun _ _ => 0x2003) [] s₀ s₂ _ nofun hboot hrun hphys 0
    (by rw [hpages]; exact List.cons_ne_nil _ _)
  refine ⟨s₂, ?_, ?_, ?_, ?_⟩
  · rw [bind_ok hboot, bind_ok hstep₁, hstep₂]
  · rw [huser _ (by decide)]
    decide
  · rw [huser _ (by decide)]
    decide
  · have hva : (0x30000 : BitVec 64) - 0 < 0x008000000000 - 0 := by decide
    exact hkernel _ List.mem_cons_self _ hva

end Am.Qemu
