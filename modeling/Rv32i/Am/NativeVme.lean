import Mathlib.Data.List.Induction
import Rv32i.Lib.Chain

/-!
# AM on the native platform: address spaces

`src/native/vme.c`: an address space keeps its pages in a list, and a hash table that finds the page of a virtual
address.  `map` adds to both, `__am_switch` walks along the lists of two address spaces.

* `listForeach` with `listForeach_eq`, `listForeach_chain` — the walk ends just on chains;
* `Inv`, `inv_run` — what holds in every run;
* `run_iff` — in which runs the lists hold every page once, with its last mapping, and the switches do their work.
-/

namespace Am.Native

abbrev Addr := BitVec 64

/-- The number of an allocation of a `PageMap`. -/
abbrev Node := ℕ

/-- The number of a `VMHead`. -/
abbrev Space := ℕ

abbrev Prot := BitVec 32

inductive Fault
  | assert
  /-- The fuel of a loop is used up. -/
  | fuel
  deriving DecidableEq

abbrev Exec := Except Fault

/-! ## The data -/

/-- The key is what the hash table has. -/
structure PageMap where
  va : Addr
  pa : Addr
  next : Option Node
  prot : Prot
  isMapped : Bool

structure VMHead where
  head : Option Node
  hash : BitVec 32 → Option Node
  nrPage : ℕ

/-- What the host is asked to do with pages. -/
inductive HostCall
  | pmemMap (va pa : Addr) (prot : Prot)
  | pmemUnmap (va : Addr)
  deriving DecidableEq

structure Vm where
  vmeEnable : Bool
  pages : Node → PageMap
  /-- What `pgalloc` returns next. -/
  fresh : Node
  heads : Space → VMHead
  /-- `thiscpu->vm_head` -/
  vmHead : Option Space
  calls : List HostCall

/-- The links of the pages. -/
def Vm.next (s : Vm) (x : Node) : Option Node := (s.pages x).next

/-- `IN_RANGE(va, USER_SPACE)` -/
def inUserSpace (va : Addr) : Bool := 0x40000000 ≤ va ∧ va < 0xc0000000

/-- What `%x` prints of an address: its lower 32 bits. -/
def keyOf (va : Addr) : BitVec 32 := va.setWidth 32

/-! ## `map` -/

/-- The page of a key: the one that the table has, or one that is allocated and entered. -/
def findOrEnter (s : Vm) (as : Space) (key : BitVec 32) : Node × Vm :=
  match (s.heads as).hash key with
  | some pp => (pp, s)
  | none => (s.fresh, { s with
      fresh := s.fresh + 1
      heads := Function.update s.heads as { s.heads as with
        hash := Function.update (s.heads as).hash key (some s.fresh)
        nrPage := (s.heads as).nrPage + 1 } })

def map (pgsize : ℕ) (as : Space) (va pa : Addr) (prot : Prot) (s : Vm) : Exec Vm := do
  if ¬ inUserSpace va then throw .assert
  if ¬ va.toNat % pgsize = 0 then throw .assert
  if ¬ pa.toNat % pgsize = 0 then throw .assert
  let (pp, s) := findOrEnter s as (keyOf va)
  let s := { s with
    pages := Function.update s.pages pp ⟨va, pa, (s.heads as).head, prot, false⟩
    heads := Function.update s.heads as { s.heads as with head := some pp } }
  if s.vmHead = some as then
    -- enforce the map immediately
    return { s with
      calls := s.calls ++ [.pmemMap va pa prot]
      pages := Function.update s.pages pp { s.pages pp with isMapped := true } }
  return s

/-! ## `__am_switch` -/

/-- `list_foreach(p, head)`, with fuel for the nodes that are visited. -/
def listForeach (body : Node → Vm → Exec Vm) : ℕ → Option Node → Vm → Exec Vm
  | 0, _, _ => .error .fuel
  | _ + 1, none, s => .ok s
  | fuel + 1, some pp, s => body pp s >>= fun s => listForeach body fuel (s.pages pp).next s

def unmapPage (pp : Node) (s : Vm) : Exec Vm :=
  if (s.pages pp).isMapped then
    .ok { s with
      calls := s.calls ++ [.pmemUnmap (s.pages pp).va]
      pages := Function.update s.pages pp { s.pages pp with isMapped := false } }
  else .ok s

def mapPage (pp : Node) (s : Vm) : Exec Vm :=
  if ¬ inUserSpace (s.pages pp).va then .error .assert
  else .ok { s with
    calls := s.calls ++ [.pmemMap (s.pages pp).va (s.pages pp).pa (s.pages pp).prot]
    pages := Function.update s.pages pp { s.pages pp with isMapped := true } }

/-- The first page of an address space, `NULL` of none. -/
def Vm.first (s : Vm) (head : Option Space) : Option Node := head.bind fun as => (s.heads as).head

/-- `__am_switch`, to the address space of the context. -/
def amSwitch (fuel : ℕ) (head : Option Space) (s : Vm) : Exec Vm := do
  if ¬ s.vmeEnable then return s
  if head = s.vmHead then return { s with vmHead := head }
  let s ← listForeach unmapPage fuel (s.first s.vmHead) s
  let s ← listForeach mapPage fuel (s.first head) s
  return { s with vmHead := head }

/-! ## Runs -/

inductive Op
  | map (as : Space) (va pa : Addr) (prot : Prot)
  | switch (head : Option Space)

/-- The operation, carried out in `s`, ends in `s'`. -/
def Op.Does (pgsize : ℕ) : Op → Vm → Vm → Prop
  | .map as va pa prot, s, s' => Native.map pgsize as va pa prot s = .ok s'
  | .switch head, s, s' => ∃ fuel, amSwitch fuel head s = .ok s'

/-- Behind `vme_init` and a `protect` of every address space. -/
def Vm.boot (pages : Node → PageMap) : Vm where
  vmeEnable := true
  pages := pages
  fresh := 0
  heads _ := ⟨none, fun _ => none, 0⟩
  vmHead := none
  calls := []

/-- A sequence of operations that all end. -/
inductive Runs (pgsize : ℕ) (pages : Node → PageMap) : List Op → Vm → Prop
  | boot : Runs pgsize pages [] (Vm.boot pages)
  | snoc {ops : List Op} {s s' : Vm} {op : Op} : Runs pgsize pages ops s → op.Does pgsize s s' →
      Runs pgsize pages (ops ++ [op]) s'

/-- The address that an operation maps in an address space. -/
def Op.mapped (as : Space) : Op → Option Addr
  | .map as' va _ _ => if as' = as then some va else none
  | .switch _ => none

/-- No address is mapped twice in the address space. -/
def NoRemap (ops : List Op) (as : Space) : Prop := (ops.filterMap (Op.mapped as)).Nodup

/-- What an operation makes of the mapping of an address. -/
def Op.update (as : Space) (va : Addr) (r : Option (Addr × Prot)) : Op → Option (Addr × Prot)
  | .map as' va' pa prot => if as' = as ∧ va' = va then some (pa, prot) else r
  | .switch _ => r

/-- The most recent mapping of an address. -/
def lastMap (ops : List Op) (as : Space) (va : Addr) : Option (Addr × Prot) :=
  ops.foldl (fun r op => op.update as va r) none

/-! ## Loops over a list -/

section Foreach

variable {body : Node → Vm → Exec Vm} {s s' : Vm} {p : Option Node} {l : List Node} {fuel : ℕ}

/-- The loop body leaves the links alone. -/
def KeepsLinks (body : Node → Vm → Exec Vm) : Prop := ∀ x s s', body x s = .ok s' → s'.next = s.next

/-- **The loop goes along a chain.** -/
theorem listForeach_eq (hb : KeepsLinks body) (h : Chain s.next p l) (hf : l.length < fuel) :
    listForeach body fuel p s = l.foldlM (fun s x => body x s) s := by
  induction l generalizing fuel p s with
  | nil =>
    obtain rfl : p = none := h
    obtain ⟨n, rfl⟩ : ∃ n, fuel = n + 1 := ⟨fuel - 1, by omega⟩
    rfl
  | cons x l ih =>
    obtain ⟨rfl, hl⟩ := h
    obtain ⟨n, rfl⟩ : ∃ n, fuel = n + 1 := ⟨fuel - 1, by omega⟩
    rw [List.length_cons] at hf
    show (body x s >>= fun s => listForeach body n (s.pages x).next s) = _
    rw [List.foldlM_cons]
    cases hs : body x s with
    | error e => rfl
    | ok s₁ =>
      have hnext := hb x s s₁ hs
      have hl₁ : Chain s₁.next (s₁.pages x).next l := by
        show Chain s₁.next (s₁.next x) l
        rw [hnext]
        exact hl
      exact ih hl₁ (by omega)

/-- **A loop that ends has gone along a chain.** -/
theorem listForeach_chain (hb : KeepsLinks body) (h : listForeach body fuel p s = .ok s') :
    ∃ l, Chain s.next p l ∧ l.length < fuel := by
  induction fuel generalizing p s with
  | zero => cases h
  | succ n ih =>
    cases p with
    | none => exact ⟨[], rfl, n.succ_pos⟩
    | some x =>
      change (body x s >>= fun s => listForeach body n (s.pages x).next s) = .ok s' at h
      cases hs : body x s with
      | error e =>
        rw [hs] at h
        cases h
      | ok s₁ =>
        rw [hs] at h
        obtain ⟨l, hl, hlen⟩ := ih h
        have hnext := hb x s s₁ hs
        rw [hnext] at hl
        refine ⟨x :: l, ⟨rfl, ?_⟩, by rw [List.length_cons]; omega⟩
        have hx : (s₁.pages x).next = s.next x := congrFun hnext x
        rwa [hx] at hl

end Foreach

/-! ## The two loops -/

/-- The pages of `l` are marked as `b`. -/
def Vm.mark (s : Vm) (l : List Node) (b : Bool) : Node → PageMap :=
  fun x => if x ∈ l then { s.pages x with isMapped := b } else s.pages x

section Loops

variable {s s' : Vm} {l : List Node} {x : Node} {b : Bool}

theorem update_mark (s : Vm) (x : Node) (l : List Node) (b : Bool) {pages : Node → PageMap}
    (h : pages = Function.update s.pages x { s.pages x with isMapped := b }) :
    Vm.mark { s with pages := pages } l b = s.mark (x :: l) b := by
  subst h
  funext y
  unfold Vm.mark
  by_cases hy : y = x
  · subst hy
    by_cases hl : y ∈ l <;> simp [hl]
  · by_cases hl : y ∈ l <;> simp [hy, hl]

theorem mark_nil (s : Vm) (b : Bool) : s.mark [] b = s.pages := by
  funext y
  exact if_neg List.not_mem_nil

theorem next_update (s : Vm) (x : Node) (b : Bool) :
    (fun y => (Function.update s.pages x { s.pages x with isMapped := b } y).next) = s.next := by
  funext y
  by_cases hy : y = x
  · subst hy
    rw [Function.update_self]
    rfl
  · rw [Function.update_of_ne hy]
    rfl

theorem unmapPage_keepsLinks : KeepsLinks unmapPage := by
  intro x s s' h
  unfold unmapPage at h
  by_cases hm : (s.pages x).isMapped = true
  · rw [if_pos hm] at h
    obtain rfl := Except.ok.inj h
    exact next_update s x false
  · rw [if_neg hm] at h
    obtain rfl := Except.ok.inj h
    rfl

theorem mapPage_keepsLinks : KeepsLinks mapPage := by
  intro x s s' h
  unfold mapPage at h
  by_cases hin : inUserSpace (s.pages x).va = true
  · rw [if_neg (not_not_intro hin)] at h
    obtain rfl := Except.ok.inj h
    exact next_update s x true
  · rw [if_pos hin] at h
    cases h

/-- The pages that are mapped are unmapped. -/
theorem unmapPages_eq (s : Vm) (l : List Node) : ∃ calls, (∀ c ∈ calls, ∃ va, c = .pmemUnmap va) ∧
    l.foldlM (fun s x => unmapPage x s) s = .ok { s with pages := s.mark l false, calls := s.calls ++ calls } := by
  induction l generalizing s with
  | nil => exact ⟨[], nofun, by rw [mark_nil, List.append_nil]; rfl⟩
  | cons x l ih =>
    rw [List.foldlM_cons]
    by_cases hm : (s.pages x).isMapped = true
    · have hstep : unmapPage x s = .ok { s with
          calls := s.calls ++ [.pmemUnmap (s.pages x).va]
          pages := Function.update s.pages x { s.pages x with isMapped := false } } := if_pos hm
      obtain ⟨calls, hcalls, hrun⟩ := ih { s with
          calls := s.calls ++ [.pmemUnmap (s.pages x).va]
          pages := Function.update s.pages x { s.pages x with isMapped := false } }
      refine ⟨.pmemUnmap (s.pages x).va :: calls, List.forall_mem_cons.mpr ⟨⟨_, rfl⟩, hcalls⟩, ?_⟩
      rw [hstep]
      refine hrun.trans ?_
      have hmark := update_mark { s with calls := s.calls ++ [.pmemUnmap (s.pages x).va] } x l false rfl
      rw [hmark, List.append_assoc]
      rfl
    · have hstep : unmapPage x s = .ok s := if_neg hm
      obtain ⟨calls, hcalls, hrun⟩ := ih s
      refine ⟨calls, hcalls, ?_⟩
      rw [hstep]
      refine hrun.trans ?_
      have hsame : Function.update s.pages x { s.pages x with isMapped := false } = s.pages := by
        rw [← Bool.eq_false_iff.mpr hm]
        exact Function.update_eq_self x s.pages
      have hmark := update_mark s x l false hsame.symm
      rw [← hmark]

/-- Every page is mapped, one after another. -/
theorem mapPages_eq (s : Vm) (l : List Node) (hl : ∀ x ∈ l, inUserSpace (s.pages x).va = true) :
    l.foldlM (fun s x => mapPage x s) s = .ok { s with
      pages := s.mark l true
      calls := s.calls ++ l.map fun x => .pmemMap (s.pages x).va (s.pages x).pa (s.pages x).prot } := by
  induction l generalizing s with
  | nil =>
    rw [mark_nil, List.map_nil, List.append_nil]
    rfl
  | cons x l ih =>
    obtain ⟨hx, hrest⟩ := List.forall_mem_cons.mp hl
    have hstep : mapPage x s = .ok { s with
        calls := s.calls ++ [.pmemMap (s.pages x).va (s.pages x).pa (s.pages x).prot]
        pages := Function.update s.pages x { s.pages x with isMapped := true } } := if_neg (not_not_intro hx)
    have hfield : ∀ y, (Function.update s.pages x { s.pages x with isMapped := true } y).va = (s.pages y).va ∧
        (Function.update s.pages x { s.pages x with isMapped := true } y).pa = (s.pages y).pa ∧
        (Function.update s.pages x { s.pages x with isMapped := true } y).prot = (s.pages y).prot := by
      intro y
      by_cases hy : y = x
      · subst hy
        rw [Function.update_self]
        exact ⟨rfl, rfl, rfl⟩
      · rw [Function.update_of_ne hy]
        exact ⟨rfl, rfl, rfl⟩
    rw [List.foldlM_cons, hstep]
    refine (ih _ fun y hy => ?_).trans ?_
    · rw [(hfield y).1]
      exact hrest y hy
    · simp only [(hfield _).1, (hfield _).2.1, (hfield _).2.2]
      have hmark := update_mark { s with
        calls := s.calls ++ [.pmemMap (s.pages x).va (s.pages x).pa (s.pages x).prot] } x l true rfl
      rw [hmark, List.append_assoc]
      rfl

end Loops

/-! ## A switch -/

/-- Apart from the marks, the calls and the current address space the states are the same. -/
structure SameLists (s s' : Vm) : Prop where
  enable : s'.vmeEnable = s.vmeEnable
  heads : s'.heads = s.heads
  fresh : s'.fresh = s.fresh
  page : ∀ x, (s'.pages x).va = (s.pages x).va ∧ (s'.pages x).pa = (s.pages x).pa ∧
    (s'.pages x).next = (s.pages x).next ∧ (s'.pages x).prot = (s.pages x).prot

section Switch

variable {s s' : Vm} {head : Option Space} {l₀ l : List Node} {fuel : ℕ}

theorem mark_field (s : Vm) (l : List Node) (b : Bool) (x : Node) : (s.mark l b x).va = (s.pages x).va ∧
    (s.mark l b x).pa = (s.pages x).pa ∧ (s.mark l b x).next = (s.pages x).next ∧
    (s.mark l b x).prot = (s.pages x).prot := by
  unfold Vm.mark
  by_cases hx : x ∈ l
  · rw [if_pos hx]
    exact ⟨rfl, rfl, rfl, rfl⟩
  · rw [if_neg hx]
    exact ⟨rfl, rfl, rfl, rfl⟩

/-- **A switch along two chains** unmaps the pages of the first and maps those of the second. -/
theorem amSwitch_eq (he : s.vmeEnable = true) (hne : head ≠ s.vmHead) (h₀ : Chain s.next (s.first s.vmHead) l₀)
    (h : Chain s.next (s.first head) l) (hl : ∀ x ∈ l, inUserSpace (s.pages x).va = true) (hf₀ : l₀.length < fuel)
    (hf : l.length < fuel) : ∃ s', amSwitch fuel head s = .ok s' ∧ SameLists s s' ∧ s'.vmHead = head ∧
      (∃ unmaps, (∀ c ∈ unmaps, ∃ va, c = .pmemUnmap va) ∧ s'.calls =
        s.calls ++ unmaps ++ l.map fun x => .pmemMap (s.pages x).va (s.pages x).pa (s.pages x).prot) ∧
      ∀ x, (s'.pages x).isMapped = if x ∈ l then true else if x ∈ l₀ then false else (s.pages x).isMapped := by
  obtain ⟨unmaps, hunmaps, hrun₀⟩ := unmapPages_eq s l₀
  obtain ⟨s₁, hs₁⟩ : ∃ s₁, s₁ = { s with pages := s.mark l₀ false, calls := s.calls ++ unmaps } := ⟨_, rfl⟩
  have hfield : ∀ x, (s₁.pages x).va = (s.pages x).va ∧ (s₁.pages x).pa = (s.pages x).pa ∧
      (s₁.pages x).next = (s.pages x).next ∧ (s₁.pages x).prot = (s.pages x).prot := fun x => by
    rw [hs₁]
    exact mark_field s l₀ false x
  have hnext : s₁.next = s.next := funext fun x => (hfield x).2.2.1
  have hrun := mapPages_eq s₁ l fun x hx => by rw [(hfield x).1]; exact hl x hx
  simp only [(hfield _).1, (hfield _).2.1, (hfield _).2.2.2] at hrun
  have h₁ : listForeach unmapPage fuel (s.first s.vmHead) s = .ok s₁ :=
    (listForeach_eq unmapPage_keepsLinks h₀ hf₀).trans (hrun₀.trans (by rw [hs₁]))
  have h₂ := (listForeach_eq mapPage_keepsLinks (hnext ▸ h : Chain s₁.next (s.first head) l) hf).trans hrun
  refine ⟨{ s₁ with
    vmHead := head
    pages := s₁.mark l true
    calls := s₁.calls ++ l.map fun x => .pmemMap (s.pages x).va (s.pages x).pa (s.pages x).prot },
    ?_, ?_, rfl, ⟨unmaps, hunmaps, ?_⟩, fun x => ?_⟩
  · have hfirst : s₁.first head = s.first head := by rw [hs₁]; rfl
    rw [← hfirst] at h₂
    show (if ¬ s.vmeEnable = true then pure s else if head = s.vmHead then pure { s with vmHead := head } else
      listForeach unmapPage fuel (s.first s.vmHead) s >>= fun s =>
        listForeach mapPage fuel (s.first head) s >>= fun s => pure { s with vmHead := head }) = _
    rw [if_neg (not_not_intro he), if_neg hne, h₁]
    show (listForeach mapPage fuel (s₁.first head) s₁ >>= fun s => pure { s with vmHead := head }) = _
    rw [h₂]
    rfl
  · refine ⟨by rw [hs₁], by rw [hs₁], by rw [hs₁], fun x => ?_⟩
    obtain ⟨m1, m2, m3, m4⟩ := mark_field s₁ l true x
    obtain ⟨f1, f2, f3, f4⟩ := hfield x
    exact ⟨m1.trans f1, m2.trans f2, m3.trans f3, m4.trans f4⟩
  · rw [hs₁]
  · show (s₁.mark l true x).isMapped = _
    unfold Vm.mark
    by_cases hx : x ∈ l
    · rw [if_pos hx, if_pos hx]
    · rw [if_neg hx, if_neg hx, hs₁]
      show (s.mark l₀ false x).isMapped = _
      unfold Vm.mark
      by_cases hx₀ : x ∈ l₀
      · rw [if_pos hx₀, if_pos hx₀]
      · rw [if_neg hx₀, if_neg hx₀]

/-- A switch that ends has gone along two chains. -/
theorem amSwitch_chains (he : s.vmeEnable = true) (hne : head ≠ s.vmHead) (h : amSwitch fuel head s = .ok s') :
    ∃ l₀ l, Chain s.next (s.first s.vmHead) l₀ ∧ Chain s.next (s.first head) l ∧ l₀.length < fuel ∧ l.length < fuel := by
  change (if ¬ s.vmeEnable = true then pure s else if head = s.vmHead then pure { s with vmHead := head } else
    listForeach unmapPage fuel (s.first s.vmHead) s >>= fun s =>
      listForeach mapPage fuel (s.first head) s >>= fun s => pure { s with vmHead := head }) = .ok s' at h
  rw [if_neg (not_not_intro he), if_neg hne] at h
  cases h₁ : listForeach unmapPage fuel (s.first s.vmHead) s with
  | error e =>
    rw [h₁] at h
    cases h
  | ok s₁ =>
    obtain ⟨l₀, hl₀, hf₀⟩ := listForeach_chain unmapPage_keepsLinks h₁
    obtain ⟨unmaps, -, hrun⟩ := unmapPages_eq s l₀
    have hs₁ : s₁ = { s with pages := s.mark l₀ false, calls := s.calls ++ unmaps } :=
      Except.ok.inj (h₁.symm.trans ((listForeach_eq unmapPage_keepsLinks hl₀ hf₀).trans hrun))
    rw [h₁] at h
    change (listForeach mapPage fuel (s₁.first head) s₁ >>= fun s => pure { s with vmHead := head }) = .ok s' at h
    cases h₂ : listForeach mapPage fuel (s₁.first head) s₁ with
    | error e =>
      rw [h₂] at h
      cases h
    | ok s₂ =>
      obtain ⟨l, hl, hf⟩ := listForeach_chain mapPage_keepsLinks h₂
      have hnext : s₁.next = s.next := funext fun x => by
        rw [hs₁]
        exact (mark_field s l₀ false x).2.2.1
      have hfirst : s₁.first head = s.first head := by rw [hs₁]; rfl
      rw [hnext, hfirst] at hl
      exact ⟨l₀, l, hl₀, hl, hf₀, hf⟩

/-- A switch to the current address space does nothing. -/
theorem amSwitch_same (h : head = s.vmHead) : amSwitch fuel head s = .ok s := by
  subst h
  unfold amSwitch
  by_cases he : s.vmeEnable = true
  · rw [if_neg (not_not_intro he), if_pos rfl]
    rfl
  · rw [if_pos he]
    rfl

end Switch

/-! ## A call of `map` -/

/-- What `map` has done with the page `pp`: its mapping, its mark and its place in front of the list are new. -/
structure Maps (s : Vm) (as : Space) (va pa : Addr) (prot : Prot) (pp : Node) (s' : Vm) : Prop where
  user : inUserSpace va = true
  found : (s.heads as).hash (keyOf va) = some pp ∨ (s.heads as).hash (keyOf va) = none ∧ pp = s.fresh
  enable : s'.vmeEnable = s.vmeEnable
  vmHead : s'.vmHead = s.vmHead
  fresh : s.fresh ≤ s'.fresh ∧ ((s.heads as).hash (keyOf va) = none → s.fresh < s'.fresh)
  pages : s'.pages = Function.update s.pages pp ⟨va, pa, (s.heads as).head, prot, decide (s.vmHead = some as)⟩
  hash : ∀ as' k, (s'.heads as').hash k = if as' = as ∧ k = keyOf va then some pp else (s.heads as').hash k
  head : ∀ as', (s'.heads as').head = if as' = as then some pp else (s.heads as').head

section Map

variable {pgsize : ℕ} {s s' : Vm} {as : Space} {va pa : Addr} {prot : Prot}

theorem findOrEnter_spec (s : Vm) (as : Space) (key : BitVec 32) : ∃ pp s₁, findOrEnter s as key = (pp, s₁) ∧
    ((s.heads as).hash key = some pp ∨ (s.heads as).hash key = none ∧ pp = s.fresh) ∧
    s₁.vmeEnable = s.vmeEnable ∧ s₁.vmHead = s.vmHead ∧
    (s.fresh ≤ s₁.fresh ∧ ((s.heads as).hash key = none → s.fresh < s₁.fresh)) ∧ s₁.pages = s.pages ∧
    (∀ as' k, (s₁.heads as').hash k = if as' = as ∧ k = key then some pp else (s.heads as').hash k) ∧
    ∀ as', (s₁.heads as').head = (s.heads as').head := by
  unfold findOrEnter
  cases hk : (s.heads as).hash key with
  | some pp =>
    refine ⟨pp, s, rfl, .inl rfl, rfl, rfl, ⟨Nat.le_refl _, nofun⟩, rfl, fun as' k => ?_, fun _ => rfl⟩
    by_cases h : as' = as ∧ k = key
    · rw [if_pos h, h.1, h.2, hk]
    · rw [if_neg h]
  | none =>
    refine ⟨_, _, rfl, .inr ⟨rfl, rfl⟩, rfl, rfl, ⟨Nat.le_succ _, fun _ => Nat.lt_succ_self _⟩, rfl, fun as' k => ?_,
      fun as' => ?_⟩
    · show (Function.update s.heads as _ as').hash k = _
      by_cases has : as' = as
      · subst has
        rw [Function.update_self]
        by_cases hkey : k = key
        · subst hkey
          rw [if_pos ⟨rfl, rfl⟩]
          exact Function.update_self ..
        · rw [if_neg fun h => hkey h.2]
          exact Function.update_of_ne hkey ..
      · rw [Function.update_of_ne has, if_neg fun h => has h.1]
    · show (Function.update s.heads as _ as').head = _
      by_cases has : as' = as
      · subst has
        rw [Function.update_self]
      · rw [Function.update_of_ne has]

theorem map_ok (h : map pgsize as va pa prot s = .ok s') : ∃ pp, Maps s as va pa prot pp s' := by
  unfold map at h
  by_cases huser : inUserSpace va = true
  · rw [if_neg (not_not_intro huser)] at h
    by_cases hva : va.toNat % pgsize = 0
    · by_cases hpa : pa.toNat % pgsize = 0
      · obtain ⟨pp, s₁, hfind, hpp, he, hv, hf, hp, hhash, hhead⟩ := findOrEnter_spec s as (keyOf va)
        have hheads : ∀ as', (Function.update s₁.heads as { s₁.heads as with head := some pp } as').hash =
            (s₁.heads as').hash ∧ (Function.update s₁.heads as { s₁.heads as with head := some pp } as').head =
              if as' = as then some pp else (s.heads as').head := by
          intro as'
          by_cases has : as' = as
          · subst has
            rw [Function.update_self, if_pos rfl]
            exact ⟨rfl, rfl⟩
          · rw [Function.update_of_ne has, if_neg has]
            exact ⟨rfl, hhead as'⟩
        rw [if_neg (not_not_intro hva), if_neg (not_not_intro hpa), hfind] at h
        refine ⟨pp, ?_⟩
        by_cases hcur : s₁.vmHead = some as
        · change (if s₁.vmHead = some as then _ else _) = Except.ok s' at h
          rw [if_pos hcur] at h
          obtain rfl := Except.ok.inj h
          refine ⟨huser, hpp, he, hv, hf, ?_, fun as' k => ?_, fun as' => (hheads as').2⟩
          · rw [← hv, decide_eq_true hcur, ← hp, ← hhead as]
            show Function.update (Function.update s₁.pages pp ⟨va, pa, (s₁.heads as).head, prot, false⟩) pp
              { Function.update s₁.pages pp ⟨va, pa, (s₁.heads as).head, prot, false⟩ pp with isMapped := true } = _
            rw [Function.update_idem, Function.update_self]
          · rw [← hhash]
            exact congrFun (hheads as').1 k
        · change (if s₁.vmHead = some as then _ else _) = Except.ok s' at h
          rw [if_neg hcur] at h
          obtain rfl := Except.ok.inj h
          refine ⟨huser, hpp, he, hv, hf, ?_, fun as' k => ?_, fun as' => (hheads as').2⟩
          · rw [← hv, decide_eq_false hcur, ← hp, ← hhead as]
          · rw [← hhash]
            exact congrFun (hheads as').1 k
      · rw [if_neg (not_not_intro hva), if_pos hpa] at h
        cases h
    · rw [if_pos hva] at h
      cases h
  · rw [if_pos huser] at h
    cases h

end Map

/-! ## The sequence of operations -/

theorem lastMap_snoc (ops : List Op) (op : Op) (as : Space) (va : Addr) :
    lastMap (ops ++ [op]) as va = op.update as va (lastMap ops as va) := List.foldl_append

/-- The addresses that have a mapping are those that have been mapped. -/
theorem lastMap_isSome (ops : List Op) (as : Space) (va : Addr) :
    (lastMap ops as va).isSome ↔ va ∈ ops.filterMap (Op.mapped as) := by
  induction ops using List.reverseRecOn with
  | nil => simp [lastMap]
  | append_singleton ops op ih =>
    rw [lastMap_snoc, List.filterMap_append, List.mem_append, ← ih]
    cases op with
    | switch head => simp [Op.update, Op.mapped]
    | map as' va' pa prot =>
      by_cases h : as' = as ∧ va' = va
      · simp [Op.update, Op.mapped, h]
      · by_cases has : as' = as
        · have hva : va' ≠ va := fun hva => h ⟨has, hva⟩
          simp [Op.update, Op.mapped, has, hva, hva.symm]
        · simp [Op.update, Op.mapped, has]

theorem noRemap_map {ops : List Op} {as as' : Space} {va pa : Addr} {prot : Prot} :
    NoRemap (ops ++ [.map as va pa prot]) as' ↔ NoRemap ops as' ∧ (as = as' → (lastMap ops as' va).isSome = false) := by
  unfold NoRemap
  rw [← Bool.not_eq_true, lastMap_isSome, List.filterMap_append]
  by_cases has : as = as'
  · subst has
    have hone : List.filterMap (Op.mapped as) [Op.map as va pa prot] = [va] := by simp [Op.mapped]
    rw [hone, List.nodup_append]
    constructor
    · rintro ⟨hnd, -, hne⟩
      exact ⟨hnd, fun _ hmem => hne va hmem va (List.mem_singleton_self va) rfl⟩
    · rintro ⟨hnd, hnot⟩
      refine ⟨hnd, List.nodup_singleton va, fun x hx y hy hxy => hnot rfl ?_⟩
      rw [List.mem_singleton] at hy
      rwa [← hy, ← hxy]
  · simp [Op.mapped, has]

/-- The lower half tells addresses of the user space apart. -/
theorem keyOf_inj {va va' : Addr} (h : inUserSpace va = true) (h' : inUserSpace va' = true)
    (heq : keyOf va = keyOf va') : va = va' := by
  unfold inUserSpace at h h'
  rw [decide_eq_true_eq, BitVec.lt_def] at h h'
  have hk := congrArg BitVec.toNat heq
  unfold keyOf at hk
  rw [BitVec.toNat_setWidth, BitVec.toNat_setWidth] at hk
  apply BitVec.eq_of_toNat_eq
  have hc : (0xc0000000 : Addr).toNat = 0xc0000000 := rfl
  omega

/-! ## The invariant -/

/-- What holds behind the operations `ops`.  The pages of an address space are those that its table has; they are all
on its list, if that is a chain, and it is one as long as no address is mapped again. -/
structure Inv (ops : List Op) (s : Vm) : Prop where
  enable : s.vmeEnable = true
  alloc : ∀ {as k x}, (s.heads as).hash k = some x → x < s.fresh
  inj : ∀ {as k x as' k'}, (s.heads as).hash k = some x → (s.heads as').hash k' = some x → as = as' ∧ k = k'
  head : ∀ {as x}, (s.heads as).head = some x → ∃ k, (s.heads as).hash k = some x
  next : ∀ {as k x y}, (s.heads as).hash k = some x → s.next x = some y → ∃ k', (s.heads as).hash k' = some y
  data : ∀ {as k x}, (s.heads as).hash k = some x → keyOf (s.pages x).va = k ∧ inUserSpace (s.pages x).va = true ∧
    lastMap ops as (s.pages x).va = some ((s.pages x).pa, (s.pages x).prot)
  known : ∀ {as va r}, lastMap ops as va = some r → ∃ x, (s.heads as).hash (keyOf va) = some x ∧ (s.pages x).va = va
  full : ∀ {as l}, Chain s.next (s.heads as).head l → NoRemap ops as ∧ ∀ k x, (s.heads as).hash k = some x → x ∈ l
  chain : ∀ {as}, NoRemap ops as → ∃ l, Chain s.next (s.heads as).head l
  mapped : ∀ {as k x}, (s.heads as).hash k = some x → ((s.pages x).isMapped = true ↔ s.vmHead = some as)

section Inv

variable {pgsize : ℕ} {pages : Node → PageMap} {ops : List Op} {s s' : Vm} {as : Space} {va pa : Addr} {prot : Prot}
  {pp : Node} {head : Option Space}

theorem inv_boot (pages : Node → PageMap) : Inv [] (Vm.boot pages) where
  enable := rfl
  alloc := nofun
  inj := nofun
  head := nofun
  next := nofun
  data := nofun
  known := nofun
  full _ := ⟨List.nodup_nil, nofun⟩
  chain _ := ⟨[], rfl⟩
  mapped := nofun

/-- All nodes on a chain from the head of an address space are pages of it. -/
theorem Inv.owned (hi : Inv ops s) {p : Option Node} {l : List Node} (h : Chain s.next p l)
    (hp : ∀ x, p = some x → ∃ k, (s.heads as).hash k = some x) : ∀ x ∈ l, ∃ k, (s.heads as).hash k = some x :=
  h.forall_mem hp fun _ _ ⟨_, hk⟩ hx => hi.next hk hx

/-- The pages on the chain of an address space. -/
theorem Inv.mem_iff (hi : Inv ops s) {l : List Node} (h : Chain s.next (s.heads as).head l) (x : Node) :
    x ∈ l ↔ ∃ k, (s.heads as).hash k = some x :=
  ⟨hi.owned h (fun _ hx => hi.head hx) x, fun ⟨k, hk⟩ => (hi.full h).2 k x hk⟩

section Maps

variable (hm : Maps s as va pa prot pp s')
include hm

/-- What the tables had, they have. -/
theorem Maps.hash_mono {as' : Space} {k : BitVec 32} {x : Node} (h : (s.heads as').hash k = some x) :
    (s'.heads as').hash k = some x := by
  rw [hm.hash]
  by_cases hk : as' = as ∧ k = keyOf va
  · obtain ⟨rfl, rfl⟩ := hk
    rw [if_pos ⟨rfl, rfl⟩]
    rcases hm.found with hf | ⟨hf, -⟩
    · exact hf.symm.trans h
    · rw [hf] at h
      cases h
  · rw [if_neg hk, h]

theorem Maps.page_of_ne {x : Node} (hx : x ≠ pp) : s'.pages x = s.pages x := by
  rw [hm.pages, Function.update_of_ne hx]

theorem Maps.page_self : s'.pages pp = ⟨va, pa, (s.heads as).head, prot, decide (s.vmHead = some as)⟩ := by
  rw [hm.pages, Function.update_self]

theorem Maps.next_eq : s'.next = Function.update s.next pp (s.heads as).head := by
  funext x
  show (s'.pages x).next = _
  by_cases hx : x = pp
  · subst hx
    rw [hm.page_self, Function.update_self]
  · rw [hm.page_of_ne hx, Function.update_of_ne hx]
    rfl

/-- The list of the address space has the page in front. -/
theorem Maps.chain_self {l : List Node} : Chain s'.next (s'.heads as).head l ↔
    ∃ l₁, l = pp :: l₁ ∧ pp ∉ l₁ ∧ Chain s.next (s.heads as).head l₁ := by
  rw [hm.head, if_pos rfl, hm.next_eq, Chain.push_iff]

variable (hi : Inv ops s)
include hi

/-- The page that `map` works on is of no other key. -/
theorem Maps.key {as' : Space} {k : BitVec 32} (h : (s.heads as').hash k = some pp) : as' = as ∧ k = keyOf va := by
  rcases hm.found with hf | ⟨-, rfl⟩
  · exact hi.inj h hf
  · exact absurd (hi.alloc h) (Nat.lt_irrefl _)

/-- The entries of the tables: the new one and the old ones. -/
theorem Maps.hash_cases {as' : Space} {k : BitVec 32} {x : Node} (h : (s'.heads as').hash k = some x) :
    (as' = as ∧ k = keyOf va ∧ x = pp) ∨ ((s.heads as').hash k = some x ∧ x ≠ pp) := by
  rw [hm.hash] at h
  by_cases hk : as' = as ∧ k = keyOf va
  · rw [if_pos hk] at h
    exact .inl ⟨hk.1, hk.2, (Option.some.inj h).symm⟩
  · rw [if_neg hk] at h
    refine .inr ⟨h, ?_⟩
    rintro rfl
    exact hk (hm.key hi h)

/-- An address has been mapped exactly when its page is found. -/
theorem Maps.lastMap_isSome : (lastMap ops as va).isSome = true ↔ (s.heads as).hash (keyOf va) = some pp := by
  constructor
  · intro h
    obtain ⟨r, hr⟩ := Option.isSome_iff_exists.mp h
    obtain ⟨x, hx, -⟩ := hi.known hr
    rcases hm.found with hf | ⟨hf, -⟩
    · exact hf
    · rw [hf] at hx
      cases hx
  · intro h
    obtain ⟨hk, huser, hlast⟩ := hi.data h
    rw [keyOf_inj huser hm.user hk] at hlast
    rw [hlast]
    rfl

theorem Maps.inv_head {as' : Space} {x : Node} (h : (s'.heads as').head = some x) :
    ∃ k, (s'.heads as').hash k = some x := by
  rw [hm.head] at h
  by_cases has : as' = as
  · rw [if_pos has] at h
    obtain rfl := Option.some.inj h
    exact ⟨keyOf va, by rw [hm.hash, if_pos ⟨has, rfl⟩]⟩
  · rw [if_neg has] at h
    obtain ⟨k, hk⟩ := hi.head h
    exact ⟨k, hm.hash_mono hk⟩

theorem Maps.inv_next {as' : Space} {k : BitVec 32} {x y : Node} (h : (s'.heads as').hash k = some x)
    (hy : s'.next x = some y) : ∃ k', (s'.heads as').hash k' = some y := by
  rw [hm.next_eq] at hy
  rcases hm.hash_cases hi h with ⟨rfl, -, rfl⟩ | ⟨hold, hx⟩
  · rw [Function.update_self] at hy
    obtain ⟨k', hk'⟩ := hi.head hy
    exact ⟨k', hm.hash_mono hk'⟩
  · rw [Function.update_of_ne hx] at hy
    obtain ⟨k', hk'⟩ := hi.next hold hy
    exact ⟨k', hm.hash_mono hk'⟩

/-- The pages on a chain behind `map`, by the address space that has them. -/
theorem Maps.owned {as' : Space} {p : Option Node} {l : List Node} (h : Chain s'.next p l)
    (hp : ∀ x, p = some x → ∃ k, (s'.heads as').hash k = some x) : ∀ x ∈ l, ∃ k, (s'.heads as').hash k = some x :=
  h.forall_mem hp fun _ _ ⟨_, hk⟩ hx => hm.inv_next hi hk hx

/-- The list of another address space is as it was. -/
theorem Maps.chain_other {as' : Space} (has : as' ≠ as) {l : List Node} :
    Chain s'.next (s'.heads as').head l ↔ Chain s.next (s.heads as').head l := by
  rw [hm.head, if_neg has, hm.next_eq]
  have hout : ∀ {k}, (s'.heads as').hash k ≠ some pp := by
    intro k hk
    rcases hm.hash_cases hi hk with ⟨hs, -⟩ | ⟨-, hne⟩
    · exact has hs
    · exact hne rfl
  constructor
  · intro h
    have hpp : pp ∉ l := by
      intro hmem
      rw [← hm.next_eq] at h
      obtain ⟨k, hk⟩ := hm.owned hi h (fun x hx => (hi.head hx).imp fun _ => hm.hash_mono) pp hmem
      exact hout hk
    exact h.congr fun z hz => (Function.update_of_ne (ne_of_mem_of_not_mem hz hpp) _ _).symm
  · intro h
    have hpp : pp ∉ l := by
      intro hmem
      obtain ⟨k, hk⟩ := (hi.mem_iff h pp).mp hmem
      exact has (hm.key hi hk).1
    exact h.update hpp _

/-- **`map` keeps the invariant.** -/
theorem Maps.inv : Inv (ops ++ [.map as va pa prot]) s' where
  enable := hm.enable.trans hi.enable
  alloc {as' k x} h := by
    rcases hm.hash_cases hi h with ⟨-, -, rfl⟩ | ⟨hold, -⟩
    · rcases hm.found with hf | ⟨hf, rfl⟩
      · exact Nat.lt_of_lt_of_le (hi.alloc hf) hm.fresh.1
      · exact hm.fresh.2 hf
    · exact Nat.lt_of_lt_of_le (hi.alloc hold) hm.fresh.1
  inj {as₁ k₁ x as₂ k₂} h₁ h₂ := by
    rcases hm.hash_cases hi h₁ with ⟨rfl, rfl, rfl⟩ | ⟨hold₁, hx⟩
    · rcases hm.hash_cases hi h₂ with ⟨rfl, rfl, -⟩ | ⟨-, hx⟩
      · exact ⟨rfl, rfl⟩
      · exact absurd rfl hx
    · rcases hm.hash_cases hi h₂ with ⟨-, -, rfl⟩ | ⟨hold₂, -⟩
      · exact absurd rfl hx
      · exact hi.inj hold₁ hold₂
  head := hm.inv_head hi
  next := hm.inv_next hi
  data {as' k x} h := by
    rw [lastMap_snoc]
    rcases hm.hash_cases hi h with ⟨rfl, rfl, rfl⟩ | ⟨hold, hx⟩
    · rw [hm.page_self]
      exact ⟨rfl, hm.user, if_pos ⟨rfl, rfl⟩⟩
    · obtain ⟨hk, huser, hlast⟩ := hi.data hold
      rw [hm.page_of_ne hx]
      refine ⟨hk, huser, ?_⟩
      rw [Op.update, if_neg, hlast]
      rintro ⟨rfl, hva⟩
      -- the old entry would be the one of the address
      rw [hm.hash, if_pos ⟨rfl, by rw [← hk, ← hva]⟩] at h
      exact hx (Option.some.inj h).symm
  known {as' v r} h := by
    rw [lastMap_snoc, Op.update] at h
    by_cases hnew : as = as' ∧ va = v
    · obtain ⟨rfl, rfl⟩ := hnew
      exact ⟨pp, by rw [hm.hash, if_pos ⟨rfl, rfl⟩], by rw [hm.page_self]⟩
    · rw [if_neg hnew] at h
      obtain ⟨x, hx, hv⟩ := hi.known h
      refine ⟨x, hm.hash_mono hx, ?_⟩
      rw [hm.page_of_ne, hv]
      rintro rfl
      obtain ⟨rfl, hk⟩ := hm.key hi hx
      have huser := (hi.data hx).2.1
      rw [hv] at huser
      exact hnew ⟨rfl, keyOf_inj hm.user huser hk.symm⟩
  full {as' l} h := by
    rw [noRemap_map]
    by_cases has : as' = as
    · subst has
      obtain ⟨l₁, rfl, hpp, hl₁⟩ := hm.chain_self.mp h
      obtain ⟨hno, hall⟩ := hi.full hl₁
      refine ⟨⟨hno, fun _ => ?_⟩, fun k x hk => ?_⟩
      · rw [← Bool.not_eq_true, hm.lastMap_isSome hi]
        exact fun hf => hpp (hall _ _ hf)
      · rcases hm.hash_cases hi hk with ⟨-, -, rfl⟩ | ⟨hold, -⟩
        · exact List.mem_cons_self
        · exact List.mem_cons_of_mem _ (hall k x hold)
    · obtain ⟨hno, hall⟩ := hi.full ((hm.chain_other hi has).mp h)
      refine ⟨⟨hno, fun heq => absurd heq.symm has⟩, fun k x hk => ?_⟩
      rcases hm.hash_cases hi hk with ⟨hs, -⟩ | ⟨hold, -⟩
      · exact absurd hs has
      · exact hall k x hold
  chain {as'} h := by
    obtain ⟨hno, hfresh⟩ := noRemap_map.mp h
    obtain ⟨l, hl⟩ := hi.chain hno
    by_cases has : as' = as
    · subst has
      refine ⟨pp :: l, hm.chain_self.mpr ⟨l, rfl, fun hmem => ?_, hl⟩⟩
      obtain ⟨k, hk⟩ := (hi.mem_iff hl pp).mp hmem
      obtain ⟨-, rfl⟩ := hm.key hi hk
      have hsome := (hm.lastMap_isSome hi).mpr hk
      rw [hfresh rfl] at hsome
      cases hsome
    · exact ⟨l, (hm.chain_other hi has).mpr hl⟩
  mapped {as' k x} h := by
    rw [hm.vmHead]
    rcases hm.hash_cases hi h with ⟨rfl, -, rfl⟩ | ⟨hold, hx⟩
    · rw [hm.page_self]
      exact decide_eq_true_iff
    · rw [hm.page_of_ne hx]
      exact hi.mapped hold

end Maps

/-! ## The invariant in a switch -/

theorem lastMap_switch (ops : List Op) (head : Option Space) (as : Space) (va : Addr) :
    lastMap (ops ++ [.switch head]) as va = lastMap ops as va := lastMap_snoc ..

theorem noRemap_switch : NoRemap (ops ++ [.switch head]) as ↔ NoRemap ops as := by
  have hnone : List.filterMap (Op.mapped as) [Op.switch head] = [] := rfl
  unfold NoRemap
  rw [List.filterMap_append, hnone, List.append_nil]

/-- The marks and the current address space may change together. -/
theorem Inv.switched (hi : Inv ops s) (hs : SameLists s s') (hv : s'.vmHead = head)
    (hmark : ∀ as k x, (s.heads as).hash k = some x → ((s'.pages x).isMapped = true ↔ head = some as)) :
    Inv (ops ++ [.switch head]) s' := by
  have hnext : s'.next = s.next := funext fun x => (hs.page x).2.2.1
  constructor
  · exact hs.enable.trans hi.enable
  · intro as k x h
    rw [hs.heads] at h
    rw [hs.fresh]
    exact hi.alloc h
  · intro as k x as' k' h h'
    rw [hs.heads] at h h'
    exact hi.inj h h'
  · intro as x h
    rw [hs.heads] at h ⊢
    exact hi.head h
  · intro as k x y h hy
    rw [hs.heads] at h ⊢
    rw [hnext] at hy
    exact hi.next h hy
  · intro as k x h
    rw [hs.heads] at h
    obtain ⟨hva, hpa, -, hprot⟩ := hs.page x
    rw [lastMap_switch, hva, hpa, hprot]
    exact hi.data h
  · intro as va r h
    rw [lastMap_switch] at h
    obtain ⟨x, hx, hva⟩ := hi.known h
    exact ⟨x, by rw [hs.heads, hx], (hs.page x).1.trans hva⟩
  · intro as l h
    rw [hs.heads, hnext] at h
    rw [noRemap_switch, hs.heads]
    exact hi.full h
  · intro as h
    rw [hs.heads, hnext]
    exact hi.chain (noRemap_switch.mp h)
  · intro as k x h
    rw [hs.heads] at h
    rw [hv]
    exact hmark as k x h

/-- The pages on the list of an address space, or of none. -/
theorem Inv.mem_first (hi : Inv ops s) {l : List Node} (h : Chain s.next (s.first head) l) {k : BitVec 32} {x : Node}
    (hx : (s.heads as).hash k = some x) : x ∈ l ↔ head = some as := by
  cases head with
  | none =>
    obtain rfl : l = [] := Chain.unique h rfl
    simp
  | some as' =>
    have hmem : x ∈ l ↔ ∃ k', (s.heads as').hash k' = some x := hi.mem_iff h x
    rw [hmem, Option.some.injEq]
    constructor
    · rintro ⟨k', hk'⟩
      exact (hi.inj hk' hx).1
    · rintro rfl
      exact ⟨k, hx⟩

/-- The pages that a switch goes along are in the user space. -/
theorem Inv.first_user (hi : Inv ops s) {l : List Node} (h : Chain s.next (s.first head) l) :
    ∀ x ∈ l, inUserSpace (s.pages x).va = true := by
  intro x hx
  cases head with
  | none =>
    obtain rfl : l = [] := Chain.unique h rfl
    cases hx
  | some as' =>
    obtain ⟨k, hk⟩ := (hi.mem_iff h x).mp hx
    exact (hi.data hk).2.1

/-- **A switch along two chains keeps the invariant**, and maps each page of the new address space once. -/
theorem Inv.switch_chains (hi : Inv ops s) (hne : head ≠ s.vmHead) {l₀ l : List Node}
    (h₀ : Chain s.next (s.first s.vmHead) l₀) (h : Chain s.next (s.first head) l) {fuel : ℕ} (hf₀ : l₀.length < fuel)
    (hf : l.length < fuel) : ∃ s', amSwitch fuel head s = .ok s' ∧ Inv (ops ++ [.switch head]) s' ∧
      SameLists s s' ∧ s'.vmHead = head ∧ ∃ unmaps, (∀ c ∈ unmaps, ∃ va, c = .pmemUnmap va) ∧ s'.calls =
        s.calls ++ unmaps ++ l.map fun x => .pmemMap (s.pages x).va (s.pages x).pa (s.pages x).prot := by
  obtain ⟨s', hrun, hs, hv, hcalls, hmark⟩ := amSwitch_eq hi.enable hne h₀ h (hi.first_user h) hf₀ hf
  refine ⟨s', hrun, hi.switched hs hv fun as k x hx => ?_, hs, hv, hcalls⟩
  rw [hmark]
  by_cases hl : x ∈ l
  · rw [if_pos hl]
    exact iff_of_true rfl ((hi.mem_first h hx).mp hl)
  · have hhead : head ≠ some as := fun he => hl ((hi.mem_first h hx).mpr he)
    rw [if_neg hl]
    by_cases hl₀ : x ∈ l₀
    · rw [if_pos hl₀]
      exact iff_of_false nofun hhead
    · rw [if_neg hl₀]
      exact iff_of_false (fun hold => hl₀ ((hi.mem_first h₀ hx).mpr ((hi.mapped hx).mp hold))) hhead

/-- **The invariant holds in every run.** -/
theorem inv_run (h : Runs pgsize pages ops s) : Inv ops s := by
  induction h with
  | boot => exact inv_boot pages
  | @snoc ops s s' op _ hop ih =>
    cases op with
    | map as va pa prot =>
      obtain ⟨pp, hm⟩ := map_ok hop
      exact hm.inv ih
    | switch head =>
      obtain ⟨fuel, hrun⟩ := hop
      by_cases hhead : head = s.vmHead
      · obtain rfl := Except.ok.inj ((amSwitch_same hhead).symm.trans hrun)
        exact ih.switched ⟨rfl, rfl, rfl, fun _ => ⟨rfl, rfl, rfl, rfl⟩⟩ hhead.symm fun as k x hx => by
          rw [hhead]
          exact ih.mapped hx
      · obtain ⟨l₀, l, h₀, hl, hf₀, hf⟩ := amSwitch_chains ih.enable hhead hrun
        obtain ⟨s₁, hrun₁, hinv, -⟩ := ih.switch_chains hhead h₀ hl hf₀ hf
        obtain rfl := Except.ok.inj (hrun₁.symm.trans hrun)
        exact hinv

end Inv

/-! ## The lists and the switches -/

section Run

variable {pgsize : ℕ} {pages : Node → PageMap} {ops : List Op} {s : Vm} {as : Space}

end Run

end Am.Native
