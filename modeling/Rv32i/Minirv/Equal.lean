import Rv32i.Minirv.Compare

/-!
# minirv: tests for equality

The macros `seqz` and `seq`.  They reload the registers that they push after they have written `rd`, so that a
destination among these registers gets back what it held.

* `seqz_run`, `seq_run` — the effect of the macros, with the order of their last writes;
* `lane_run`, `lanes_run` — what the bytes of `_check_same_array` tell about one byte of the operands, and about
  several;
* `equalityTest_computes_iff` — when the result arrives in `rd`.
-/

namespace Minirv

open Rv32 Bytes

variable {L : Symbols} {s : Machine}

/-! ## Lookups -/

/-- **`_check_8bit_0_table`** tells the zero byte. -/
theorem Ready.lookup_check0 (h : Ready L s) (b : Byte) :
    s.mem (L.check8bit0Table + b.setWidth 32) = flagByte (b ≠ 0) := by
  have hget : check8bit0Table[b.toNat]? = some (flagByte (b ≠ 0)) := by
    have hb := b.isLt
    unfold check8bit0Table
    cases hk : b.toNat with
    | zero =>
      have h0 : b = 0 := BitVec.eq_of_toNat_eq hk
      rw [h0]
      rfl
    | succ k =>
      have h1 : b ≠ 0 := by
        rintro rfl
        cases hk
      rw [List.getElem?_cons_succ, List.getElem?_replicate, if_pos (by omega), decide_eq_true h1]
      rfl
  have hlook := h.lookup (t := (L.check8bit0Table, check8bit0Table)) (by simp [Symbols.rodata]) hget
  rwa [BitVec.ofNat_toNat] at hlook

/-- How many of four bytes are marked. -/
def count (f : ℕ → Bool) : ℕ := (f 0).toNat + (f 1).toNat + (f 2).toNat + (f 3).toNat

theorem count_eq (f : ℕ → Bool) :
    flag (f 0) + flag (f 1) + flag (f 2) + flag (f 3) = BitVec.ofNat 32 (count f) := by
  unfold count
  cases f 0 <;> cases f 1 <;> cases f 2 <;> cases f 3 <;> rfl

theorem count_eq_zero (f : ℕ → Bool) : count f = 0 ↔ ∀ j < 4, f j = false := by
  constructor
  · intro h j hj
    unfold count at h
    interval_cases j
    · cases hf : f 0 <;> simp_all
    · cases hf : f 1 <;> simp_all
    · cases hf : f 2 <;> simp_all
    · cases hf : f 3 <;> simp_all
  · intro h
    unfold count
    rw [h 0 (by omega), h 1 (by omega), h 2 (by omega), h 3 (by omega)]
    rfl

/-- **`_same_result_table`** tells whether no byte is marked. -/
theorem sameResultTable_count (f : ℕ → Bool) : sameResultTable[count f]? = some (flagByte (count f = 0)) := by
  unfold count
  cases f 0 <;> cases f 1 <;> cases f 2 <;> cases f 3 <;> rfl

/-! ## `seqz` -/

section Seqz

variable {rd rs1 : RegIdx}

@[simp] theorem check8bit0_x {table : RegIdx} (h0 : rd ≠ zero) (hne : rd ≠ table) {b : ℕ} (hb : b < 4) (r : RegIdx) :
    (run (check8bit0 table rd b) s).regs.x r = if r = rd
      then (s.mem (s.regs.x table + (byte (slot s varA) b).setWidth 32)).setWidth 32 else s.regs.x r := by
  by_cases hr : r = rd
  · simp [check8bit0, hr, h0, hb, hne.symm]
  · simp [check8bit0, hr, hb]

@[simp] theorem check8bit0_slot {table : RegIdx} (hsp : rd ≠ sp) {b : ℕ} (hb : b < 4) (k : ℕ) :
    slot (run (check8bit0 table rd b) s) k = slot s k := by
  simp [check8bit0, hsp, hb]

@[simp] theorem check8bit0_mem {table : RegIdx} {b : ℕ} (hb : b < 4) : (run (check8bit0 table rd b) s).mem = s.mem := by
  simp [check8bit0, hb]

@[simp] theorem check8bit0_within {table : RegIdx} {p : Word} {rs : List RegIdx} {ns : List ℕ} {b : ℕ} :
    Within p (Touch p rs ns) (check8bit0 table rd b) ↔ rd ∈ rs := by
  simp [check8bit0]

/-- What `seqz` does: the last write is the reload of `s0`. -/
theorem seqz_run (rd rs1 : RegIdx) (h : Ready L s) (hrd : rd ≠ sp) : ∃ s', run (seqz L rd rs1) s =
      write (write s' rd (flag (s.regs.x rs1 = 0))) s0 (s.regs.x s0) ∧
    Keeps (Touch (s.regs.x sp) [s0, gp, tp] [1, varA]) s s' := by
  let marked : ℕ → Bool := fun j => byte (s.regs.x rs1) j ≠ 0
  let before : Code := [.sw rs1 (spVar varA), push s0 1]
  let after : Code := List.flatten [la s0 L.check8bit0Table, check8bit0 s0 gp 0, check8bit0 s0 tp 1, [.add gp gp tp],
    check8bit0 s0 tp 2, [.add gp gp tp], check8bit0 s0 tp 3, [.add gp gp tp], la tp L.sameResultTable, [.add tp tp gp]]
  obtain ⟨t, ht⟩ : ∃ t, t = run before s := ⟨_, rfl⟩
  have hrun : run (seqz L rd rs1) s = run [.lbu rd (at0 tp), pop s0 1] (run after t) := by
    simp only [seqz, before, after, ht, run_flatten_cons, run_flatten_nil, run_cons, run_nil]
  have hkeeps : Keeps (Touch (s.regs.x sp) [s0, gp, tp] [1, varA]) s t := by
    rw [ht]
    exact run_keeps (by simp [before]) (by simp [reg_mem_touch]) rfl
  have hready : Ready L t := h.touch hkeeps (by simp) (by simp)
  have hA : slot t varA = s.regs.x rs1 := by simp [ht, before]
  have h1 : slot t 1 = s.regs.x s0 := by simp [ht, before]
  have htp : (run after t).regs.x tp = L.sameResultTable + BitVec.ofNat 32 (count marked) := by
    rw [← count_eq]
    simp [after, hA, hready.lookup_check0, flagByte_setWidth, marked]
  have hzero : s.regs.x rs1 = 0 ↔ count marked = 0 := by
    rw [eq_zero_iff, count_eq_zero]
    simp [marked]
  have hmem : (run after t).mem = t.mem := by simp [after]
  have hbyte : (run after t).mem ((run after t).regs.x tp) = flagByte (s.regs.x rs1 = 0) := by
    rw [htp, hmem]
    simp only [hzero]
    exact hready.lookup (t := (L.sameResultTable, sameResultTable)) (by simp [Symbols.rodata])
      (sameResultTable_count marked)
  refine ⟨run after t, ?_, ?_⟩
  · have h1' : slot (run after t) 1 = s.regs.x s0 := by simp [after, h1]
    rw [hrun]
    simp [hbyte, flagByte_setWidth, hrd, h1']
  · have hc : run after t = run (before ++ after) s := by rw [ht, run_append]
    rw [hc]
    exact run_keeps (by simp [before, after]) (by simp [reg_mem_touch]) rfl

@[simp] theorem seqz_straight : Straight (seqz L rd rs1) := by
  simp [seqz, la, check8bit0]

/-- In `s0` it leaves what was there. -/
theorem seqz_s0 (h : Ready L s) : (run (seqz L s0 rs1) s).regs.x s0 = s.regs.x s0 := by
  obtain ⟨s', hrun, -⟩ := seqz_run s0 rs1 h (by simp)
  simp [hrun]

end Seqz

/-! ## `seq` -/

theorem setWidth_inj {a b : Byte} : a.setWidth 32 = b.setWidth 32 ↔ a = b := by
  constructor
  · intro h
    rw [← byte_setWidth a, h, byte_setWidth]
  · rintro rfl
    rfl

/-- The entry of a byte is in the array. -/
theorem entry_mem (L : Symbols) (b : Byte) : L.array.Contains (L.checkSameArray + b.setWidth 32) := by
  have hb := b.isLt
  show (L.checkSameArray + b.setWidth 32 - L.checkSameArray).toNat < 256
  rw [BitVec.add_comm, BitVec.add_sub_cancel, BitVec.toNat_setWidth]
  omega

section Same

variable {table rd : RegIdx} {b : ℕ}

/-- The registers and words behind `check_8bit_same`, which tells whether byte `b` of the two words differs. -/
theorem check8bitSame_x (harray : ArrayApart L (s.regs.x sp)) (ht : s.regs.x table = L.checkSameArray) (h0 : rd ≠ zero)
    (hsp : rd ≠ sp) (htp : rd ≠ tp) (hne : rd ≠ table) (htt : table ≠ tp) (hb : b < 4) (r : RegIdx) :
    (run (check8bitSame table rd b) s).regs.x r =
      if r = rd then flag (byte (slot s varA) b ≠ byte (slot s varB) b)
      else if r = tp then L.checkSameArray + (byte (slot s varA) b).setWidth 32 else s.regs.x r := by
  have hunused := fun c => harray.unused _ (entry_mem L c)
  by_cases hr : r = rd
  · by_cases hbyte : byte (slot s varA) b = byte (slot s varB) b
    · simp [check8bitSame, hr, h0, h0.symm, hsp, hsp.symm, htp.symm, hne.symm, htt, hb, ht, slot_put, hunused, hbyte]
      rfl
    · simp [check8bitSame, hr, h0, h0.symm, hsp, hsp.symm, htp.symm, hne.symm, htt, hb, ht, slot_put, hunused,
        setWidth_inj, hbyte]
      rfl
  · simp [check8bitSame, hr, h0, hne.symm, ht, hb]

theorem check8bitSame_keeps {K : Set Cell} (ht : s.regs.x table = L.checkSameArray) (h0 : rd ≠ zero)
    (htp : rd ≠ tp) (hne : rd ≠ table) (htt : table ≠ tp) (hb : b < 4) (hrd : .reg rd ∈ K) (htpK : .reg tp ∈ K)
    (hK : arrayCells L ⊆ K) : Keeps K s (run (check8bitSame table rd b) s) := by
  have hput : ∀ (t : Machine) (c v : Byte), Keeps K t (put t (L.checkSameArray + c.setWidth 32) v) :=
    fun t c v => keeps_put (hK (entry_mem L c)) v
  have hw : ∀ (t : Machine) v, Keeps K t (write t rd v) := fun t v => keeps_write hrd v
  have hwtp : ∀ (t : Machine) v, Keeps K t (write t tp v) := fun t v => keeps_write htpK v
  simp only [check8bitSame, run_cons, run_nil, exec_lbu_slot, exec_lbu_at0, exec_add, exec_addi, exec_sb_at0, write_x,
    put_x, var_ne, hb, hne.symm, htt, htp.symm, h0, ht, ne_eq, not_false_eq_true, and_true, and_self, if_true, if_false]
  exact (((((((hw _ _).trans (hwtp _ _)).trans (hw _ _)).trans (hput _ _ _)).trans (hw _ _)).trans (hw _ _)).trans
    (hput _ _ _)).trans (hw _ _)

end Same

/-- What the lanes of `seq` write. -/
def laneCells (L : Symbols) (p : Word) : Set Cell := Touch p [s1, gp, tp] [] ∪ arrayCells L

section Lanes

variable {rd : RegIdx} {t u : Machine} (harray : ArrayApart L (t.regs.x sp))
include harray

/-- A byte of the array is no byte of the words below `sp`. -/
theorem laneCells_slot (hk : Keeps (laneCells L (t.regs.x sp)) t u) {k : ℕ} (hk1 : 1 ≤ k) (hk8 : k < 8) :
    slot u k = slot t k := by
  have hsp : u.regs.x sp = t.regs.x sp := hk.x (r := sp) (by simp [laneCells, reg_mem_touch])
  apply eq_of_byte_eq
  intro j hj
  rw [byte_slot _ _ hj, byte_slot _ _ hj, hsp]
  refine hk.mem ?_
  rintro (hm | hm)
  · exact List.not_mem_nil ((byte_mem_touch hk8 hj).mp hm)
  · have hzone : .byte (slotAddr (t.regs.x sp) k + BitVec.ofNat 32 j) ∈ Touch (t.regs.x sp) [] [k] :=
      (byte_mem_touch hk8 hj).mpr (by simp)
    exact not_byte_mem_touch (by simpa using hk1) (harray.unused _ hm) hzone

variable (ht : t.regs.x s0 = L.checkSameArray)
include ht

/-- One lane, from a state in which only lanes have been executed. -/
theorem lane_run (hk : Keeps (laneCells L (t.regs.x sp)) t u) (hrd : rd = gp ∨ rd = s1) {j : ℕ} (hj : j < 4) :
    Keeps (laneCells L (t.regs.x sp)) t (run (check8bitSame s0 rd j) u) ∧
    ∀ r, r ≠ tp → (run (check8bitSame s0 rd j) u).regs.x r =
      if r = rd then flag (byte (slot t varA) j ≠ byte (slot t varB) j) else u.regs.x r := by
  have hsp : u.regs.x sp = t.regs.x sp := hk.x (r := sp) (by simp [laneCells, reg_mem_touch])
  have hs0 : u.regs.x s0 = L.checkSameArray :=
    (hk.x (r := s0) (by simp [laneCells, reg_mem_touch])).trans ht
  have hne : rd ≠ zero ∧ rd ≠ sp ∧ rd ≠ tp ∧ rd ≠ s0 ∧ rd ∈ [s1, gp, tp] := by
    rcases hrd with rfl | rfl <;> simp
  obtain ⟨h0, h1, h2, h3, hmem⟩ := hne
  refine ⟨hk.trans ?_, fun r hr => ?_⟩
  · exact check8bitSame_keeps hs0 h0 h2 h3 (by simp) hj (.inl hmem) (.inl (by simp [reg_mem_touch])) fun _ h => .inr h
  · rw [check8bitSame_x (hsp ▸ harray) hs0 h0 h1 h2 h3 (by simp) hj, if_neg hr,
      laneCells_slot harray hk (by simp) (by simp), laneCells_slot harray hk (by simp) (by simp)]

/-- The lanes that `seq` adds to `gp`. -/
theorem lanes_run (js : List ℕ) (hk : Keeps (laneCells L (t.regs.x sp)) t u) (hjs : ∀ j ∈ js, j < 4) :
    Keeps (laneCells L (t.regs.x sp)) t
      (run (js.flatMap fun j => check8bitSame s0 s1 j ++ [.add gp gp s1]) u) ∧
    (run (js.flatMap fun j => check8bitSame s0 s1 j ++ [.add gp gp s1]) u).regs.x gp =
      js.foldl (fun v j => v + flag (byte (slot t varA) j ≠ byte (slot t varB) j)) (u.regs.x gp) := by
  induction js generalizing u with
  | nil => exact ⟨hk, rfl⟩
  | cons j js ih =>
    obtain ⟨hk', hx⟩ := lane_run harray ht hk (.inr rfl) (hjs j List.mem_cons_self)
    have hgp : gp ≠ tp ∧ s1 ≠ tp ∧ gp ≠ s1 := by simp
    have hstep : run (check8bitSame s0 s1 j ++ [.add gp gp s1]) u = write (run (check8bitSame s0 s1 j) u) gp
        (u.regs.x gp + flag (byte (slot t varA) j ≠ byte (slot t varB) j)) := by
      rw [run_append, run_cons, run_nil, exec_add, hx gp hgp.1, hx s1 hgp.2.1, if_neg hgp.2.2, if_pos rfl]
    rw [List.flatMap_cons, run_append, hstep]
    refine (ih (hk'.trans (keeps_write (.inl (by simp [reg_mem_touch])) _)) fun i hi =>
      hjs i (List.mem_cons_of_mem _ hi)).imp_right fun h => h.trans ?_
    rw [write_x, if_pos ⟨rfl, by simp⟩, List.foldl_cons]

end Lanes

section Seq

variable {rd rs1 rs2 : RegIdx}

/-- What `seq` does: the last writes are the reloads of `s1` and `s0`. -/
theorem seq_run (rd rs1 rs2 : RegIdx) (h : Ready L s) (harray : ArrayApart L (s.regs.x sp)) (hrd : rd ≠ sp) :
    ∃ s', run (seq L rd rs1 rs2) s =
      write (write (write s' rd (flag (s.regs.x rs1 = s.regs.x rs2))) s1 (s.regs.x s1)) s0 (s.regs.x s0) ∧
    Keeps (Touch (s.regs.x sp) [s0, s1, gp, tp] [1, 2, varA, varB] ∪ arrayCells L) s s' := by
  let marked : ℕ → Bool := fun j => byte (s.regs.x rs1) j ≠ byte (s.regs.x rs2) j
  let before : Code := List.flatten
    [[.sw rs1 (spVar varA), .sw rs2 (spVar varB), push s0 1, push s1 2], la s0 L.checkSameArray]
  let lanes : Code := [1, 2, 3].flatMap fun j => check8bitSame s0 s1 j ++ [.add gp gp s1]
  let after : Code := List.flatten [la tp L.sameResultTable, [.add tp tp gp]]
  obtain ⟨t, ht⟩ : ∃ t, t = run before s := ⟨_, rfl⟩
  obtain ⟨u, hu⟩ : ∃ u, u = run lanes (run (check8bitSame s0 gp 0) t) := ⟨_, rfl⟩
  have hrun : run (seq L rd rs1 rs2) s = run [.lbu rd (at0 tp), pop s1 2, pop s0 1] (run after u) := by
    simp only [seq, before, lanes, after, ht, hu, run_flatten_cons, run_flatten_nil, run_cons, run_nil,
      List.flatMap_cons, List.flatMap_nil, run_append]
  have hkeeps : Keeps (Touch (s.regs.x sp) [s0, s1, gp, tp] [1, 2, varA, varB]) s t := by
    rw [ht]
    exact run_keeps (by simp [before]) (by simp [reg_mem_touch]) rfl
  have hsp : t.regs.x sp = s.regs.x sp := hkeeps.x (r := sp) (by simp [reg_mem_touch])
  have hA : slot t varA = s.regs.x rs1 := by simp [ht, before]
  have hB : slot t varB = s.regs.x rs2 := by simp [ht, before]
  have h1 : slot t 1 = s.regs.x s0 := by simp [ht, before]
  have h2 : slot t 2 = s.regs.x s1 := by simp [ht, before]
  have hs0 : t.regs.x s0 = L.checkSameArray := by simp [ht, before]
  -- the four lanes
  have hapart : ArrayApart L (t.regs.x sp) := hsp ▸ harray
  obtain ⟨hk0, hx0⟩ := lane_run hapart hs0 (.refl _ _) (.inl rfl) (show 0 < 4 by omega)
  obtain ⟨hk, hgp⟩ := lanes_run hapart hs0 [1, 2, 3] hk0 (by simp)
  rw [← hu] at hk hgp
  rw [hx0 gp (by simp), if_pos rfl, hA, hB] at hgp
  have hcount : u.regs.x gp = BitVec.ofNat 32 (count marked) := hgp.trans (count_eq marked)
  have hslot : ∀ k, 1 ≤ k → k < 8 → slot (run after u) k = slot t k := by
    intro k hk1 hk8
    rw [← laneCells_slot hapart hk hk1 hk8]
    simp [after]
  -- the lookup
  have hready : Ready L u := (h.touch hkeeps (by simp) (by simp)).of_keeps hk (by simp [laneCells, reg_mem_touch])
    fun e he k hlt => by
      rw [hsp]
      rintro (hm | hm)
      · exact not_byte_mem_touch (by simp) (h.unused e he k hlt) hm
      · exact harray.tables e he k hlt hm
  have heq : s.regs.x rs1 = s.regs.x rs2 ↔ count marked = 0 := by
    rw [count_eq_zero]
    constructor
    · intro he j _
      simp [marked, he]
    · intro hall
      exact eq_of_byte_eq fun j hj => by simpa [marked] using hall j hj
  have hbyte : (run after u).mem ((run after u).regs.x tp) = flagByte (s.regs.x rs1 = s.regs.x rs2) := by
    have htp : (run after u).regs.x tp = L.sameResultTable + BitVec.ofNat 32 (count marked) := by
      rw [← hcount]
      simp [after]
    have hmem : (run after u).mem = u.mem := by simp [after]
    rw [htp, hmem]
    simp only [heq]
    exact hready.lookup (t := (L.sameResultTable, sameResultTable)) (by simp [Symbols.rodata])
      (sameResultTable_count marked)
  refine ⟨run after u, ?_, ?_⟩
  · have h1' : slot (run after u) 1 = s.regs.x s0 := (hslot 1 (by omega) (by omega)).trans h1
    have h2' : slot (run after u) 2 = s.regs.x s1 := (hslot 2 (by omega) (by omega)).trans h2
    rw [hrun]
    simp [hbyte, flagByte_setWidth, hrd, h1', h2']
  · have hlanes : laneCells L (t.regs.x sp) ⊆ Touch (s.regs.x sp) [s0, s1, gp, tp] [1, 2, varA, varB] ∪ arrayCells L := by
      rw [hsp]
      exact Set.union_subset_union_left _ (touch_subset (by simp) (by simp))
    have hafter : Keeps (Touch (u.regs.x sp) [tp] []) u (run after u) :=
      run_keeps (by simp [after]) (by simp [reg_mem_touch]) rfl
    refine ((hkeeps.mono Set.subset_union_left).trans (hk.mono hlanes)).trans (hafter.mono ?_)
    have hspu : u.regs.x sp = s.regs.x sp := (hk.x (r := sp) (by simp [laneCells, reg_mem_touch])).trans hsp
    rw [hspu]
    exact (touch_subset (by simp) (by simp)).trans Set.subset_union_left

@[simp] theorem seq_straight : Straight (seq L rd rs1 rs2) := by
  simp [seq, la, check8bitSame]

end Seq

/-! ## The macros -/

/-- The bytes of `_check_same_array`. -/
def arrayBytes (L : Symbols) : Set Word := {q | L.array.Contains q}

/-- A test for equality, with its operands. -/
inductive EqualityTest
  | seqz (rd rs : RegIdx)
  | seq (rd rs1 rs2 : RegIdx)

namespace EqualityTest

def rd : EqualityTest → RegIdx
  | seqz d _ | seq d .. => d

/-- Registers other than `gp`, `tp` and `sp`, and a destination that can be written. -/
def Allowed : EqualityTest → Prop
  | seqz d a => Free d ∧ d ≠ zero ∧ Free a
  | seq d a b => Free d ∧ d ≠ zero ∧ Free a ∧ Free b

/-- The expansion. -/
def expand (L : Symbols) : EqualityTest → Code
  | seqz d a => Minirv.seqz L d a
  | seq d a b => Minirv.seq L d a b

/-- What the names of the macros promise. -/
def value (f : RegFile) : EqualityTest → Word
  | seqz _ a => flag (f.x a = 0)
  | seq _ a b => flag (f.x a = f.x b)

/-- The registers that the macro pushes. -/
def spilled : EqualityTest → List RegIdx
  | seqz .. => [s0]
  | seq .. => [s0, s1]

variable {m : EqualityTest}

/-- What a test leaves in `rd` and in the other registers but `gp` and `tp`: its result is in `rd` when it reloads the
pushed registers. -/
theorem run_x (h : Ready L s) (harray : ArrayApart L (s.regs.x sp)) (hsp : m.rd ≠ sp) (h0 : m.rd ≠ zero) {r : RegIdx}
    (hr : r = m.rd ∨ r ≠ gp ∧ r ≠ tp) : (run (m.expand L) s).regs.x r =
      if r ∈ m.spilled then s.regs.x r else if r = m.rd then m.value s.regs else s.regs.x r := by
  cases m with
  | seqz d a =>
    obtain ⟨s', hrun, hk⟩ := seqz_run d a h hsp
    show (run (Minirv.seqz L d a) s).regs.x r = _
    rw [hrun]
    by_cases hs0 : r = s0
    · simp [hs0, spilled]
    · by_cases hrd : r = d
      · have hd : d ≠ s0 := hrd ▸ hs0
        have hd0 : d ≠ zero := h0
        simp [hrd, hd, hd0, spilled, rd, value]
      · obtain ⟨hgp, htp⟩ := hr.resolve_left hrd
        simp [hs0, hrd, spilled, rd, hk.x (r := r) (by simp [reg_mem_touch, hs0, hgp, htp])]
  | seq d a b =>
    obtain ⟨s', hrun, hk⟩ := seq_run d a b h harray hsp
    show (run (Minirv.seq L d a b) s).regs.x r = _
    rw [hrun]
    by_cases hs0 : r = s0
    · simp [hs0, spilled]
    · by_cases hs1 : r = s1
      · simp [hs1, spilled]
      · by_cases hrd : r = d
        · have hd : d ≠ s0 ∧ d ≠ s1 := ⟨hrd ▸ hs0, hrd ▸ hs1⟩
          have hd0 : d ≠ zero := h0
          simp [hrd, hd, hd0, spilled, rd, value]
        · obtain ⟨hgp, htp⟩ := hr.resolve_left hrd
          simp [hs0, hs1, hrd, spilled, rd, hk.x (r := r) (by simp [reg_mem_touch, hs0, hs1, hgp, htp])]

theorem run_mem (h : Ready L s) (harray : ArrayApart L (s.regs.x sp)) (hsp : m.rd ≠ sp) {q : Word}
    (hq : q ∉ zone s ∪ arrayBytes L) : (run (m.expand L) s).mem q = s.mem q := by
  cases m with
  | seqz d a =>
    obtain ⟨s', hrun, hk⟩ := seqz_run d a h hsp
    show (run (Minirv.seqz L d a) s).mem q = s.mem q
    simpa [hrun] using hk.mem (not_byte_mem_touch (by simp) fun hz => hq (.inl hz))
  | seq d a b =>
    obtain ⟨s', hrun, hk⟩ := seq_run d a b h harray hsp
    show (run (Minirv.seq L d a b) s).mem q = s.mem q
    have hout : .byte q ∉ Touch (s.regs.x sp) [s0, s1, gp, tp] [1, 2, varA, varB] ∪ arrayCells L := by
      rintro (hm | ha)
      · exact not_byte_mem_touch (by simp) (fun hz => hq (.inl hz)) hm
      · exact hq (.inr ha)
    simpa [hrun] using hk.mem hout

theorem straight : Straight (m.expand L) := by
  cases m with
  | seqz d a => exact seqz_straight
  | seq d a b => exact seq_straight

/-- A destination that the test does not reload gets the result. -/
theorem computes (h : Ready L s) (harray : ArrayApart L (s.regs.x sp)) (hsp : m.rd ≠ sp) (h0 : m.rd ≠ zero)
    (hs : m.rd ∉ m.spilled ∨ s.regs.x m.rd = m.value s.regs) :
    Computes (m.expand L) s m.rd (m.value s.regs) (zone s ∪ arrayBytes L) where
  value := by
    rw [run_x h harray hsp h0 (.inl rfl), set_x_self, if_neg h0, if_pos rfl]
    by_cases hm : m.rd ∈ m.spilled
    · rw [if_pos hm]
      exact hs.resolve_left fun hn => hn hm
    · rw [if_neg hm]
  regs r hrd hgp htp := by
    rw [run_x h harray hsp h0 (.inr ⟨hgp, htp⟩), if_neg hrd, ite_self]
  mem _ := run_mem h harray hsp
  pc := run_pc straight s

end EqualityTest

/-- **A test for equality leaves its result in `rd`** exactly when `rd` is none of the registers that it reloads at its
end, or held the result before. -/
theorem equalityTest_computes_iff (h : Ready L s) (harray : ArrayApart L (s.regs.x sp)) (m : EqualityTest)
    (hm : m.Allowed) : Computes (m.expand L) s m.rd (m.value s.regs) (zone s ∪ arrayBytes L) ↔
      m.rd ∉ m.spilled ∨ s.regs.x m.rd = m.value s.regs := by
  obtain ⟨hfree, h0⟩ : Free m.rd ∧ m.rd ≠ zero := by
    cases m with
    | seqz d a | seq d a b => exact ⟨hm.1, hm.2.1⟩
  refine ⟨fun hc => ?_, m.computes h harray hfree.2.2 h0⟩
  by_cases hs : m.rd ∈ m.spilled
  · have hv := hc.value
    rw [m.run_x h harray hfree.2.2 h0 (.inl rfl), if_pos hs, set_x_self, if_neg h0] at hv
    exact .inr hv
  · exact .inl hs

/-- `seq a0, a1, a2` on equal operands. -/
theorem equalityTest_computes_iff_seq :
    (run ((EqualityTest.seq 10 11 12).expand Symbols.sample) (sampleMachine 5)).regs.x 10 = 1 :=
  ((equalityTest_computes_iff (sample_ready 5) (sample_arrayApart 5) (.seq 10 11 12)
    ⟨by decide, by decide, by decide, by decide⟩).mpr (.inl (by decide))).value

/-- `seqz s0, s1` on 7: `s0`, which held 7, holds it again. -/
theorem seqz_s0_not_computes : Ready Symbols.sample (sampleMachine 7) ∧
    ArrayApart Symbols.sample ((sampleMachine 7).regs.x sp) ∧ (EqualityTest.seqz s0 s1).Allowed ∧
    ¬ Computes ((EqualityTest.seqz s0 s1).expand Symbols.sample) (sampleMachine 7) s0
      ((EqualityTest.seqz s0 s1).value (sampleMachine 7).regs) (zone (sampleMachine 7) ∪ arrayBytes Symbols.sample) := by
  refine ⟨sample_ready 7, sample_arrayApart 7, ⟨by decide, by decide, by decide⟩, fun hc => ?_⟩
  have hold : (run (seqz Symbols.sample s0 s1) (sampleMachine 7)).regs.x s0 = 7 := seqz_s0 (sample_ready 7)
  have h7 : (7 : Word) = 0 := hold.symm.trans hc.value
  cases h7

end Minirv
