import Rv32i.Minirv.Equal

/-!
# minirv: branches

A branch macro computes 0 or 1 in `tp`, and `branch_resolve` jumps to one of two addresses that it stores in words
below `sp`.

* `branchResolve_branches` — where the jump goes;
* `Splits` — a macro as such a computation with a jump behind it, one lemma for each of the six macros;
* `branch_branches` — every branch goes to its target when its condition holds, and behind itself otherwise.
-/

namespace Minirv

open Rv32 Bytes

variable {L : Symbols} {s : Machine} {target nonTaken dest : Word} {bytes : Set Word}

/-! ## The jump -/

/-- The code ends with its only jump, to `dest`; it changes `gp`, `tp` and `bytes` only. -/
structure Branches (c : Code) (s : Machine) (dest : Word) (bytes : Set Word) : Prop where
  pc : (run c s).pc = dest
  jump : ∃ body, c = body ++ [jr tp] ∧ Straight body
  regs : ∀ r, r ≠ gp → r ≠ tp → (run c s).regs.x r = s.regs.x r
  mem : ∀ q, q ∉ bytes → (run c s).mem q = s.mem q

@[simp] theorem within_jr {p : Word} {rs : List RegIdx} {ns : List ℕ} {r : RegIdx} :
    (jr r).Within p (Touch p rs ns) ↔ zero ∈ rs := Iff.rfl

/-- The load behind `sp + 4 * tp`: `VAR_A` is the higher word and `VAR_B` the lower. -/
theorem exec_lw_choice {b : Bool} (htp : s.regs.x tp = s.regs.x sp + (flag b + flag b + (flag b + flag b))) :
    exec (.lw tp ⟨BitVec.ofInt 12 (-(varB : ℤ) * 4), tp⟩) s = write s tp (slot s (if b then varA else varB)) := by
  have haddr : (⟨BitVec.ofInt 12 (-(varB : ℤ) * 4), tp⟩ : Addr).eval s.regs =
      slotAddr (s.regs.x sp) (if b then varA else varB) := by
    show s.regs.x tp + (-20 : Word) = s.regs.x sp - BitVec.ofNat 32 (4 * if b then varA else varB)
    rw [htp]
    cases b with
    | false =>
      show s.regs.x sp + 0 + (-20 : Word) = s.regs.x sp - 20
      ring
    | true =>
      show s.regs.x sp + 4 + (-20 : Word) = s.regs.x sp - 16
      ring
  rw [exec_lw, haddr]
  rfl

theorem even_and_not_one {a : Word} (ha : a.getLsbD 0 = false) : a &&& ~~~1#32 = a := by
  apply BitVec.eq_of_getLsbD_eq
  intro i hi
  cases i with
  | zero => rw [BitVec.getLsbD_and, ha, Bool.false_and]
  | succ i =>
    have hone : (1#32).getLsbD (i + 1) = false := by
      rw [BitVec.getLsbD_one, decide_eq_false (Nat.succ_ne_zero i), Bool.and_false]
    rw [BitVec.getLsbD_and, BitVec.getLsbD_not, hone, decide_eq_true hi, Bool.not_false, Bool.and_self, Bool.and_true]

/-- The instructions of `branch_resolve` in front of its jump. -/
def branchStore (target : Word) (isTpHighSelTarget : Bool) (nonTaken : Word) : Code := List.flatten
  [slli tp tp 2, [.add tp sp tp],
    la gp (if isTpHighSelTarget then target else nonTaken), [.sw gp (spVar varA)],
    la gp (if isTpHighSelTarget then nonTaken else target), [.sw gp (spVar varB)],
    [.lw tp ⟨BitVec.ofInt 12 (-(varB : ℤ) * 4), tp⟩]]

theorem branchResolve_eq (target : Word) (sel : Bool) (nonTaken : Word) :
    branchResolve target sel nonTaken = branchStore target sel nonTaken ++ [jr tp] := by
  cases sel with
  | false | true => simp [branchResolve, branchStore]

theorem branchStore_straight {sel : Bool} : Straight (branchStore target sel nonTaken) := by
  simp [branchStore, la]

theorem branchResolve_length {sel : Bool} : (branchResolve target sel nonTaken).length = 11 := by
  rw [branchResolve_eq]
  simp [branchStore, la]

/-- The address that `branch_resolve` loads into `tp`. -/
theorem branchStore_tp {b sel : Bool} (htp : s.regs.x tp = flag b) :
    (run (branchStore target sel nonTaken) s).regs.x tp = if b = sel then target else nonTaken := by
  let before : Code := List.flatten
    [slli tp tp 2, [.add tp sp tp],
      la gp (if sel then target else nonTaken), [.sw gp (spVar varA)],
      la gp (if sel then nonTaken else target), [.sw gp (spVar varB)]]
  obtain ⟨t, ht⟩ : ∃ t, t = run before s := ⟨_, rfl⟩
  have hrun : run (branchStore target sel nonTaken) s =
      exec (.lw tp ⟨BitVec.ofInt 12 (-(varB : ℤ) * 4), tp⟩) t := by
    simp only [branchStore, before, ht, run_flatten_cons, run_flatten_nil, run_cons, run_nil]
  have htp' : t.regs.x tp = t.regs.x sp + (flag b + flag b + (flag b + flag b)) := by simp [ht, before, htp]
  have hA : slot t varA = if sel then target else nonTaken := by simp [ht, before]
  have hB : slot t varB = if sel then nonTaken else target := by simp [ht, before]
  rw [hrun, exec_lw_choice htp', write_x, if_pos ⟨rfl, by simp⟩]
  cases b with
  | false =>
    rw [if_neg nofun, hB]
    cases sel <;> rfl
  | true =>
    rw [if_pos rfl, hA]
    cases sel <;> rfl

/-- **`branch_resolve`** jumps to the target when `tp` is what it is told to look for. -/
theorem branchResolve_branches {b sel : Bool} (htp : s.regs.x tp = flag b) (ht : target.getLsbD 0 = false)
    (hn : nonTaken.getLsbD 0 = false) :
    Branches (branchResolve target sel nonTaken) s (if b = sel then target else nonTaken) (zone s) := by
  have hkeeps : Keeps (Touch (s.regs.x sp) [zero, gp, tp] [varA, varB]) s
      (run (branchResolve target sel nonTaken) s) := by
    rw [branchResolve_eq]
    exact run_keeps (by simp [branchStore]) (by simp [reg_mem_touch]) rfl
  have hk := hkeeps.restore (by simp)
  refine ⟨?_, ⟨_, branchResolve_eq .., branchStore_straight⟩, ?_, ?_⟩
  · have hdest : (if b = sel then target else nonTaken).getLsbD 0 = false := by
      by_cases hb : b = sel
      · rw [if_pos hb, ht]
      · rw [if_neg hb, hn]
    rw [branchResolve_eq, run_append, run_cons, run_nil, jr, exec_jalr]
    show (at0 tp).eval _ &&& ~~~1#32 = _
    rw [at0_eval, branchStore_tp htp, even_and_not_one hdest]
  · intro r hgp htp
    exact hk.x (by simp [reg_mem_touch, hgp, htp])
  · intro q hq
    exact hk.mem (not_byte_mem_touch (by simp) hq)

/-! ## The tests -/

/-- The macro computes a flag in `tp` and jumps to its target when that is the flag to look for, which it is when
`cond` holds. -/
def Splits (L : Symbols) (s : Machine) (branch : Word → Word → Code) (cond : Bool) : Prop :=
  ∃ test sel b, (∀ target nonTaken, branch target nonTaken = test ++ branchResolve target sel nonTaken) ∧
    Straight test ∧ Computes test s tp (flag b) (zone s ∪ arrayBytes L) ∧ (b = sel ↔ cond)

theorem Computes.mono {c : Code} {rd : RegIdx} {v : Word} {bytes' : Set Word} (h : Computes c s rd v bytes)
    (hb : bytes ⊆ bytes') : Computes c s rd v bytes' :=
  ⟨h.value, h.regs, fun q hq => h.mem q fun hm => hq (hb hm), h.pc⟩

/-- `_or1_table` tells whether one of the signs is set. -/
theorem or1Table_signs (v : Word) : or1Table[v.msb.toNat + (v + (-1 : Word)).msb.toNat]? =
    some (flagByte (v.toInt ≤ 0)) := by
  have hr : (v + (-1 : Word)).toNat = (v.toNat + (2 ^ 32 - 1)) % 2 ^ 32 := BitVec.toNat_add v (-1)
  rcases msb_cases v with ⟨hv, hvi, hvl⟩ | ⟨hv, hvi, hvl⟩ <;>
    rcases msb_cases (v + (-1 : Word)) with ⟨hd, -, hdl⟩ | ⟨hd, -, hdl⟩ <;> rw [hv, hd, hvi] <;> rw [hr] at hdl <;> first
    | (rw [decide_eq_true (by omega)]; rfl)
    | (rw [decide_eq_false (by omega)]; rfl)

theorem notPositive_straight {rs2 : RegIdx} : Straight (notPositive L rs2) := by
  simp [notPositive, la]

/-- What `blt` and `bge` compute for `x0` on the left. -/
theorem notPositive_computes (h : Ready L s) {rs2 : RegIdx} (h2 : rs2 ≠ gp) :
    Computes (notPositive L rs2) s tp (flag ((s.regs.x rs2).toInt ≤ 0)) (zone s) := by
  let before : Code := List.flatten [msb gp rs2, [.addi tp rs2 (-1)], msb tp tp, [.add gp gp tp],
    la tp L.or1Table, [.add tp gp tp]]
  have hrun : run (notPositive L rs2) s = exec (.lbu tp (at0 tp)) (run before s) := by
    simp only [notPositive, before, run_flatten_cons, run_flatten_nil, run_cons, run_nil]
  have hkeeps : Keeps (Touch (s.regs.x sp) [gp, tp] [varC]) s (run before s) :=
    run_keeps (by simp [before]) (by simp [reg_mem_touch]) rfl
  have hsign : ∀ v w : Word, sign v + sign w = BitVec.ofNat 32 (v.msb.toNat + w.msb.toNat) := by
    intro v w
    unfold sign
    cases v.msb <;> cases w.msb <;> rfl
  have htp : (run before s).regs.x tp =
      L.or1Table + BitVec.ofNat 32 ((s.regs.x rs2).msb.toNat + (s.regs.x rs2 + (-1 : Word)).msb.toNat) := by
    rw [← hsign, BitVec.add_comm]
    simp [before, h2]
  have hbyte : (run before s).mem ((run before s).regs.x tp) = flagByte ((s.regs.x rs2).toInt ≤ 0) := by
    rw [htp]
    exact (h.touch hkeeps (by simp) (by simp)).lookup (t := (L.or1Table, or1Table)) (by simp [Symbols.rodata])
      (or1Table_signs _)
  rw [exec_lbu_at0, hbyte, flagByte_setWidth] at hrun
  exact computes_of_write hrun hkeeps (by simp) notPositive_straight

section Macros

theorem splits_of_computes (sel : Bool) {branch : Word → Word → Code} {test : Code} {b cond : Bool}
    (hbranch : ∀ target nonTaken, branch target nonTaken = test ++ branchResolve target sel nonTaken)
    (hs : Straight test) (hc : Computes test s tp (flag b) (zone s)) (hcond : b = sel ↔ cond) :
    Splits L s branch cond :=
  ⟨test, sel, b, hbranch, hs, hc.mono Set.subset_union_left, hcond⟩

variable (h : Ready L s) (harray : ArrayApart L (s.regs.x sp))
include h

theorem bltu_splits (rs1 rs2 : RegIdx) : Splits L s (bltu L rs1 rs2) (taken .bltu (s.regs.x rs1) (s.regs.x rs2)) :=
  splits_of_computes true (fun _ _ => rfl) sltTemplate_straight (sltu_computes h) (by simp [taken])

theorem bgeu_splits (rs1 rs2 : RegIdx) : Splits L s (bgeu L rs1 rs2) (taken .bgeu (s.regs.x rs1) (s.regs.x rs2)) :=
  splits_of_computes false (fun _ _ => rfl) sltTemplate_straight (sltu_computes h) (by simp [taken])

/-- `x0` on the right asks for the sign, on the left for a positive value. -/
theorem blt_splits (rs1 : RegIdx) {rs2 : RegIdx} (h2 : rs2 ≠ gp) : Splits L s (blt L rs1 rs2) (taken .blt (s.regs.x rs1) (s.regs.x rs2)) := by
  have hslt : Computes (slt L tp rs1 rs2) s tp _ (zone s) := slt_computes h
  by_cases hz2 : rs2 = zero
  · refine splits_of_computes true (fun _ _ => by rw [blt, if_pos hz2]) msb_straight (msb_computes (by simp)) ?_
    simp [taken, hz2, BitVec.msb_eq_toInt]
  · by_cases hz1 : rs1 = zero
    · refine splits_of_computes false (fun _ _ => by rw [blt, if_neg hz2, if_pos hz1]) notPositive_straight
        (notPositive_computes h h2) ?_
      simp [taken, hz1]
    · refine splits_of_computes true (fun _ _ => ?_) sltTemplate_straight hslt ?_
      · rw [blt, if_neg hz2, if_neg hz1]
        rfl
      · simp [taken]

theorem bge_splits (rs1 : RegIdx) {rs2 : RegIdx} (h2 : rs2 ≠ gp) : Splits L s (bge L rs1 rs2) (taken .bge (s.regs.x rs1) (s.regs.x rs2)) := by
  have hslt : Computes (slt L tp rs1 rs2) s tp _ (zone s) := slt_computes h
  by_cases hz1 : rs1 = zero
  · refine splits_of_computes true (fun _ _ => by rw [bge, if_pos hz1]) notPositive_straight
      (notPositive_computes h h2) ?_
    simp [taken, hz1]
  · refine splits_of_computes false (fun _ _ => ?_) sltTemplate_straight hslt ?_
    · rw [bge, if_neg hz1]
      rfl
    · simp [taken]

include harray

/-- A test for equality as the test of a branch. -/
theorem splits_of_test (sel : Bool) {branch : Word → Word → Code} {cond : Bool} (m : EqualityTest) (hm : m.rd = tp)
    (hbranch : ∀ target nonTaken, branch target nonTaken = m.expand L ++ branchResolve target sel nonTaken)
    {b : Bool} (hb : m.value s.regs = flag b) (hcond : b = sel ↔ cond) : Splits L s branch cond := by
  have hspilled : m.rd ∉ m.spilled := by
    rw [hm]
    cases m with
    | seqz d a | seq d a b => simp [EqualityTest.spilled]
  have hc := m.computes h harray (by simp [hm]) (by simp [hm]) (.inl hspilled)
  rw [hm, hb] at hc
  exact ⟨_, sel, b, hbranch, m.straight, hc, hcond⟩

/-- `x0` on the left is `x0` on the right. -/
theorem beq_splits (rs1 rs2 : RegIdx) : Splits L s (beq L rs1 rs2) (taken .beq (s.regs.x rs1) (s.regs.x rs2)) := by
  by_cases hz2 : rs2 = zero
  · refine splits_of_test h harray true (.seqz tp rs1) rfl (fun _ _ => ?_) rfl ?_
    · rw [beq, if_pos hz2]
      rfl
    · simp [taken, hz2]
  · by_cases hz1 : rs1 = zero
    · refine splits_of_test h harray true (.seqz tp rs2) rfl (fun _ _ => ?_) rfl ?_
      · rw [beq, if_neg hz2, if_pos hz1, beq, if_pos hz1]
        rfl
      · simp [taken, hz1]
        exact eq_comm
    · refine splits_of_test h harray true (.seq tp rs1 rs2) rfl (fun _ _ => ?_) rfl ?_
      · rw [beq, if_neg hz2, if_neg hz1]
        rfl
      · simp [taken]

theorem bne_splits (rs1 rs2 : RegIdx) : Splits L s (bne L rs1 rs2) (taken .bne (s.regs.x rs1) (s.regs.x rs2)) := by
  by_cases hz2 : rs2 = zero
  · refine splits_of_test h harray false (.seqz tp rs1) rfl (fun _ _ => ?_) rfl ?_
    · rw [bne, if_pos hz2]
      rfl
    · simp [taken, hz2]
  · by_cases hz1 : rs1 = zero
    · refine splits_of_test h harray false (.seqz tp rs2) rfl (fun _ _ => ?_) rfl ?_
      · rw [bne, if_neg hz2, if_pos hz1, bne, if_pos hz1]
        rfl
      · simp [taken, hz1]
        exact ne_comm
    · refine splits_of_test h harray false (.seq tp rs1 rs2) rfl (fun _ _ => ?_) rfl ?_
      · rw [bne, if_neg hz2, if_neg hz1]
        rfl
      · simp [taken]

end Macros

/-! ## The branches -/

/-- A branch macro, with its operands. -/
inductive Branch
  | beq (rs1 rs2 : RegIdx)
  | bne (rs1 rs2 : RegIdx)
  | blt (rs1 rs2 : RegIdx)
  | bge (rs1 rs2 : RegIdx)
  | bltu (rs1 rs2 : RegIdx)
  | bgeu (rs1 rs2 : RegIdx)
  | beqz (rs : RegIdx)
  | bnez (rs : RegIdx)
  | blez (rs : RegIdx)
  | bgez (rs : RegIdx)
  | bltz (rs : RegIdx)
  | bgtz (rs : RegIdx)
  | bgt (rs rt : RegIdx)
  | ble (rs rt : RegIdx)
  | bgtu (rs rt : RegIdx)
  | bleu (rs rt : RegIdx)

namespace Branch

/-- The operands. -/
def operands : Branch → List RegIdx
  | beq a b | bne a b | blt a b | bge a b | bltu a b | bgeu a b | bgt a b | ble a b | bgtu a b | bleu a b => [a, b]
  | beqz a | bnez a | blez a | bgez a | bltz a | bgtz a => [a]

/-- The expansion, with its label at `nonTaken`. -/
def expand (L : Symbols) : Branch → Word → Word → Code
  | beq a b => Minirv.beq L a b
  | bne a b => Minirv.bne L a b
  | blt a b => Minirv.blt L a b
  | bge a b => Minirv.bge L a b
  | bltu a b => Minirv.bltu L a b
  | bgeu a b => Minirv.bgeu L a b
  | beqz a => Minirv.beqz L a
  | bnez a => Minirv.bnez L a
  | blez a => Minirv.blez L a
  | bgez a => Minirv.bgez L a
  | bltz a => Minirv.bltz L a
  | bgtz a => Minirv.bgtz L a
  | bgt a b => Minirv.bgt L a b
  | ble a b => Minirv.ble L a b
  | bgtu a b => Minirv.bgtu L a b
  | bleu a b => Minirv.bleu L a b

/-- The expansion at `pc`: its label is behind it. -/
def code (L : Symbols) (m : Branch) (target pc : Word) : Code :=
  m.expand L target (pc + BitVec.ofNat 32 (4 * (m.expand L target 0).length))

/-- When the architecture takes the branch. -/
def condition (f : RegFile) : Branch → Bool
  | beq a b => taken .beq (f.x a) (f.x b)
  | bne a b => taken .bne (f.x a) (f.x b)
  | blt a b => taken .blt (f.x a) (f.x b)
  | bge a b => taken .bge (f.x a) (f.x b)
  | bltu a b => taken .bltu (f.x a) (f.x b)
  | bgeu a b => taken .bgeu (f.x a) (f.x b)
  | beqz a => f.x a = 0
  | bnez a => f.x a ≠ 0
  | blez a => (f.x a).toInt ≤ 0
  | bgez a => 0 ≤ (f.x a).toInt
  | bltz a => (f.x a).toInt < 0
  | bgtz a => 0 < (f.x a).toInt
  | bgt a b => (f.x b).toInt < (f.x a).toInt
  | ble a b => (f.x a).toInt ≤ (f.x b).toInt
  | bgtu a b => (f.x b).toNat < (f.x a).toNat
  | bleu a b => (f.x a).toNat ≤ (f.x b).toNat

/-- Every branch is a test with a jump behind it. -/
theorem splits (h : Ready L s) (harray : ArrayApart L (s.regs.x sp)) (m : Branch) (hm : gp ∉ m.operands) :
    Splits L s (m.expand L) (m.condition s.regs) := by
  have hgp : ∀ r ∈ m.operands, r ≠ gp := fun r hr he => hm (he ▸ hr)
  have hz : zero ≠ gp := by simp
  have hx0 : s.regs.x zero = 0 := x_zero s.regs
  cases m with
  | beq a b => exact beq_splits h harray a b
  | bne a b => exact bne_splits h harray a b
  | blt a b => exact blt_splits h a (hgp b (by simp [operands]))
  | bge a b => exact bge_splits h a (hgp b (by simp [operands]))
  | bltu a b => exact bltu_splits h a b
  | bgeu a b => exact bgeu_splits h a b
  | beqz a =>
    show Splits L s (Minirv.beq L a zero) (taken .beq (s.regs.x a) 0)
    rw [← hx0]
    exact beq_splits h harray a zero
  | bnez a =>
    show Splits L s (Minirv.bne L a zero) (taken .bne (s.regs.x a) 0)
    rw [← hx0]
    exact bne_splits h harray a zero
  | blez a =>
    show Splits L s (Minirv.bge L zero a) (taken .bge 0 (s.regs.x a))
    rw [← hx0]
    exact bge_splits h zero (hgp a (by simp [operands]))
  | bgez a =>
    show Splits L s (Minirv.bge L a zero) (taken .bge (s.regs.x a) 0)
    rw [← hx0]
    exact bge_splits h a hz
  | bltz a =>
    show Splits L s (Minirv.blt L a zero) (taken .blt (s.regs.x a) 0)
    rw [← hx0]
    exact blt_splits h a hz
  | bgtz a =>
    show Splits L s (Minirv.blt L zero a) (taken .blt 0 (s.regs.x a))
    rw [← hx0]
    exact blt_splits h zero (hgp a (by simp [operands]))
  | bgt a b => exact blt_splits h b (hgp a (by simp [operands]))
  | ble a b => exact bge_splits h b (hgp a (by simp [operands]))
  | bgtu a b => exact bltu_splits h b a
  | bleu a b => exact bgeu_splits h b a

theorem expand_length (h : Ready L s) (harray : ArrayApart L (s.regs.x sp)) (m : Branch) (hm : gp ∉ m.operands)
    (target nonTaken nonTaken' : Word) :
    (m.expand L target nonTaken).length = (m.expand L target nonTaken').length := by
  obtain ⟨test, sel, b, heq, -⟩ := m.splits h harray hm
  rw [heq, heq, List.length_append, List.length_append, branchResolve_length, branchResolve_length]

end Branch

theorem even_add_four_mul {a : Word} (ha : a.getLsbD 0 = false) (n : ℕ) :
    (a + BitVec.ofNat 32 (4 * n)).getLsbD 0 = false := by
  rw [BitVec.getLsbD, Nat.testBit_zero, decide_eq_false_iff_not] at ha ⊢
  rw [BitVec.toNat_add, BitVec.toNat_ofNat]
  omega

/-- **The branches branch**: to the target when the architecture takes them, behind themselves otherwise. -/
theorem branch_branches (h : Ready L s) (harray : ArrayApart L (s.regs.x sp)) (m : Branch)
    (hm : ∀ r ∈ m.operands, r ≠ gp ∧ r ≠ tp) (ht : target.getLsbD 0 = false) (hpc : s.pc.getLsbD 0 = false) :
    Branches (m.code L target s.pc) s
      (if m.condition s.regs then target else s.pc + BitVec.ofNat 32 (4 * (m.code L target s.pc).length))
      (zone s ∪ arrayBytes L) := by
  have hgp : gp ∉ m.operands := fun hmem => (hm gp hmem).1 rfl
  have hlen : (m.code L target s.pc).length = (m.expand L target 0).length := m.expand_length h harray hgp ..
  rw [hlen]
  obtain ⟨n, hn⟩ : ∃ n, n = s.pc + BitVec.ofNat 32 (4 * (m.expand L target 0).length) := ⟨_, rfl⟩
  have hcode : m.code L target s.pc = m.expand L target n := by rw [Branch.code, ← hn]
  have hneven : n.getLsbD 0 = false := hn ▸ even_add_four_mul hpc _
  rw [← hn, hcode]
  obtain ⟨test, sel, b, heq, hstraight, hc, hcond⟩ := m.splits h harray hgp
  obtain ⟨t, ht'⟩ : ∃ t, t = run test s := ⟨_, rfl⟩
  have htp : t.regs.x tp = flag b := by
    rw [ht', hc.value, set_x_self, if_neg (by simp)]
  have hsp : t.regs.x sp = s.regs.x sp := ht' ▸ hc.regs sp (by simp) (by simp) (by simp)
  have hb : Branches (branchResolve target sel n) t _ (zone t) := branchResolve_branches htp ht hneven
  rw [heq]
  constructor
  · rw [run_append, ← ht', hb.pc]
    simp only [hcond]
  · obtain ⟨body, hbody, hs⟩ := hb.jump
    exact ⟨test ++ body, by rw [hbody, List.append_assoc], straight_append.mpr ⟨hstraight, hs⟩⟩
  · intro r hgp htp
    rw [run_append, ← ht', hb.regs r hgp htp, ht', hc.regs r htp hgp htp]
  · intro q hq
    rw [run_append, ← ht', hb.mem q fun hz => hq (.inl ?_), ht', hc.mem q hq]
    rwa [zone, hsp] at hz

/-- `blt x0, a0` on 5. -/
theorem branch_branches_blt :
    (run ((Branch.blt zero 10).code Symbols.sample 0x80001000 0x80000000) (sampleMachine 5)).pc = 0x80001000 :=
  (branch_branches (sample_ready 5) (sample_arrayApart 5) (.blt zero 10) (by decide) rfl rfl).pc

end Minirv
