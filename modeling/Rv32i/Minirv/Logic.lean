import Rv32i.Minirv.Compare

/-!
# minirv: bitwise operations

`logic` looks the four bytes of its result up, in a table of 256 rows and 256 columns whose index it puts together in
`VAR_D`; the destination holds the base of the table meanwhile.

* `Ready.lookup_logic` — the entries of the three tables;
* `logicBytes_slot` — the bytes of `VAR_A` and `VAR_B` combined into `VAR_C`;
* `bitwise_computes` — `and`, `or`, `xor`, their immediate forms and `not` leave what the architecture specifies;
* `bitwise_reaches` — **the machine that fetches them gets there**.
-/

namespace Minirv

open Rv32 Bytes

/-! ## The macros -/

/-- `logic8_byte_internal`. -/
def logic8ByteInternal (lutReg : RegIdx) (b : ℕ) : Code :=
  [.lbu tp (spVarByte varA b), .sb tp (spVarByte varD 1), .lbu tp (spVarByte varB b), .sb tp (spVarByte varD 0),
    .lw tp (spVar varD), .add tp lutReg tp, .lbu tp (at0 tp), .sb tp (spVarByte varC b)]

/-- The lines of `logic` behind its checks. -/
def logicLines (lut : Word) (rd rs1 rs2 : RegIdx) : Code := List.flatten
  [[.sw rs1 (spVar varA), .sw rs2 (spVar varB)], la rd lut, [.sw zero (spVar varD)],
    logic8ByteInternal rd 3, logic8ByteInternal rd 2, logic8ByteInternal rd 1, logic8ByteInternal rd 0,
    [.lw rd (spVar varC)]]

/-- `logic`; `none` is `.abort`. -/
def logic (lut : Word) (rd rs1 rs2 : RegIdx) : Option Code :=
  if rd = zero then some []
  else if rd = sp ∨ rs1 = sp ∨ rs2 = sp then none
  else if rd = gp ∨ rs1 = gp ∨ rs2 = gp then none
  else if rd = tp ∨ rs1 = tp then none
  else some (logicLines lut rd rs1 rs2)

def and (L : Symbols) : RegIdx → RegIdx → RegIdx → Option Code := logic L.and8Table
def or (L : Symbols) : RegIdx → RegIdx → RegIdx → Option Code := logic L.or8Table
def xor (L : Symbols) : RegIdx → RegIdx → RegIdx → Option Code := logic L.xor8Table

/-- `def_itype` of a macro that may abort. -/
def itypeChecked (rtype : RegIdx → RegIdx → RegIdx → Option Code) (rd rs1 : RegIdx) (imm : BitVec 12) : Option Code :=
  (rtype rd rs1 tp).map fun c => li tp imm :: c

def andi (L : Symbols) : RegIdx → RegIdx → BitVec 12 → Option Code := itypeChecked (and L)
def ori (L : Symbols) : RegIdx → RegIdx → BitVec 12 → Option Code := itypeChecked (or L)
def xori (L : Symbols) : RegIdx → RegIdx → BitVec 12 → Option Code := itypeChecked (xor L)

/-! ## The tables -/

/-- The operations that have a table. -/
inductive LogicOp
  | and | or | xor

def LogicOp.apply {w : ℕ} : LogicOp → BitVec w → BitVec w → BitVec w
  | .and => (· &&& ·)
  | .or => (· ||| ·)
  | .xor => (· ^^^ ·)

def LogicOp.table (L : Symbols) : LogicOp → Word
  | .and => L.and8Table
  | .or => L.or8Table
  | .xor => L.xor8Table

theorem byte_apply (o : LogicOp) (v w : Word) (j : ℕ) :
    byte (o.apply v w) j = o.apply (byte v j) (byte w j) := by
  apply BitVec.eq_of_getLsbD_eq
  intro i hi
  cases o <;> simp only [LogicOp.apply, BitVec.getLsbD_and, BitVec.getLsbD_or, BitVec.getLsbD_xor, getLsbD_byte, hi,
    decide_true, Bool.true_and]

section Logic

variable {L : Symbols} {s : Machine} {rd rs1 rs2 : RegIdx}

/-- **An entry of a table**: the row is byte 1 of the index, the column is byte 0. -/
theorem Ready.lookup_logic (h : Ready L s) (o : LogicOp) {w : Word} (hw : ∀ j < 4, 2 ≤ j → byte w j = 0) :
    s.mem (o.table L + w) = o.apply (byte w 1) (byte w 0) := by
  have hindex : w = BitVec.ofNat 32 ((byte w 1).toNat * 256 + (byte w 0).toNat) := by
    have h2 := congrArg BitVec.toNat (hw 2 (by omega) (by omega))
    have h3 := congrArg BitVec.toNat (hw 3 (by omega) (by omega))
    rw [byte_toNat, show (0 : Byte).toNat = 0 from rfl] at h2 h3
    have hlt := w.isLt
    apply BitVec.eq_of_toNat_eq
    rw [BitVec.toNat_ofNat, byte_toNat, byte_toNat]
    omega
  have hmem : (L.logicShiftTable, lutBin) ∈ L.rodata := by simp [Symbols.rodata]
  obtain ⟨hand, hor, hxor⟩ := lutBin_logic (byte w 1) (byte w 0)
  cases o with
  | and =>
    have hb := h.lookup hmem hand
    rwa [← hindex] at hb
  | or =>
    have hb := h.lookup hmem hor
    rw [BitVec.ofNat_add, ← hindex, ← BitVec.add_assoc] at hb
    exact hb
  | xor =>
    have hb := h.lookup hmem hxor
    rw [BitVec.ofNat_add, BitVec.ofNat_add, ← hindex, ← BitVec.add_assoc, ← BitVec.add_assoc] at hb
    exact hb

/-! ## The bytes of the result -/

@[simp] theorem logic8ByteInternal_within {p : Word} {rs : List RegIdx} {ns : List ℕ} {b : ℕ} (hb : b < 4) :
    Within p (Touch p rs ns) (logic8ByteInternal rd b) ↔ tp ∈ rs ∧ varC ∈ ns ∧ varD ∈ ns := by
  simp [logic8ByteInternal, hb]
  tauto

/-- The high bytes of the index are zero. -/
def IndexClear (s : Machine) : Prop := ∀ j < 4, 2 ≤ j → byte (slot s varD) j = 0

/-- One byte of `VAR_A` and of `VAR_B` is combined into `VAR_C`; the index stays clear. -/
theorem logic8ByteInternal_slot (h : Ready L s) (o : LogicOp) (hrd : s.regs.x rd = o.table L) (htp : rd ≠ tp)
    (hclear : IndexClear s) {b : ℕ} (hb : b < 4) :
    slot (run (logic8ByteInternal rd b) s) varC =
      setByte (slot s varC) b (o.apply (byte (slot s varA) b) (byte (slot s varB) b)) ∧
    IndexClear (run (logic8ByteInternal rd b) s) := by
  obtain ⟨t, ht⟩ : ∃ t, t = run [.lbu tp (spVarByte varA b), .sb tp (spVarByte varD 1), .lbu tp (spVarByte varB b),
    .sb tp (spVarByte varD 0)] s := ⟨_, rfl⟩
  have hkeeps : Keeps (Touch (s.regs.x sp) [tp] [varD]) s t := by
    rw [ht]
    exact run_keeps (by simp) (by simp [reg_mem_touch]) rfl
  have hready := h.touch hkeeps (by simp) (by simp)
  have hD : slot t varD = setByte (setByte (slot s varD) 1 (byte (slot s varA) b)) 0 (byte (slot s varB) b) := by
    simp [ht, hb, byte_setWidth]
  have hC : slot t varC = slot s varC := hkeeps.slot (by simp) rfl (by simp) (by simp)
  have hbase : t.regs.x rd = o.table L := (hkeeps.x (r := rd) (by simp [reg_mem_touch, htp])).trans hrd
  have hbytes : ∀ j < 4, byte (slot t varD) j =
      if j = 0 then byte (slot s varB) b else if j = 1 then byte (slot s varA) b else byte (slot s varD) j := by
    intro j hj
    rw [hD, byte_setByte _ _ _ hj, byte_setByte _ _ _ hj]
  have hclear' : IndexClear t := by
    intro j hj h2
    rw [hbytes j hj, if_neg (by omega), if_neg (by omega), hclear j hj h2]
  have hlookup := hready.lookup_logic o hclear'
  rw [hbytes 1 (by omega), hbytes 0 (by omega), if_neg (by omega), if_pos rfl, if_pos rfl] at hlookup
  have hrun : run (logic8ByteInternal rd b) s =
      run [.lw tp (spVar varD), .add tp rd tp, .lbu tp (at0 tp), .sb tp (spVarByte varC b)] t := by
    simp [logic8ByteInternal, ht]
  rw [hrun]
  constructor
  · simp [hb, htp, hbase, hlookup, hC, byte_setWidth]
  · intro j hj h2
    rw [← hclear' j hj h2]
    simp [hb]

/-- The bytes that are combined. -/
theorem logicBytes_slot (h : Ready L s) (o : LogicOp) (hrd : s.regs.x rd = o.table L) (htp : rd ≠ tp)
    (hclear : IndexClear s) {bs : List ℕ} (hbs : ∀ b ∈ bs, b < 4) {j : ℕ} (hj : j < 4) :
    byte (slot (run (bs.map (logic8ByteInternal rd)).flatten s) varC) j =
      if j ∈ bs then o.apply (byte (slot s varA) j) (byte (slot s varB) j) else byte (slot s varC) j := by
  induction bs generalizing s with
  | nil => simp
  | cons b bs ih =>
    have hb := hbs b List.mem_cons_self
    have hkeeps : Keeps (Touch (s.regs.x sp) [tp] [varC, varD]) s (run (logic8ByteInternal rd b) s) :=
      run_keeps (by simp [hb]) (by simp [reg_mem_touch]) rfl
    obtain ⟨hC, hclear'⟩ := logic8ByteInternal_slot h o hrd htp hclear hb
    have hrd' := (hkeeps.x (r := rd) (by simp [reg_mem_touch, htp])).trans hrd
    have hA : slot (run (logic8ByteInternal rd b) s) varA = slot s varA :=
      hkeeps.slot (by simp) rfl (by simp) (by simp)
    have hB : slot (run (logic8ByteInternal rd b) s) varB = slot s varB :=
      hkeeps.slot (by simp) rfl (by simp) (by simp)
    rw [List.map_cons, run_flatten_cons, ih (h.touch hkeeps (by simp) (by simp)) hrd' hclear'
      fun c hc => hbs c (List.mem_cons_of_mem _ hc), hA, hB, hC, byte_setByte _ _ _ hj]
    by_cases hjb : j = b
    · simp [hjb]
    · simp [hjb]

@[simp] theorem logicLines_within {p lut : Word} {rs : List RegIdx} {ns : List ℕ} :
    Within p (Touch p rs ns) (logicLines lut rd rs1 rs2) ↔
      rd ∈ rs ∧ tp ∈ rs ∧ varA ∈ ns ∧ varB ∈ ns ∧ varC ∈ ns ∧ varD ∈ ns := by
  simp [logicLines]
  tauto

@[simp] theorem logicLines_straight {lut : Word} : Straight (logicLines lut rd rs1 rs2) := by
  simp [logicLines, la, logic8ByteInternal]

/-- **`logic`** leaves the result in `rd`, whatever the sources are. -/
theorem logicLines_x (h : Ready L s) (o : LogicOp) (h0 : rd ≠ zero) (hsp : rd ≠ sp) (htp : rd ≠ tp) :
    (run (logicLines (o.table L) rd rs1 rs2) s).regs.x rd = o.apply (s.regs.x rs1) (s.regs.x rs2) := by
  obtain ⟨t, ht⟩ : ∃ t, t = run (List.flatten [[.sw rs1 (spVar varA), .sw rs2 (spVar varB)], la rd (o.table L),
    [.sw zero (spVar varD)]]) s := ⟨_, rfl⟩
  have hrun : run (logicLines (o.table L) rd rs1 rs2) s =
      run [.lw rd (spVar varC)] (run ([3, 2, 1, 0].map (logic8ByteInternal rd)).flatten t) := by
    simp only [logicLines, ht, List.map_cons, List.map_nil, run_flatten_cons, run_flatten_nil]
  have hkeeps : Keeps (Touch (s.regs.x sp) [rd] [varA, varB, varD]) s t := by
    rw [ht]
    exact run_keeps (by simp) (by simp [reg_mem_touch, hsp.symm]) rfl
  have hready := h.touch hkeeps (by simp [hsp.symm]) (by simp)
  have hbase : t.regs.x rd = o.table L := by simp [ht, h0]
  have hA : slot t varA = s.regs.x rs1 := by simp [ht, hsp]
  have hB : slot t varB = s.regs.x rs2 := by simp [ht, hsp]
  have hclear : IndexClear t := by
    intro j hj _
    have hD : slot t varD = 0 := by simp [ht]
    rw [hD, byte_zero hj]
  have hC : slot (run ([3, 2, 1, 0].map (logic8ByteInternal rd)).flatten t) varC =
      o.apply (s.regs.x rs1) (s.regs.x rs2) := by
    apply eq_of_byte_eq
    intro j hj
    have hmem : j ∈ [3, 2, 1, 0] := by
      simp only [List.mem_cons, List.not_mem_nil, or_false]
      omega
    rw [logicBytes_slot hready o hbase htp hclear (by simp) hj, if_pos hmem, hA, hB, byte_apply]
  rw [hrun, run_cons, run_nil, exec_lw_slot _ _ (by simp), write_x, if_pos ⟨rfl, h0⟩, hC]

/-- The code computes `v`, and gives `gp` back. -/
structure ComputesKeepingGp (c : Code) (s : Machine) (rd : RegIdx) (v : Word) (bytes : Set Word) : Prop extends
    Computes c s rd v bytes where
  gp : (run c s).regs.x gp = s.regs.x gp

theorem logicLines_computes (h : Ready L s) (o : LogicOp) (h0 : rd ≠ zero) (hd : Free rd) :
    ComputesKeepingGp (logicLines (o.table L) rd rs1 rs2) s rd (o.apply (s.regs.x rs1) (s.regs.x rs2)) (zone s) := by
  obtain ⟨hgp, htp, hsp⟩ := hd
  have hk : Keeps (Touch (s.regs.x sp) [rd, tp] [varA, varB, varC, varD]) s
      (run (logicLines (o.table L) rd rs1 rs2) s) :=
    run_keeps (by simp) (by simp [reg_mem_touch, hsp.symm]) rfl
  refine ⟨computes_of_keeps _ (fun _ => logicLines_x h o h0 hsp htp)
    (hk.mono (touch_subset (by simp) (List.Subset.refl _))) (by simp) logicLines_straight, ?_⟩
  exact hk.x (r := Minirv.gp) (by simp [reg_mem_touch, hgp.symm])

theorem not_computes (h : Ready L s) (h0 : rd ≠ zero) (hd : Free rd) :
    ComputesKeepingGp (not L rd rs1) s rd (~~~s.regs.x rs1) (zone s) := by
  obtain ⟨hgp, htp, hsp⟩ := hd
  have hk : Keeps (Touch (s.regs.x sp) [rd, gp, tp] [3, varC, varD]) s (run (not L rd rs1) s) :=
    run_keeps (by simp) (by simp [reg_mem_touch, hsp.symm]) rfl
  refine ⟨computes_of_keeps _ (fun _ => ?_) hk (by simp) not_straight, ?_⟩
  · rw [not_x h h0, if_pos rfl]
  · rw [not_x h h0, if_neg hgp.symm, if_neg (by simp)]

theorem itype_logicLines_computes (h : Ready L s) (o : LogicOp) (h0 : rd ≠ zero) (hd : Free rd) (h1 : rs1 ≠ tp)
    (imm : BitVec 12) : ComputesKeepingGp (itype (logicLines (o.table L)) rd rs1 imm) s rd
      (o.apply (s.regs.x rs1) (imm.signExtend 32)) (zone s) := by
  refine ⟨itype_computes (f := o.apply) (fun _ h => (logicLines_computes h o h0 hd).toComputes) h h1, ?_⟩
  have hkeeps : Keeps (Touch (s.regs.x sp) [tp] []) s (write s tp (imm.signExtend 32)) :=
    keeps_write (by simp [reg_mem_touch]) _
  have hready := h.touch hkeeps (by simp) (by simp)
  have hrun : run (itype (logicLines (o.table L)) rd rs1 imm) s =
      run (logicLines (o.table L) rd rs1 tp) (write s tp (imm.signExtend 32)) := by
    simp [itype, li]
  rw [hrun, (logicLines_computes hready o h0 hd).gp, write_x, if_neg fun h => absurd h.1 (by simp)]

end Logic

/-! ## The macros compute -/

/-- A bitwise macro, with its operands. -/
inductive Bitwise
  | logic (o : LogicOp) (rd rs1 rs2 : RegIdx)
  | logici (o : LogicOp) (rd rs1 : RegIdx) (imm : BitVec 12)
  | not (rd rs1 : RegIdx)

namespace Bitwise

def rd : Bitwise → RegIdx
  | logic _ d .. | logici _ d .. | not d _ => d

/-- The operands that the macros are meant for; the second source may be `tp`. -/
def Allowed : Bitwise → Prop
  | logic _ d a b => (Free d ∧ d ≠ zero) ∧ Free a ∧ b ≠ gp ∧ b ≠ sp
  | logici _ d a _ | not d a => (Free d ∧ d ≠ zero) ∧ Free a

/-- The expansion. -/
def expand (L : Symbols) : Bitwise → Option Code
  | logic .and d a b => Minirv.and L d a b
  | logic .or d a b => Minirv.or L d a b
  | logic .xor d a b => Minirv.xor L d a b
  | logici .and d a imm => Minirv.andi L d a imm
  | logici .or d a imm => Minirv.ori L d a imm
  | logici .xor d a imm => Minirv.xori L d a imm
  | not d a => some (Minirv.not L d a)

/-- What the architecture specifies. -/
def value (f : RegFile) : Bitwise → Word
  | logic .and _ a b => f.x a &&& f.x b
  | logic .or _ a b => f.x a ||| f.x b
  | logic .xor _ a b => f.x a ^^^ f.x b
  | logici .and _ a imm => f.x a &&& imm.signExtend 32
  | logici .or _ a imm => f.x a ||| imm.signExtend 32
  | logici .xor _ a imm => f.x a ^^^ imm.signExtend 32
  | not _ a => ~~~f.x a

end Bitwise

theorem logic_eq {lut : Word} {d a b : RegIdx} (hd : Free d ∧ d ≠ zero) (ha : Free a) (hb : b ≠ gp ∧ b ≠ sp) :
    logic lut d a b = some (logicLines lut d a b) := by
  obtain ⟨⟨hgp, htp, hsp⟩, h0⟩ := hd
  obtain ⟨hgp', htp', hsp'⟩ := ha
  unfold logic
  rw [if_neg h0, if_neg (by simp [hsp, hsp', hb.2]), if_neg (by simp [hgp, hgp', hb.1]), if_neg (by simp [htp, htp'])]

/-- **The bitwise macros compute what the architecture specifies**, for any aliasing of their operands, and of the
other registers they change `tp` only. -/
theorem bitwise_computes {L : Symbols} {s : Machine} (h : Ready L s) (m : Bitwise) (hm : m.Allowed) :
    ∃ c, m.expand L = some c ∧ ComputesKeepingGp c s m.rd (m.value s.regs) (zone s) := by
  cases m with
  | logic o d a b =>
    obtain ⟨hd, ha, hb⟩ := hm
    refine ⟨logicLines (o.table L) d a b, ?_, ?_⟩
    · cases o <;> exact logic_eq hd ha hb
    · have := @logicLines_computes L s d a b h o hd.2 hd.1
      cases o <;> exact this
  | logici o d a imm =>
    obtain ⟨hd, ha⟩ := hm
    refine ⟨itype (logicLines (o.table L)) d a imm, ?_, ?_⟩
    · have heq : ∀ lut, logic lut d a tp = some (logicLines lut d a tp) := fun _ => logic_eq hd ha (by simp)
      cases o <;> exact congrArg (Option.map _) (heq _)
    · have := itype_logicLines_computes h o hd.2 hd.1 ha.2.1 imm
      cases o <;> exact this
  | not d a => exact ⟨_, rfl, not_computes h hm.1.2 hm.1.1⟩

/-- `xori s0, s0, -1` on 5: the destination holds the base of the table while its old value is looked up. -/
theorem bitwise_computes_xori : ∃ c, (Bitwise.logici .xor s0 s0 (-1)).expand Symbols.sample = some c ∧
    (run c (sampleMachine 5)).regs.x s0 = -6 := by
  obtain ⟨c, hc, h⟩ := bitwise_computes (sample_ready 5) (.logici .xor s0 s0 (-1)) ⟨by decide, by decide⟩
  exact ⟨c, hc, h.value⟩

/-! ## The macros in memory -/

/-- The expansions write their destination, `gp`, `tp` and words below `sp` only. -/
theorem Bitwise.expand_within {L : Symbols} {m : Bitwise} (hm : m.Allowed) {c : Code} (hc : m.expand L = some c)
    (p : Word) : Within p (Touch p [m.rd, gp, tp] [3, varA, varB, varC, varD]) c ∧ Straight c := by
  cases m with
  | logic o d a b =>
    have heq : (Bitwise.logic o d a b).expand L = some (logicLines (o.table L) d a b) := by
      cases o <;> exact logic_eq hm.1 hm.2.1 hm.2.2
    obtain rfl := Option.some.inj (hc.symm.trans heq)
    exact ⟨by simp [Bitwise.rd], logicLines_straight⟩
  | logici o d a imm =>
    have hlogic : ∀ lut, Minirv.logic lut d a tp = some (logicLines lut d a tp) :=
      fun _ => logic_eq hm.1 hm.2 (by simp)
    have heq : (Bitwise.logici o d a imm).expand L = some (itype (logicLines (o.table L)) d a imm) := by
      cases o <;> exact congrArg (Option.map _) (hlogic _)
    obtain rfl := Option.some.inj (hc.symm.trans heq)
    exact ⟨by simp [itype, li, Bitwise.rd], by simp [itype, li]⟩
  | not d a =>
    obtain rfl := Option.some.inj hc
    exact ⟨by simp [Bitwise.rd], not_straight⟩

/-- **The machine executes a bitwise macro** wherever it is in memory, apart from the words below `sp`. -/
theorem bitwise_reaches {L : Symbols} {s : Machine} {m : Bitwise} (hm : m.Allowed) {c : Code}
    (hc : m.expand L = some c) (hplaced : Placed c s.mem s.pc) (hapart : ∀ q ∈ codeBytes c s.pc, q ∉ zone s) :
    ReachesIn (fun _ => True) c.length s (run c s) := by
  obtain ⟨hwithin, hstraight⟩ := Bitwise.expand_within hm hc (s.regs.x sp)
  have hsp : m.rd ≠ sp := by
    cases m with
    | logic | logici | not => exact hm.1.1.2.2
  refine reaches_run hwithin (by simp [reg_mem_touch, hsp.symm]) rfl hplaced (fun q hq => ?_)
    fun i hi => hstraight i (List.mem_of_mem_dropLast hi)
  exact not_byte_mem_touch (by simp) (hapart q hq)

end Minirv
