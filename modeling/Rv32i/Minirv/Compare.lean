import Rv32i.Minirv.Macros

/-!
# minirv: subtraction and comparisons

The macros `sub`, `slt`, `sltu` and those made of them.  `not` complements the bytes of its operand by lookups;
`slt_template` looks up the signs of the operands and of their difference.

* `not_x`, `sub_x`, `msb_x` — the registers behind the small macros;
* `signs`, `slt1Table_signs`, `sltu1Table_signs` — the index that the template computes, and its entry;
* `comparison_computes` — every comparison leaves what the architecture specifies.
-/

namespace Minirv

open Rv32 Bytes

/-! ## Addresses -/

/-- `%hi` and `%lo` make up the address. -/
theorem hi_lo (a : Word) : (hi a ++ 0#12 : Word) + (lo a).signExtend 32 = a := by
  have hhi : (hi a ++ 0#12 : Word).toNat = (a.toNat + 2048) % 2 ^ 32 / 4096 * 4096 := by
    show ((a + 2048).extractLsb' 12 20 ++ 0#12 : BitVec (20 + 12)).toNat = _
    rw [BitVec.toNat_append, BitVec.extractLsb'_toNat]
    simp [Nat.shiftLeft_eq, Nat.shiftRight_eq_div_pow]
    omega
  have hlo : (lo a).toNat = a.toNat % 4096 := by
    unfold lo
    rw [BitVec.extractLsb'_toNat]
    rfl
  apply BitVec.eq_of_toNat_eq
  have hlt := a.isLt
  rw [BitVec.toNat_add, hhi, BitVec.toNat_signExtend, BitVec.toNat_setWidth, hlo, BitVec.msb_eq_decide, hlo]
  by_cases hneg : 2 ^ (12 - 1) ≤ a.toNat % 4096
  · rw [decide_eq_true hneg, if_pos rfl]
    omega
  · rw [decide_eq_false hneg, if_neg nofun]
    omega

section La

variable {d : RegIdx} (a : Word) (s : Machine)

/-- **`la`** writes the address. -/
@[simp] theorem la_x (hd : d ≠ zero) (r : RegIdx) : (run (la d a) s).regs.x r = if r = d then a else s.regs.x r := by
  by_cases hr : r = d
  · simp [la, hr, hd, hi_lo]
  · simp [la, hr]

@[simp] theorem la_slot (hd : d ≠ sp) (k : ℕ) : slot (run (la d a) s) k = slot s k := by
  simp [la, hd]

@[simp] theorem la_mem : (run (la d a) s).mem = s.mem := by
  simp [la]

@[simp] theorem la_within {p : Word} {rs : List RegIdx} {ns : List ℕ} :
    Within p (Touch p rs ns) (la d a) ↔ d ∈ rs := by
  simp [la]

end La

@[simp] theorem slli_one (d a : RegIdx) : slli d a 1 = [.add d a a] := by
  rw [slli]
  rfl

@[simp] theorem slli_two (d a : RegIdx) : slli d a 2 = [.add d a a, .add d d d] := by
  rw [slli]
  rfl

/-! ## Sign bits -/

/-- The sign bit as `msb` gives it. -/
def sign (v : Word) : Word := flag v.msb

/-- Doubling byte 3 moves its high bit into byte 1. -/
theorem byte_double (v : Word) :
    (byte ((byte v 3).setWidth 32 + (byte v 3).setWidth 32) 1).setWidth 32 = sign v := by
  apply BitVec.eq_of_toNat_eq
  have hlt := v.isLt
  unfold sign flag
  rw [BitVec.msb_eq_decide, BitVec.toNat_setWidth, byte_toNat, BitVec.toNat_add, BitVec.toNat_setWidth, byte_toNat]
  by_cases hneg : 2 ^ (32 - 1) ≤ v.toNat
  · rw [decide_eq_true hneg, if_pos rfl, show (1 : Word).toNat = 1 from rfl]
    omega
  · rw [decide_eq_false hneg, if_neg nofun, show (0 : Word).toNat = 0 from rfl]
    omega

section Msb

variable {s : Machine} {rd rs : RegIdx}

@[simp] theorem msb_x (h0 : rd ≠ zero) (r : RegIdx) :
    (run (msb rd rs) s).regs.x r = if r = rd then sign (s.regs.x rs) else s.regs.x r := by
  by_cases hr : r = rd
  · simp [msb, getbyte, h0, hr, byte_double]
  · simp [msb, getbyte, hr]

@[simp] theorem msb_slot (hsp : rd ≠ sp) {k : ℕ} (hk : k < 8) (hC : k ≠ varC) : slot (run (msb rd rs) s) k = slot s k := by
  simp [msb, getbyte, hsp, hk] at hC ⊢
  simp [hC]

@[simp] theorem msb_within {p : Word} {rs' : List RegIdx} {ns : List ℕ} :
    Within p (Touch p rs' ns) (msb rd rs) ↔ rd ∈ rs' ∧ varC ∈ ns := by
  simp [msb, getbyte]
  tauto

@[simp] theorem msb_straight : Straight (msb rd rs) := by
  simp [msb, getbyte]

end Msb

/-! ## Complement and difference -/

theorem byte_not (v : Word) {j : ℕ} (hj : j < 4) : byte (~~~v) j = ~~~byte v j := by
  apply BitVec.eq_of_getLsbD_eq
  intro i hi
  simp [byte, hi, show 8 * j + i < 32 by omega]


section Not

variable {L : Symbols} {s : Machine} {rd rs1 rs2 : RegIdx}

@[simp] theorem notByte_within {p : Word} {rs : List RegIdx} {ns : List ℕ} {b : ℕ} (hb : b < 4) :
    Within p (Touch p rs ns) (notByte b) ↔ gp ∈ rs ∧ varD ∈ ns := by
  simp [notByte, hb]

/-- One byte of `VAR_C` is complemented into `VAR_D`. -/
theorem notByte_slot (h : Ready L s) (htp : s.regs.x tp = L.xor8LastRow) {b k : ℕ} (hb : b < 4)
    (hk : k < 8) : slot (run (notByte b) s) k =
      if k = varD then setByte (slot s varD) b (~~~byte (slot s varC) b) else slot s k := by
  simp [notByte, hb, hk, htp, h.lookup_not, byte_setWidth]

/-- The bytes of `VAR_C` that are complemented into `VAR_D`. -/
theorem notBytes_slot (h : Ready L s) (htp : s.regs.x tp = L.xor8LastRow) {bs : List ℕ}
    (hbs : ∀ b ∈ bs, b < 4) {j : ℕ} (hj : j < 4) : byte (slot (run (bs.map notByte).flatten s) varD) j =
      if j ∈ bs then ~~~byte (slot s varC) j else byte (slot s varD) j := by
  induction bs generalizing s with
  | nil => simp
  | cons b bs ih =>
    have hb := hbs b List.mem_cons_self
    have hkeeps : Keeps (Touch (s.regs.x sp) [gp] [varD]) s (run (notByte b) s) :=
      run_keeps (by simp [hb]) (by simp [reg_mem_touch]) rfl
    have hready := h.touch hkeeps (by simp) (by simp)
    have htp' : (run (notByte b) s).regs.x tp = L.xor8LastRow := by
      rw [hkeeps.x (r := tp) (by simp [reg_mem_touch]), htp]
    have hC : slot (run (notByte b) s) varC = slot s varC := notByte_slot h htp hb (by simp)
    have hD : slot (run (notByte b) s) varD = setByte (slot s varD) b (~~~byte (slot s varC) b) :=
      notByte_slot h htp hb (by simp)
    rw [List.map_cons, run_flatten_cons, ih hready htp' fun c hc => hbs c (List.mem_cons_of_mem _ hc), hC, hD,
      byte_setByte _ _ _ hj]
    by_cases hjb : j = b
    · simp [hjb]
    · simp [hjb]

@[simp] theorem not_within {p : Word} {rs : List RegIdx} {ns : List ℕ} : Within p (Touch p rs ns) (not L rd rs1) ↔
    gp ∈ rs ∧ tp ∈ rs ∧ rd ∈ rs ∧ 3 ∈ ns ∧ varC ∈ ns ∧ varD ∈ ns := by
  simp [not]
  tauto

@[simp] theorem not_straight : Straight (not L rd rs1) := by
  simp [not, la, notByte]

theorem not_slot (hsp : rd ≠ sp) {k : ℕ} (hk : k < 8) (hk3 : k ≠ 3) (hkC : k ≠ varC) (hkD : k ≠ varD) :
    slot (run (not L rd rs1) s) k = slot s k := by
  have hkeeps : Keeps (Touch (s.regs.x sp) [gp, tp, rd] [3, varC, varD]) s (run (not L rd rs1) s) :=
    run_keeps (by simp) (by simp [reg_mem_touch, hsp.symm]) rfl
  exact hkeeps.slot (by simp [hsp.symm]) rfl hk (by simp [hk3, hkC, hkD])

/-- **`not`** leaves the complement in `rd`, and gives `gp` back. -/
theorem not_x (h : Ready L s) (h0 : rd ≠ zero) (r : RegIdx) : (run (not L rd rs1) s).regs.x r =
    if r = rd then ~~~s.regs.x rs1 else if r = tp then L.xor8LastRow else s.regs.x r := by
  let s1 := run (List.flatten [[push gp 3, .sw rs1 (spVar varC)], la tp L.xor8LastRow]) s
  let s2 := run ([3, 2, 1, 0].map notByte).flatten s1
  have hrun : run (not L rd rs1) s = run [pop gp 3, .lw rd (spVar varD)] s2 := by
    simp only [not, s1, s2, List.map_cons, List.map_nil, run_flatten_cons, run_flatten_nil]
  have hkeeps1 : Keeps (Touch (s.regs.x sp) [tp] [3, varC]) s s1 :=
    run_keeps (by simp) (by simp [reg_mem_touch]) rfl
  have hready1 := h.touch hkeeps1 (by simp) (by simp)
  have htp1 : s1.regs.x tp = L.xor8LastRow := by simp [s1]
  have hC1 : slot s1 varC = s.regs.x rs1 := by simp [s1]
  have h31 : slot s1 3 = s.regs.x gp := by simp [s1]
  have hkeeps2 : Keeps (Touch (s1.regs.x sp) [gp] [varD]) s1 s2 :=
    run_keeps (by simp) (by simp [reg_mem_touch]) rfl
  have h32 : slot s2 3 = s.regs.x gp := (hkeeps2.slot (by simp) rfl (by simp) (by simp)).trans h31
  have hD2 : slot s2 varD = ~~~s.regs.x rs1 := by
    apply eq_of_byte_eq
    intro j hj
    have hmem : j ∈ [3, 2, 1, 0] := by
      simp only [List.mem_cons, List.not_mem_nil, or_false]
      omega
    rw [notBytes_slot hready1 htp1 (by simp) hj, if_pos hmem, hC1, byte_not _ hj]
  have hrest : ∀ r, r ≠ gp → s2.regs.x r = if r = tp then L.xor8LastRow else s.regs.x r := by
    intro r hr
    rw [hkeeps2.x (r := r) (by simp [reg_mem_touch, hr])]
    simp [s1]
  rw [hrun]
  by_cases hrd : r = rd
  · simp [hrd, h0, hD2]
  · by_cases hgp : r = gp
    · rw [hgp] at hrd ⊢
      simp [hrd, h32]
    · simp [hgp, hrd, hrest]

@[simp] theorem sub_within {p : Word} {rs : List RegIdx} {ns : List ℕ} : Within p (Touch p rs ns) (sub L rd rs1 rs2) ↔
    gp ∈ rs ∧ tp ∈ rs ∧ rd ∈ rs ∧ 3 ∈ ns ∧ varC ∈ ns ∧ varD ∈ ns := by
  simp [sub]
  tauto

@[simp] theorem sub_straight : Straight (sub L rd rs1 rs2) := by
  simp [sub]

theorem sub_slot (hsp : rd ≠ sp) {k : ℕ} (hk : k < 8) (hk3 : k ≠ 3) (hkC : k ≠ varC) (hkD : k ≠ varD) :
    slot (run (sub L rd rs1 rs2) s) k = slot s k := by
  simp [sub, hsp, not_slot, hk, hk3, hkC, hkD]

/-- **`sub`** leaves the difference in `rd` and uses `tp`. -/
theorem sub_x (h : Ready L s) (h0 : rd ≠ zero) (h1 : rs1 ≠ tp) (r : RegIdx) : (run (sub L rd rs1 rs2) s).regs.x r =
    if r = rd then s.regs.x rs1 - s.regs.x rs2 else if r = tp then ~~~s.regs.x rs2 else s.regs.x r := by
  have hsub : s.regs.x rs1 + ~~~s.regs.x rs2 + 1#32 = s.regs.x rs1 - s.regs.x rs2 := by
    rw [BitVec.sub_eq_add_neg, BitVec.neg_eq_not_add, BitVec.add_assoc]
  by_cases hrd : r = rd
  · simp [sub, hrd, h0, h1, not_x h, hsub]
  · by_cases htp : r = tp
    · rw [htp] at hrd ⊢
      simp [sub, hrd, not_x h]
    · simp [sub, hrd, htp, not_x h]

end Not

/-! ## The tables of comparisons -/

/-- The index into the tables: the signs of the operands and of their difference. -/
def signs (a b : Word) : ℕ := 4 * a.msb.toNat + 2 * b.msb.toNat + (a - b).msb.toNat

/-- The index as the macro adds it up. -/
theorem signs_eq (a b : Word) :
    sign a + sign a + sign b + (sign a + sign a + sign b) + sign (a - b) = BitVec.ofNat 32 (signs a b) := by
  unfold sign signs
  cases a.msb <;> cases b.msb <;> cases (a - b).msb <;> rfl

/-- `1` or `0`, as the tables have it. -/
def flagByte (b : Bool) : Byte := if b then 1 else 0

theorem flagByte_setWidth (b : Bool) : (flagByte b).setWidth 32 = flag b := by cases b <;> rfl

/-- A word by its sign. -/
theorem msb_cases (v : Word) : (v.msb = true ∧ v.toInt = v.toNat - 2 ^ 32 ∧ 2 ^ 31 ≤ v.toNat) ∨
    (v.msb = false ∧ v.toInt = v.toNat ∧ v.toNat < 2 ^ 31) := by
  have hlt := v.isLt
  rw [BitVec.msb_eq_decide, BitVec.toInt_eq_toNat_cond]
  by_cases h : 2 ^ 31 ≤ v.toNat
  · left
    rw [if_neg (by omega)]
    exact ⟨decide_eq_true h, rfl, h⟩
  · right
    rw [if_pos (by omega)]
    exact ⟨decide_eq_false h, rfl, by omega⟩

/-- **`_slt1_table`**: the sign of the difference, unless it overflows. -/
theorem slt1Table_signs (a b : Word) : slt1Table[signs a b]? = some (flagByte (a.toInt < b.toInt)) := by
  have hr : (a - b).toNat = (2 ^ 32 - b.toNat + a.toNat) % 2 ^ 32 := BitVec.toNat_sub a b
  unfold signs
  rcases msb_cases a with ⟨ha, hai, hal⟩ | ⟨ha, hai, hal⟩ <;> rcases msb_cases b with ⟨hb, hbi, hbl⟩ | ⟨hb, hbi, hbl⟩ <;>
    rcases msb_cases (a - b) with ⟨hd, -, hdl⟩ | ⟨hd, -, hdl⟩ <;> rw [ha, hb, hd, hai, hbi] <;>
    rw [hr] at hdl <;> first
    | (rw [decide_eq_true (by omega)]; rfl)
    | (rw [decide_eq_false (by omega)]; rfl)

/-- **`_sltu1_table`** corrects it by the signs of the operands. -/
theorem sltu1Table_signs (a b : Word) : sltu1Table[signs a b]? = some (flagByte (a.toNat < b.toNat)) := by
  have hr : (a - b).toNat = (2 ^ 32 - b.toNat + a.toNat) % 2 ^ 32 := BitVec.toNat_sub a b
  unfold signs
  rcases msb_cases a with ⟨ha, -, hal⟩ | ⟨ha, -, hal⟩ <;> rcases msb_cases b with ⟨hb, -, hbl⟩ | ⟨hb, -, hbl⟩ <;>
    rcases msb_cases (a - b) with ⟨hd, -, hdl⟩ | ⟨hd, -, hdl⟩ <;> rw [ha, hb, hd] <;>
    rw [hr] at hdl <;> first
    | (rw [decide_eq_true (by omega)]; rfl)
    | (rw [decide_eq_false (by omega)]; rfl)

/-! ## `slt_template` -/

section Slt

variable {L : Symbols} {s : Machine} {rd rs1 rs2 : RegIdx} {lut : Word}

@[simp] theorem sltTemplate_straight : Straight (sltTemplate L lut rd rs1 rs2) := by
  simp [sltTemplate, mv, la]

/-- The registers that the template pushes come back, and `tp` points to the entry of the table. -/
theorem slt_index (rd rs1 rs2 : RegIdx) (lut : Word) (h : Ready L s) : ∃ s', run (sltTemplate L lut rd rs1 rs2) s = exec (.lbu rd (at0 tp)) s' ∧
    Keeps (Touch (s.regs.x sp) [gp, tp] [1, 2, 3, varA, varC, varD]) s s' ∧
    s'.regs.x tp = lut + BitVec.ofNat 32 (signs (s.regs.x rs1) (s.regs.x rs2)) := by
  let before : Code := List.flatten [[push s0 1, push s1 2, .sw rs2 (spVar varA), mv s0 rs1, .lw s1 (spVar varA)],
    msb gp s0, slli gp gp 1, msb tp s1, [.add gp gp tp], slli gp gp 1]
  let after : Code := List.flatten [msb tp tp, [.add gp gp tp], la tp lut, [.add tp tp gp], [pop s1 2, pop s0 1]]
  obtain ⟨t, ht⟩ : ∃ t, t = run before s := ⟨_, rfl⟩
  obtain ⟨t', ht'⟩ : ∃ t', t' = run (sub L tp s0 s1) t := ⟨_, rfl⟩
  have hrun : run (sltTemplate L lut rd rs1 rs2) s = exec (.lbu rd (at0 tp)) (run after t') := by
    simp only [sltTemplate, before, after, ht, ht', run_flatten_cons, run_flatten_nil, run_cons, run_nil]
  have hkeeps : Keeps (Touch (s.regs.x sp) [s0, s1, gp, tp] [1, 2, 3, varA, varC, varD]) s t := by
    rw [ht]
    exact run_keeps (by simp [before, mv]) (by simp [reg_mem_touch]) rfl
  have hready : Ready L t := h.touch hkeeps (by simp) (by simp)
  have hx0 : t.regs.x s0 = s.regs.x rs1 := by simp [ht, before, mv]
  have hx1 : t.regs.x s1 = s.regs.x rs2 := by simp [ht, before, mv]
  have h1 : slot t 1 = s.regs.x s0 := by simp [ht, before, mv]
  have h2 : slot t 2 = s.regs.x s1 := by simp [ht, before, mv]
  have hgp : t.regs.x gp = sign (s.regs.x rs1) + sign (s.regs.x rs1) + sign (s.regs.x rs2) +
      (sign (s.regs.x rs1) + sign (s.regs.x rs1) + sign (s.regs.x rs2)) := by simp [ht, before, mv]
  refine ⟨run after t', hrun, ?_, ?_⟩
  · have hall : Keeps (Touch (s.regs.x sp) [s0, s1, gp, tp] [1, 2, 3, varA, varC, varD]) s (run after t') := by
      have hc : run after t' = run (List.flatten [before, sub L tp s0 s1, after]) s := by
        simp only [ht, ht', run_flatten_cons, run_flatten_nil]
      rw [hc]
      exact run_keeps (by simp [before, after, mv]) (by simp [reg_mem_touch]) rfl
    refine (hall.restore ?_).restore ?_
    · simp [after, ht', sub_slot, h1]
    · simp [after, ht', sub_slot, h2]
  · simp [after, ht', sub_x hready, hx0, hx1, hgp]
    rw [← signs_eq]

/-- **`slt_template`** looks up the entry of the signs. -/
theorem sltTemplate_computes (h : Ready L s) {content : List Byte} (ht : (lut, content) ∈ L.rodata) {b : Byte}
    (hb : content[signs (s.regs.x rs1) (s.regs.x rs2)]? = some b) :
    Computes (sltTemplate L lut rd rs1 rs2) s rd (b.setWidth 32) (zone s) := by
  obtain ⟨s', hrun, hkeeps, htp⟩ := slt_index rd rs1 rs2 lut h
  have hbyte : s'.mem (s'.regs.x tp) = b := by
    rw [htp]
    exact (h.touch hkeeps (by simp) (by simp)).lookup ht hb
  rw [exec_lbu_at0, hbyte] at hrun
  exact computes_of_write hrun hkeeps (by simp) sltTemplate_straight

theorem slt_computes (h : Ready L s) : Computes (slt L rd rs1 rs2) s rd
    (flag ((s.regs.x rs1).toInt < (s.regs.x rs2).toInt)) (zone s) := by
  rw [← flagByte_setWidth]
  exact sltTemplate_computes h (by simp [Symbols.rodata]) (slt1Table_signs _ _)

theorem sltu_computes (h : Ready L s) : Computes (sltu L rd rs1 rs2) s rd
    (flag ((s.regs.x rs1).toNat < (s.regs.x rs2).toNat)) (zone s) := by
  rw [← flagByte_setWidth]
  exact sltTemplate_computes h (by simp [Symbols.rodata]) (sltu1Table_signs _ _)

theorem sub_computes (h : Ready L s) (h1 : rs1 ≠ tp) (hsp : rd ≠ sp) :
    Computes (sub L rd rs1 rs2) s rd (s.regs.x rs1 - s.regs.x rs2) (zone s) := by
  refine computes_of_keeps [3, varC, varD] (fun h0 => ?_) ?_ (by simp) sub_straight
  · rw [sub_x h h0 h1, if_pos rfl]
  · exact run_keeps (by simp) (by simp [reg_mem_touch, hsp.symm]) rfl

theorem msb_computes (hsp : rd ≠ sp) : Computes (msb rd rs1) s rd (sign (s.regs.x rs1)) (zone s) := by
  refine computes_of_keeps [varC] (fun h0 => ?_) ?_ (by simp) msb_straight
  · rw [msb_x h0, if_pos rfl]
  · exact run_keeps (by simp) (by simp [reg_mem_touch, hsp.symm]) rfl

/-- A macro with an immediate is the macro with `tp`, when that holds the immediate. -/
theorem itype_computes {rtype : RegIdx → RegIdx → RegIdx → Code} {imm : BitVec 12} {f : Word → Word → Word}
    (hrtype : ∀ s : Machine, Ready L s → Computes (rtype rd rs1 tp) s rd (f (s.regs.x rs1) (s.regs.x tp)) (zone s))
    (h : Ready L s) (h1 : rs1 ≠ tp) :
    Computes (itype rtype rd rs1 imm) s rd (f (s.regs.x rs1) (imm.signExtend 32)) (zone s) := by
  obtain ⟨t, ht⟩ : ∃ t, t = write s tp (imm.signExtend 32) := ⟨_, rfl⟩
  have hrun : t = run [li tp imm] s := by simp [li, ht]
  have hkeeps : Keeps (Touch (s.regs.x sp) [tp] []) s t := by
    rw [ht]
    exact keeps_write (by simp [reg_mem_touch]) _
  have hx1 : t.regs.x rs1 = s.regs.x rs1 := hkeeps.x (r := rs1) (by simp [reg_mem_touch, h1])
  have htp : t.regs.x tp = imm.signExtend 32 := by simp [ht]
  have hc := hrtype t (h.touch hkeeps (by simp) (by simp))
  rw [hx1, htp] at hc
  exact Computes.behind hrun hkeeps (by simp) (by simp) (by simp) (by simp [li]) hc

end Slt

/-! ## The macros -/

/-- A register that the macros leave to the compiler. -/
def Free (r : RegIdx) : Prop := r ≠ gp ∧ r ≠ tp ∧ r ≠ sp

instance (r : RegIdx) : Decidable (Free r) := by
  unfold Free
  infer_instance

/-- A macro that subtracts or compares, with its operands. -/
inductive Comparison
  | sub (rd rs1 rs2 : RegIdx)
  | slt (rd rs1 rs2 : RegIdx)
  | sltu (rd rs1 rs2 : RegIdx)
  | slti (rd rs1 : RegIdx) (imm : BitVec 12)
  | sltiu (rd rs1 : RegIdx) (imm : BitVec 12)
  | snez (rd rs : RegIdx)
  | sltz (rd rs : RegIdx)
  | sgt (rd rs1 rs2 : RegIdx)
  | sgtu (rd rs1 rs2 : RegIdx)
  | sgtz (rd rs : RegIdx)

namespace Comparison

def rd : Comparison → RegIdx
  | sub d .. | slt d .. | sltu d .. | slti d .. | sltiu d .. | snez d _ | sltz d _ | sgt d .. | sgtu d .. | sgtz d _ => d

/-- The operands that the macros are meant for: registers other than `gp`, `tp` and `sp`; the second operand may be
`tp`, as the immediate forms have it. -/
def Allowed : Comparison → Prop
  | sub d a b | slt d a b | sltu d a b => Free d ∧ Free a ∧ (Free b ∨ b = tp)
  | sgt d a b | sgtu d a b => Free d ∧ Free a ∧ Free b
  | slti d a _ | sltiu d a _ | snez d a | sltz d a | sgtz d a => Free d ∧ Free a

/-- The expansion. -/
def expand (L : Symbols) : Comparison → Code
  | sub d a b => Minirv.sub L d a b
  | slt d a b => Minirv.slt L d a b
  | sltu d a b => Minirv.sltu L d a b
  | slti d a imm => Minirv.slti L d a imm
  | sltiu d a imm => Minirv.sltiu L d a imm
  | snez d a => Minirv.snez L d a
  | sltz d a => Minirv.sltz d a
  | sgt d a b => Minirv.sgt L d a b
  | sgtu d a b => Minirv.sgtu L d a b
  | sgtz d a => Minirv.sgtz L d a

/-- What the architecture specifies. -/
def value (f : RegFile) : Comparison → Word
  | sub _ a b => f.x a - f.x b
  | slt _ a b => flag ((f.x a).toInt < (f.x b).toInt)
  | sltu _ a b => flag ((f.x a).toNat < (f.x b).toNat)
  | slti _ a imm => flag ((f.x a).toInt < (imm.signExtend 32).toInt)
  | sltiu _ a imm => flag ((f.x a).toNat < (imm.signExtend 32).toNat)
  | snez _ a => flag (f.x a ≠ 0)
  | sltz _ a => flag ((f.x a).toInt < 0)
  | sgt _ a b => flag ((f.x b).toInt < (f.x a).toInt)
  | sgtu _ a b => flag ((f.x b).toNat < (f.x a).toNat)
  | sgtz _ a => flag (0 < (f.x a).toInt)

end Comparison

/-- **The comparisons compute what the architecture specifies**, for any operands but `gp`, `tp` and `sp`. -/
theorem comparison_computes {L : Symbols} {s : Machine} (h : Ready L s) (m : Comparison) (hm : m.Allowed) :
    Computes (m.expand L) s m.rd (m.value s.regs) (zone s) := by
  cases m with
  | sub d a b => exact sub_computes h hm.2.1.2.1 hm.1.2.2
  | slt d a b | sgt d a b => exact slt_computes h
  | sltu d a b | sgtu d a b => exact sltu_computes h
  | slti d a imm =>
    exact itype_computes (f := fun v v' => flag (v.toInt < v'.toInt)) (fun _ h => slt_computes h) h hm.2.2.1
  | sltiu d a imm =>
    exact itype_computes (f := fun v v' => flag (v.toNat < v'.toNat)) (fun _ h => sltu_computes h) h hm.2.2.1
  | snez d a =>
    have hvalue : flag (s.regs.x a ≠ 0) = flag ((s.regs.x zero).toNat < (s.regs.x a).toNat) := by
      rw [x_zero]
      congr 1
      rw [decide_eq_decide, Ne, ← BitVec.toNat_inj]
      exact Nat.pos_iff_ne_zero.symm
    show Computes _ s d (flag _) (zone s)
    rw [hvalue]
    exact sltu_computes h
  | sltz d a =>
    have hvalue : flag ((s.regs.x a).toInt < 0) = sign (s.regs.x a) := by
      unfold sign
      rw [BitVec.msb_eq_toInt]
    show Computes _ s d (flag _) (zone s)
    rw [hvalue]
    exact msb_computes hm.1.2.2
  | sgtz d a =>
    have hvalue : flag (0 < (s.regs.x a).toInt) = flag ((s.regs.x zero).toInt < (s.regs.x a).toInt) := by
      rw [x_zero]
      rfl
    show Computes _ s d (flag _) (zone s)
    rw [hvalue]
    exact slt_computes h

/-- `sltiu s0, s1, -1`: the destination is one of the registers that the template pushes. -/
theorem comparison_computes_sltiu :
    (run ((Comparison.sltiu s0 s1 (-1)).expand Symbols.sample) (sampleMachine 5)).regs.x s0 = 1 :=
  (comparison_computes (sample_ready 5) (.sltiu s0 s1 (-1)) ⟨by decide, by decide⟩).value

end Minirv
