import Rv32i.Minirv.Compare

/-!
# minirv: shifts

The macros `sll`, `srl`, `sra`, `slli`, `srli` and `srai`.  The bytes of the operand are looked up in a row of a table,
and what is found is put together in the words below `sp`.

* `slli_computes` — the recursion of `slli`;
* `Shifting` — what holds between the lookups, and `Shifting.get`: what a lookup finds;
* `shift_computes` — every shift leaves what the architecture specifies.
-/

namespace Minirv

open Rv32 Bytes

variable {L : Symbols} {s t : Machine}

section Code

variable {rd rs1 rs2 base : RegIdx}

/-! ## Doubling -/

section Doubling

variable {d a : RegIdx} {n : ℕ}

theorem shiftLeft_double (v : Word) (n : ℕ) : (v + v) <<< n = v <<< (n + 1) := by
  have hdouble : v + v = v <<< 1 := by
    rw [BitVec.shiftLeft_eq_mul_twoPow]
    show v + v = v * 2
    ring
  rw [hdouble, ← BitVec.shiftLeft_add, Nat.add_comm]

theorem doublings_x (r : RegIdx) : (run (List.replicate n (.add d d d)) s).regs.x r =
    if r = d ∧ d ≠ zero then s.regs.x d <<< n else s.regs.x r := by
  induction n generalizing s with
  | zero =>
    by_cases hr : r = d
    · simp [hr]
    · simp [hr]
  | succ n ih =>
    rw [List.replicate_succ, run_cons, ih]
    by_cases hr : r = d ∧ d ≠ zero
    · rw [if_pos hr, if_pos hr, exec_add, write_x, if_pos ⟨rfl, hr.2⟩, shiftLeft_double]
    · rw [if_neg hr, if_neg hr, exec_add, write_x, if_neg hr]

/-- Up to 15, `slli` doubles. -/
theorem slli_small (hn : n < 16) : slli d a n = if n = 0 then if d ≠ a then [mv d a] else []
    else .add d a a :: List.replicate (n - 1) (.add d d d) := by
  rw [slli]
  by_cases h0 : n = 0
  · rw [if_pos h0, if_pos h0]
  · rw [if_neg h0, if_neg h0, if_neg (by omega), if_neg (by omega)]

@[simp] theorem slli_x (hn : n < 16) (r : RegIdx) : (run (slli d a n) s).regs.x r =
    if r = d ∧ d ≠ zero then s.regs.x a <<< n else s.regs.x r := by
  rw [slli_small hn]
  by_cases h0 : n = 0
  · by_cases hda : d = a
    · by_cases hr : r = a
      · simp [h0, hda, hr]
      · simp [h0, hda, hr]
    · simp [h0, hda, mv]
  · obtain ⟨m, rfl⟩ : ∃ m, n = m + 1 := ⟨n - 1, by omega⟩
    rw [if_neg h0, run_cons, Nat.add_sub_cancel, doublings_x]
    by_cases hr : r = d ∧ d ≠ zero
    · rw [if_pos hr, if_pos hr, exec_add, write_x, if_pos ⟨rfl, hr.2⟩, shiftLeft_double]
    · rw [if_neg hr, if_neg hr, exec_add, write_x, if_neg hr]

theorem slli_small_straight (hn : n < 16) : Straight (slli d a n) := by
  rw [slli_small hn]
  by_cases h0 : n = 0
  · by_cases hda : d = a
    · simp [h0, hda]
    · simp [h0, hda, mv]
  · rw [if_neg h0, straight_cons]
    refine ⟨trivial, fun i hi => ?_⟩
    rw [List.eq_of_mem_replicate hi]
    trivial

theorem slli_small_within (hn : n < 16) {p : Word} {rs : List RegIdx} {ns : List ℕ} (hd : d ∈ rs) :
    Within p (Touch p rs ns) (slli d a n) := by
  rw [slli_small hn]
  by_cases h0 : n = 0
  · by_cases hda : d = a
    · simp [h0, hda]
    · simp [h0, hda, mv, hd]
  · rw [if_neg h0, within_cons]
    refine ⟨within_add d a a |>.mpr hd, fun i hi => ?_⟩
    rw [List.eq_of_mem_replicate hi]
    exact (within_add d d d).mpr hd

end Doubling

/-! ## Bytes at their places -/

theorem spVarByte_succ (n b : ℕ) : (⟨1 + (spVarByte n b).offset, (spVarByte n b).base⟩ : Addr) = spVarByte n (b + 1) := by
  have hoff : (1 : BitVec 12) + BitVec.ofInt 12 (-(n : ℤ) * 4 + b) = BitVec.ofInt 12 (-(n : ℤ) * 4 + (b + 1 : ℕ)) := by
    rw [show (1 : BitVec 12) = BitVec.ofInt 12 1 from rfl, ← BitVec.ofInt_add]
    congr 1
    push_cast
    ring
  show (⟨1 + BitVec.ofInt 12 (-(n : ℤ) * 4 + b), sp⟩ : Addr) = ⟨_, sp⟩
  rw [hoff]

/-- One byte of an empty word. -/
theorem setByte_zero (v : Word) {k : ℕ} (hk : k < 4) : setByte 0#32 k (byte v 0) = (byte v 0).setWidth 32 <<< (8 * k) := by
  apply eq_of_byte_eq
  intro j hj
  have hv := (byte v 0).isLt
  rw [byte_setByte _ _ _ hj, show byte 0#32 j = 0 from byte_zero hj]
  apply BitVec.eq_of_toNat_eq
  rw [byte_toNat, BitVec.toNat_shiftLeft, BitVec.toNat_setWidth, Nat.shiftLeft_eq]
  interval_cases k <;> interval_cases j <;> simp <;> omega

theorem setByte_high (v : Word) : setByte 0#32 3 (byte v 0) = v <<< 24 := by
  have hv := v.isLt
  apply BitVec.eq_of_toNat_eq
  rw [setByte_zero v (by omega), BitVec.toNat_shiftLeft, BitVec.toNat_shiftLeft, BitVec.toNat_setWidth, byte_toNat,
    Nat.shiftLeft_eq, Nat.shiftLeft_eq]
  omega

/-- The low half at the place of the high half. -/
theorem setByte_half (v : Word) : setByte (setByte 0#32 2 (byte v 0)) 3 (byte v 1) = v <<< 16 := by
  apply eq_of_byte_eq
  intro j hj
  have hv := v.isLt
  rw [byte_setByte _ _ _ hj, byte_setByte _ _ _ hj, show byte 0#32 j = 0 from byte_zero hj]
  apply BitVec.eq_of_toNat_eq
  rw [byte_toNat, BitVec.toNat_shiftLeft, Nat.shiftLeft_eq]
  interval_cases j <;> simp [byte_toNat] <;> omega

/-! ## `slli` -/

theorem sh_eq (rs : RegIdx) (n b : ℕ) : sh rs (spVarByte n b) = [.sb rs (spVarByte n b), .sw rs (spVar varC),
    .lbu tp (spVarByte varC 1), .sb tp (spVarByte n (b + 1))] := by
  rw [sh, shLines, spVarByte_succ]
  rfl

theorem slli_high {d a : RegIdx} {n : ℕ} (hn : 24 ≤ n) : slli d a n =
    [.sw zero (spVar varA), .sb a (spVarByte varA 3), .lw d (spVar varA)] ++ slli d d (n - 24) := by
  conv_lhs => rw [slli]
  rw [if_neg (by omega), if_pos hn, List.flatten_cons, List.flatten_cons, List.flatten_nil, List.append_nil]

theorem slli_half {d a : RegIdx} {n : ℕ} (hn : 16 ≤ n) (hn' : n < 24) : slli d a n = List.flatten
    [[.sw zero (spVar varA)], sh a (spVarByte varA 2), [.lw d (spVar varA)]] ++ slli d d (n - 16) := by
  conv_lhs => rw [slli]
  rw [if_neg (by omega), if_neg (by omega), if_pos hn]
  simp only [List.flatten_cons, List.flatten_nil, List.append_nil, List.append_assoc]

/-- Code that moves the operand up, in front of the doublings. -/
theorem slli_of_moved {d a : RegIdx} {n k : ℕ} {c : Code} (hcode : slli d a n = c ++ slli d d (n - k)) (hk : k ≤ n)
    (hn : n - k < 16) (hsp : d ≠ sp) (hx : d ≠ zero → (run c s).regs.x d = s.regs.x a <<< k) (hs : Straight c)
    (hc : Within (s.regs.x sp) (Touch (s.regs.x sp) [d, gp, tp] [varA, varC]) c) :
    Computes (slli d a n) s d (s.regs.x a <<< n) (zone s) := by
  rw [hcode]
  refine computes_of_keeps [varA, varC] (fun h0 => ?_) ?_ (by simp) (straight_append.mpr ⟨hs, slli_small_straight hn⟩)
  · rw [run_append, slli_x hn, if_pos ⟨rfl, h0⟩, hx h0, ← BitVec.shiftLeft_add, Nat.add_sub_cancel' hk]
  · refine run_keeps (within_append.mpr ⟨hc, slli_small_within hn (by simp)⟩) ?_ rfl
    simp [reg_mem_touch, hsp.symm]

/-- **`slli`** shifts by every amount below 32. -/
theorem slli_computes {d a : RegIdx} {n : ℕ} (hn : n < 32) (hsp : d ≠ sp) :
    Computes (slli d a n) s d (s.regs.x a <<< n) (zone s) := by
  rcases (by omega : n < 16 ∨ 16 ≤ n ∧ n < 24 ∨ 24 ≤ n) with h | ⟨h, h'⟩ | h
  · refine computes_of_keeps [] (fun h0 => ?_) ?_ (by simp) (slli_small_straight h)
    · rw [slli_x h, if_pos ⟨rfl, h0⟩]
    · exact run_keeps (slli_small_within h (by simp)) (by simp [reg_mem_touch, hsp.symm]) rfl
  · refine slli_of_moved (slli_half h h') h (by omega) hsp (fun h0 => ?_) ?_ ?_
    · simp [sh_eq, h0, byte_setWidth, setByte_half]
    · simp [sh_eq]
    · simp [sh_eq]
  · refine slli_of_moved (slli_high h) h (by omega) hsp (fun h0 => ?_) ?_ ?_
    · simp [h0, setByte_high]
    · simp
    · simp

/-! ## Lookups -/

/-- What is below `sp` and in `s0` between the lookups of a shift of `v` by the row at `row`. -/
structure Shifting (s : Machine) (v row : Word) (t : Machine) : Prop where
  keeps : Keeps (Touch (s.regs.x sp) [s0, gp, tp] [1, varA, varB, varC, varD]) s t
  spilled : slot t 1 = s.regs.x s0
  operand : slot t varA = v
  row : t.regs.x s0 = row

/-- A word per entry. -/
theorem four_times (b : Byte) : b.setWidth 32 + b.setWidth 32 + (b.setWidth 32 + b.setWidth 32) =
    BitVec.ofNat 32 (b.toNat * 4) := by
  rw [BitVec.ofNat_mul, BitVec.ofNat_toNat]
  show _ = b.setWidth 32 * 4
  ring

section GetShiftByte

variable {b : ℕ} (hb : b < 4)
include hb

@[simp] theorem getShiftByteInTp_x (hbase : base ≠ tp) (r : RegIdx) : (run (getShiftByteInTp base b) s).regs.x r =
    if r = tp then loadBytes s.mem (s.regs.x base + BitVec.ofNat 32 ((byte (slot s varA) b).toNat * 4)) .word
    else s.regs.x r := by
  by_cases hr : r = tp
  · simp [getShiftByteInTp, hr, hb, hbase, four_times]
  · simp [getShiftByteInTp, hr, hb]

@[simp] theorem getShiftByteInTp_slot (k : ℕ) : slot (run (getShiftByteInTp base b) s) k = slot s k := by
  simp [getShiftByteInTp, hb]

@[simp] theorem getShiftByteInTp_mem : (run (getShiftByteInTp base b) s).mem = s.mem := by
  simp [getShiftByteInTp, hb]

end GetShiftByte

@[simp] theorem getShiftByteInTp_within {p : Word} {rs : List RegIdx} {ns : List ℕ} {b : ℕ} :
    Within p (Touch p rs ns) (getShiftByteInTp base b) ↔ tp ∈ rs := by
  simp [getShiftByteInTp]

@[simp] theorem getShiftByteInTp_straight {b : ℕ} : Straight (getShiftByteInTp base b) := by
  simp [getShiftByteInTp]

/-- The words from `row` on are the entries `f`, wherever the tables are ready. -/
def Row (L : Symbols) (row : Word) (f : Byte → Word) : Prop :=
  ∀ u, Ready L u → ∀ b : Byte, loadBytes u.mem (row + BitVec.ofNat 32 (b.toNat * 4)) .word = f b

namespace Shifting

variable {v row : Word} {f : Byte → Word}

theorem ready (h : Shifting s v row t) (hr : Ready L s) : Ready L t := hr.touch h.keeps (by simp) (by simp)

theorem sp_eq (h : Shifting s v row t) : t.regs.x sp = s.regs.x sp := h.keeps.x (r := sp) (by simp [reg_mem_touch])

/-- The other code of the macros leaves it alone. -/
theorem step (h : Shifting s v row t) {c : Code}
    (hc : Within (s.regs.x sp) (Touch (s.regs.x sp) [gp, tp] [varB, varC, varD]) c) : Shifting s v row (run c t) := by
  have hk : Keeps (Touch (s.regs.x sp) [gp, tp] [varB, varC, varD]) t (run c t) :=
    run_keeps hc (by simp [reg_mem_touch]) h.sp_eq
  constructor
  · exact h.keeps.trans (hk.mono (touch_subset (by simp) (by simp)))
  · rw [hk.slot (by simp) h.sp_eq (by omega) (by simp), h.spilled]
  · rw [hk.slot (by simp) h.sp_eq (by simp) (by simp), h.operand]
  · rw [hk.x (r := s0) (by simp [reg_mem_touch]), h.row]

/-- **What a lookup finds.** -/
theorem get (h : Shifting s v row t) (hr : Ready L s) (hrow : Row L row f) {b : ℕ} (hb : b < 4) (r : RegIdx) :
    (run (getShiftByteInTp s0 b) t).regs.x r = if r = tp then f (byte v b) else t.regs.x r := by
  rw [getShiftByteInTp_x hb (by simp), h.row, h.operand, hrow t (h.ready hr)]

/-- How the macros start. -/
theorem start {c : Code} (hr : Ready L s) (hc : Within (s.regs.x sp) (Touch (s.regs.x sp) [s0, tp] [varB]) c)
    (hrow : ∀ u, Ready L u → (∀ r, u.regs.x r = s.regs.x r) → (run c u).regs.x s0 = row) :
    Shifting s (s.regs.x rs1) row (run c (run [push s0 1, .sw rs1 (spVar varA)] s)) := by
  obtain ⟨u, hu⟩ : ∃ u, u = run [push s0 1, .sw rs1 (spVar varA)] s := ⟨_, rfl⟩
  rw [← hu]
  have hk : Keeps (Touch (s.regs.x sp) [] [1, varA]) s u := by
    rw [hu]
    exact run_keeps (by simp) (by simp [reg_mem_touch]) rfl
  have hx : ∀ r, u.regs.x r = s.regs.x r := fun r => hk.x (by simp [reg_mem_touch])
  have hk' : Keeps (Touch (s.regs.x sp) [s0, tp] [varB]) u (run c u) :=
    run_keeps hc (by simp [reg_mem_touch]) (hx sp)
  constructor
  · exact (hk.mono (touch_subset (by simp) (by simp))).trans (hk'.mono (touch_subset (by simp) (by simp)))
  · rw [hk'.slot (by simp) (hx sp) (by omega) (by simp)]
    simp [hu]
  · rw [hk'.slot (by simp) (hx sp) (by simp) (by simp)]
    simp [hu]
  · exact hrow u (hr.touch hk (by simp) (by simp)) hx

end Shifting

/-- How the macros end: with the sum of `gp` and of the last entry. -/
theorem shift_end {v row y value : Word} {c : Code} (h : Shifting s v row t) (hgp : t.regs.x gp = value)
    (htp : t.regs.x tp = y) (hrun : run c s = run [pop s0 1, .add rd gp tp] t) (hc : Straight c) :
    Computes c s rd (value + y) (zone s) := by
  have hend : run c s = write (write t s0 (s.regs.x s0)) rd (value + y) := by
    rw [hrun]
    simp [h.spilled, hgp, htp]
  have hk : Keeps (Touch (s.regs.x sp) [s0, gp, tp] [1, varA, varB, varC, varD]) s (write t s0 (s.regs.x s0)) :=
    h.keeps.trans (keeps_write (by simp [reg_mem_touch]) _)
  exact computes_of_write hend (hk.restore (by simp)) (by simp) hc

/-! ## The row of an amount -/

theorem shiftRow_within {table p : Word} : Within p (Touch p [s0, tp] [varB]) (shiftRow L table rs2) := by
  simp [shiftRow, getshamt]

theorem shiftRow_straight {table : Word} : Straight (shiftRow L table rs2) := by
  simp [shiftRow, getshamt, la]

/-- The amount as `getshamt` looks it up. -/
theorem amount_toNat (v : Word) : ((0x1f : Byte) &&& byte v 0).toNat = v.toNat % 32 := by
  rw [BitVec.toNat_and, Nat.and_comm, show (0x1f : Byte).toNat = 2 ^ 5 - 1 from rfl, Nat.and_two_pow_sub_one_eq_mod,
    byte_toNat]
  omega

/-- It counts rows when it is put at byte 1 and doubled twice. -/
theorem row_offset (m : Byte) : setByte 0#32 1 m + setByte 0#32 1 m + (setByte 0#32 1 m + setByte 0#32 1 m) =
    BitVec.ofNat 32 (m.toNat * 1024) := by
  have hm := m.isLt
  have h := setByte_zero (m.setWidth 32) (show 1 < 4 by omega)
  rw [byte_setWidth] at h
  apply BitVec.eq_of_toNat_eq
  rw [h]
  simp only [BitVec.toNat_add, BitVec.toNat_shiftLeft, BitVec.toNat_setWidth, BitVec.toNat_ofNat, Nat.shiftLeft_eq]
  omega

/-- **`s0` points to the row.** -/
theorem shiftRow_s0 (h : Ready L s) (table : Word) : (run (shiftRow L table rs2) s).regs.x s0 =
    table + BitVec.ofNat 32 ((s.regs.x rs2).toNat % 32 * 1024) := by
  let before : Code := List.flatten [[.sb rs2 (spVarByte varB 0), .lbu s0 (spVarByte varB 0)],
    la tp (L.and8Table + (0x1f : Word) <<< 8), [.add s0 s0 tp]]
  let after : Code := List.flatten [[.sw zero (spVar varB), .sb s0 (spVarByte varB 1), .lw s0 (spVar varB)],
    slli s0 s0 2, la tp table, [.add s0 s0 tp]]
  obtain ⟨u, hu⟩ : ∃ u, u = run before s := ⟨_, rfl⟩
  have hrun : run (shiftRow L table rs2) s = run after (exec (.lbu s0 (at0 s0)) u) := by
    simp only [shiftRow, getshamt, before, after, hu, run_flatten_cons, run_flatten_nil, run_cons, run_nil]
  have hk : Keeps (Touch (s.regs.x sp) [s0, tp] [varB]) s u := by
    rw [hu]
    exact run_keeps (by simp [before]) (by simp [reg_mem_touch]) rfl
  have hs0 : u.regs.x s0 = (byte (s.regs.x rs2) 0).setWidth 32 + (L.and8Table + (0x1f : Word) <<< 8) := by
    simp [hu, before, byte_setByte]
  obtain ⟨m, hm⟩ : ∃ m, m = 0x1f &&& byte (s.regs.x rs2) 0 := ⟨_, rfl⟩
  have hbyte : u.mem (u.regs.x s0) = m := by
    rw [hs0, hm]
    exact (h.touch hk (by simp) (by simp)).lookup_and _
  rw [hrun, exec_lbu_at0, hbyte, ← amount_toNat, ← hm, ← row_offset, BitVec.add_comm]
  simp [after, byte_setWidth]

theorem row_sll {a : ℕ} (ha : a < 32) : Row L (L.sll8Table + BitVec.ofNat 32 (a * 1024)) (left · a) :=
  fun _ hu b => (hu.lookup_shift ha b).1

theorem row_srl {a : ℕ} (ha : a < 32) : Row L (L.srl8Table + BitVec.ofNat 32 (a * 1024)) (right · a) :=
  fun _ hu b => (hu.lookup_shift ha b).2.1

theorem row_sra {a : ℕ} (ha : a < 32) : Row L (L.sra8Table + BitVec.ofNat 32 (a * 1024)) (rightArith · a) :=
  fun _ hu b => (hu.lookup_shift ha b).2.2

/-! ## `sll` -/

/-- The high half covers what was in byte 3. -/
theorem setByte_covered (w : Word) (x y z : Byte) : setByte (setByte (setByte w 3 x) 2 y) 3 z = setByte (setByte w 2 y) 3 z := by
  apply eq_of_byte_eq
  intro j hj
  simp only [byte_setByte _ _ _ hj]
  by_cases h3 : j = 3
  · rw [if_pos h3, if_pos h3]
  · rw [if_neg h3, if_neg h3, if_neg h3]

theorem sll_straight : Straight (sll L rd rs1 rs2) := by
  simp [sll, shiftRow_straight, sh_eq, slli_small_straight]

/-- **`sll`** adds up the shifted bytes at their places. -/
theorem sll_computes (h : Ready L s) :
    Computes (sll L rd rs1 rs2) s rd (s.regs.x rs1 <<< ((s.regs.x rs2).toNat % 32)) (zone s) := by
  obtain ⟨a, ha⟩ : ∃ a, a = (s.regs.x rs2).toNat % 32 := ⟨_, rfl⟩
  obtain ⟨v, hv⟩ : ∃ v, v = s.regs.x rs1 := ⟨_, rfl⟩
  have hrow := row_sll (L := L) (show a < 32 by omega)
  -- the row
  have hstart : Shifting s v (L.sll8Table + BitVec.ofNat 32 (a * 1024))
      (run (shiftRow L L.sll8Table rs2) (run [push s0 1, .sw rs1 (spVar varA)] s)) := by
    rw [hv]
    exact .start h shiftRow_within fun u hu hx => by rw [shiftRow_s0 hu, hx, ha]
  obtain ⟨t, ht⟩ : ∃ t, t = run [.sw zero (spVar varB)]
      (run (shiftRow L L.sll8Table rs2) (run [push s0 1, .sw rs1 (spVar varA)] s)) := ⟨_, rfl⟩
  have h0 : Shifting s v _ t := ht ▸ hstart.step (by simp)
  have hB0 : slot t varB = 0 := by simp [ht]
  -- byte 3
  obtain ⟨t3, ht3⟩ : ∃ t', t' = run [.sb tp (spVarByte varB 3), .lw gp (spVar varB)] (run (getShiftByteInTp s0 3) t) :=
    ⟨_, rfl⟩
  have h3 : Shifting s v _ t3 := ht3 ▸ (h0.step (by simp)).step (by simp)
  have hgp3 : t3.regs.x gp = left (byte v 3) a <<< 24 := by
    simp [ht3, h0.get h hrow, hB0, setByte_high]
  have hB3 : slot t3 varB = setByte 0#32 3 (byte (left (byte v 3) a) 0) := by
    simp [ht3, h0.get h hrow, hB0]
  -- byte 2
  obtain ⟨t2, ht2⟩ : ∃ t', t' = run (sh tp (spVarByte varB 2) ++ [.lw tp (spVar varB), .add gp gp tp])
      (run (getShiftByteInTp s0 2) t3) := ⟨_, rfl⟩
  have h2 : Shifting s v _ t2 := ht2 ▸ (h3.step (by simp)).step (by simp [sh_eq])
  have hgp2 : t2.regs.x gp = left (byte v 3) a <<< 24 + left (byte v 2) a <<< 16 := by
    simp [ht2, sh_eq, h3.get h hrow, hB3, hgp3, byte_setWidth, setByte_covered, setByte_half]
  -- byte 1
  obtain ⟨t1, ht1⟩ : ∃ t', t' = run (slli tp tp 8 ++ [.add gp gp tp]) (run (getShiftByteInTp s0 1) t2) := ⟨_, rfl⟩
  have h1 : Shifting s v _ t1 := ht1 ▸ (h2.step (by simp)).step (by simp [slli_small_within])
  have hgp1 : t1.regs.x gp = left (byte v 3) a <<< 24 + left (byte v 2) a <<< 16 + left (byte v 1) a <<< 8 := by
    simp [ht1, h2.get h hrow, hgp2]
  -- byte 0
  rw [← ha, ← hv, ← shiftLeft_bytes v a]
  refine shift_end (h1.step (c := getShiftByteInTp s0 0) (by simp)) ?_ ?_ ?_ sll_straight
  · simp [h1.get h hrow, hgp1]
  · simp [h1.get h hrow]
  · simp only [sll, ht, ht3, ht2, ht1, run_flatten_cons, run_flatten_nil, run_cons, run_nil, run_append]

/-! ## `shift_right_template` -/

/-- The amount of a shift to the right. -/
def Amount.value (f : RegFile) : Amount → ℕ
  | .reg rs2 => (f.x rs2).toNat % 32
  | .imm n => n

/-- **The bytes 2 to 0 of the result.** -/
theorem Shifting.lower {v row : Word} {a : ℕ} (h : Shifting s v row t) (hr : Ready L s) (hrow : Row L row (right · a)) :
    Shifting s v row (run rightLower t) ∧ (run rightLower t).regs.x gp = Bytes.lower v a := by
  obtain ⟨t2, ht2⟩ : ∃ t', t' = exec (.sw tp (spVar varB)) (run (getShiftByteInTp s0 2) t) := ⟨_, rfl⟩
  have h2 : Shifting s v row t2 := ht2 ▸ (h.step (by simp)).step (c := [.sw tp (spVar varB)]) (by simp)
  have hB2 : slot t2 varB = right (byte v 2) a := by simp [ht2, h.get hr hrow]
  obtain ⟨t1, ht1⟩ : ∃ t', t' = exec (.sw tp (spVar varC)) (run (getShiftByteInTp s0 1) t2) := ⟨_, rfl⟩
  have h1 : Shifting s v row t1 := ht1 ▸ (h2.step (by simp)).step (c := [.sw tp (spVar varC)]) (by simp)
  have hB1 : slot t1 varB = right (byte v 2) a := by simp [ht1, hB2]
  have hC1 : slot t1 varC = right (byte v 1) a := by simp [ht1, h2.get hr hrow]
  obtain ⟨t0, ht0⟩ : ∃ t', t' = exec (.sw tp (spVar varD)) (run (getShiftByteInTp s0 0) t1) := ⟨_, rfl⟩
  have h0 : Shifting s v row t0 := ht0 ▸ (h1.step (by simp)).step (c := [.sw tp (spVar varD)]) (by simp)
  have hB0 : slot t0 varB = right (byte v 2) a := by simp [ht0, hB1]
  have hC0 : slot t0 varC = right (byte v 1) a := by simp [ht0, hC1]
  have hD0 : slot t0 varD = right (byte v 0) a := by simp [ht0, h1.get hr hrow]
  let sum : Code := List.flatten
    [[.lbu gp (spVarByte varB 1), .lbu tp (spVarByte varC 2), .add gp gp tp, .lbu tp (spVarByte varD 3),
        .add gp gp tp, .sw gp (spVar varD)],
      [.lbu gp (spVarByte varB 2), .lbu tp (spVarByte varC 3), .add gp gp tp, .sb gp (spVarByte varD 1)],
      [.lbu gp (spVarByte varB 3), .sb gp (spVarByte varD 2)],
      [.lw gp (spVar varD)]]
  have hrun : run rightLower t = run sum t0 := by
    simp only [rightLower, sum, ht0, ht1, ht2, run_flatten_cons, run_flatten_nil, run_cons, run_nil]
  rw [hrun]
  refine ⟨h0.step (by simp [sum]), ?_⟩
  rw [← lower_eq_setByte]
  simp [sum, hB0, hC0, hD0, byte_setWidth]

theorem rightRow_within {m : Amount} {p : Word} : Within p (Touch p [s0, tp] [varB]) (rightRow L m) := by
  cases m with
  | reg r => exact shiftRow_within
  | imm n => simp [rightRow]

theorem rightRow_s0 (h : Ready L s) (m : Amount) :
    (run (rightRow L m) s).regs.x s0 = L.srl8Table + BitVec.ofNat 32 (m.value s.regs * 1024) := by
  cases m with
  | reg r => exact shiftRow_s0 h _
  | imm n => simp [rightRow, Amount.value, Nat.shiftLeft_eq]

theorem shiftRightTemplate_straight {m : Amount} {isArith : Bool} : Straight (shiftRightTemplate L rd rs1 m isArith) := by
  have hrow : Straight (rightRow L m) := by
    cases m with
    | reg r => exact shiftRow_straight
    | imm n => simp [rightRow, la]
  by_cases hm : m = .imm 24
  · cases isArith with
    | false => simp [shiftRightTemplate, hm, getbyte]
    | true => simp [shiftRightTemplate, hm, la]
  · cases isArith with
    | false => simp [shiftRightTemplate, hm, hrow, rightLower]
    | true => simp [shiftRightTemplate, hm, hrow, rightLower, la]

/-- The value of a shift to the right. -/
def shiftRight (isArith : Bool) (v : Word) (n : ℕ) : Word := if isArith then v.sshiftRight n else v >>> n

theorem lower_of_le (v : Word) {a : ℕ} (ha : 24 ≤ a) : Bytes.lower v a = 0 := by
  apply BitVec.eq_of_getLsbD_eq
  intro i hi
  rw [getLsbD_lower, decide_eq_false (by omega), Bool.false_and]
  exact BitVec.getLsbD_zero.symm

/-- Byte 3 moves to byte 0. -/
theorem ushiftRight_24 (v : Word) : (byte v 3).setWidth 32 = v >>> 24 := by
  have hv := v.isLt
  apply BitVec.eq_of_toNat_eq
  rw [BitVec.toNat_setWidth, byte_toNat, BitVec.toNat_ushiftRight, Nat.shiftRight_eq_div_pow]
  omega

/-- The fast path is right for its only amount. -/
theorem fastPath_computes (h : Ready L s) (isArith : Bool) (htp : rd ≠ tp) (hsp : rd ≠ sp) :
    Computes (shiftRightTemplate L rd rs1 (.imm 24) isArith) s rd (shiftRight isArith (s.regs.x rs1) 24) (zone s) := by
  refine computes_of_keeps [varA, varC] (fun h0 => ?_) ?_ (by simp) shiftRightTemplate_straight
  · cases isArith with
    | false => simp [shiftRightTemplate, getbyte, h0, shiftRight, ushiftRight_24]
    | true =>
      let before : Code := List.flatten [[.sw rs1 (spVar varA)], la tp (L.sra8Table + BitVec.ofNat 32 (24 <<< 10)),
        [.lbu rd (spVarByte varA 3)], slli rd rd 2, [.add tp tp rd]]
      obtain ⟨u, hu⟩ : ∃ u, u = run before s := ⟨_, rfl⟩
      have hrun : run (shiftRightTemplate L rd rs1 (.imm 24) true) s = exec (.lw rd (at0 tp)) u := by
        simp [shiftRightTemplate, before, hu]
      have hk : Keeps (Touch (s.regs.x sp) [rd, tp] [varA]) s u := by
        rw [hu]
        exact run_keeps (by simp [before]) (by simp [reg_mem_touch, hsp.symm]) rfl
      have hutp : u.regs.x tp = L.sra8Table + BitVec.ofNat 32 (24 * 1024) +
          BitVec.ofNat 32 ((byte (s.regs.x rs1) 3).toNat * 4) := by
        rw [← four_times]
        simp [hu, before, h0, htp.symm]
      rw [hrun, exec_lw_at0, hutp, write_x, if_pos ⟨rfl, h0⟩,
        row_sra (by omega) u (h.touch hk (by simp [hsp.symm]) (by simp)), shiftRight, if_pos rfl, ← sshiftRight_bytes,
        lower_of_le _ (by omega)]
      exact (BitVec.zero_add _).symm
  · refine run_keeps ?_ (by simp [reg_mem_touch, hsp.symm]) rfl
    cases isArith with
    | false => simp [shiftRightTemplate, getbyte]
    | true => simp [shiftRightTemplate]

/-- **`shift_right_template`** shifts by every amount below 32. -/
theorem shiftRightTemplate_computes (h : Ready L s) {m : Amount} (isArith : Bool) (hm : m.value s.regs < 32)
    (htp : rd ≠ tp) (hsp : rd ≠ sp) : Computes (shiftRightTemplate L rd rs1 m isArith) s rd
      (shiftRight isArith (s.regs.x rs1) (m.value s.regs)) (zone s) := by
  by_cases h24 : m = .imm 24
  · rw [h24]
    exact fastPath_computes h isArith htp hsp
  obtain ⟨a, ha⟩ : ∃ a, a = m.value s.regs := ⟨_, rfl⟩
  obtain ⟨v, hv⟩ : ∃ v, v = s.regs.x rs1 := ⟨_, rfl⟩
  rw [← ha] at hm
  obtain ⟨t, ht⟩ : ∃ t, t = run (rightRow L m) (run [push s0 1, .sw rs1 (spVar varA)] s) := ⟨_, rfl⟩
  have h0 : Shifting s v (L.srl8Table + BitVec.ofNat 32 (a * 1024)) t := by
    rw [ht, hv]
    refine .start h rightRow_within fun u hu hx => ?_
    rw [rightRow_s0 hu, ha]
    cases m with
    | reg r => rw [Amount.value, Amount.value, hx]
    | imm n => rfl
  obtain ⟨h1, hgp⟩ := h0.lower h (row_srl hm)
  rw [← ha, ← hv]
  cases isArith with
  | false =>
    rw [shiftRight, if_neg nofun, ← ushiftRight_bytes]
    refine shift_end (h1.step (c := getShiftByteInTp s0 3) (by simp)) ?_ ?_ ?_ shiftRightTemplate_straight
    · simp [h1.get h (row_srl hm), hgp]
    · simp [h1.get h (row_srl hm)]
    · simp only [shiftRightTemplate, if_neg h24, ht, run_flatten_cons, run_flatten_nil, run_cons, run_nil]
      rfl
  | true =>
    obtain ⟨t', ht'⟩ : ∃ t', t' = run (List.flatten [la tp (L.sra8Table - L.srl8Table), [.add s0 s0 tp]])
        (run rightLower t) := ⟨_, rfl⟩
    have h2 : Shifting s v (L.sra8Table + BitVec.ofNat 32 (a * 1024)) t' := by
      have hk : Keeps (Touch (s.regs.x sp) [s0, tp] []) (run rightLower t) t' := by
        rw [ht']
        exact run_keeps (by simp) (by simp [reg_mem_touch]) h1.sp_eq
      constructor
      · exact h1.keeps.trans (hk.mono (touch_subset (by simp) (by simp)))
      · rw [hk.slot (by simp) h1.sp_eq (by omega) (by simp), h1.spilled]
      · rw [hk.slot (by simp) h1.sp_eq (by simp) (by simp), h1.operand]
      · have hs0 : t'.regs.x s0 = L.srl8Table + BitVec.ofNat 32 (a * 1024) + (L.sra8Table - L.srl8Table) := by
          simp [ht', h1.row]
        rw [hs0]
        ring
    have hgp' : t'.regs.x gp = Bytes.lower v a := by simp [ht', hgp]
    rw [shiftRight, if_pos rfl, ← sshiftRight_bytes]
    refine shift_end (h2.step (c := getShiftByteInTp s0 3) (by simp)) ?_ ?_ ?_ shiftRightTemplate_straight
    · simp [h2.get h (row_sra hm), hgp']
    · simp [h2.get h (row_sra hm)]
    · simp only [shiftRightTemplate, if_neg h24, if_true, ht', ht, run_flatten_cons, run_flatten_nil, run_cons, run_nil]

end Code

/-! ## The macros -/

/-- A shift, with its operands. -/
inductive Shift
  | sll (rd rs1 rs2 : RegIdx)
  | srl (rd rs1 rs2 : RegIdx)
  | sra (rd rs1 rs2 : RegIdx)
  | slli (rd rs1 : RegIdx) (imm : BitVec 5)
  | srli (rd rs1 : RegIdx) (imm : BitVec 5)
  | srai (rd rs1 : RegIdx) (imm : BitVec 5)

namespace Shift

def rd : Shift → RegIdx
  | sll d .. | srl d .. | sra d .. | slli d .. | srli d .. | srai d .. => d

def operands : Shift → List RegIdx
  | sll d a b | srl d a b | sra d a b => [d, a, b]
  | slli d a _ | srli d a _ | srai d a _ => [d, a]

/-- The expansion. -/
def expand (L : Symbols) : Shift → Code
  | sll d a b => Minirv.sll L d a b
  | srl d a b => Minirv.srl L d a b
  | sra d a b => Minirv.sra L d a b
  | slli d a imm => Minirv.slli d a imm.toNat
  | srli d a imm => Minirv.srli L d a imm.toNat
  | srai d a imm => Minirv.srai L d a imm.toNat

/-- What the architecture specifies. -/
def value (f : RegFile) : Shift → Word
  | sll _ a b => f.x a <<< ((f.x b).toNat % 32)
  | srl _ a b => f.x a >>> ((f.x b).toNat % 32)
  | sra _ a b => (f.x a).sshiftRight ((f.x b).toNat % 32)
  | slli _ a imm => f.x a <<< imm.toNat
  | srli _ a imm => f.x a >>> imm.toNat
  | srai _ a imm => (f.x a).sshiftRight imm.toNat

theorem rd_mem_operands (m : Shift) : m.rd ∈ m.operands := by
  cases m <;> exact List.mem_cons_self

end Shift

/-- **The shifts compute what the architecture specifies**, for any operands but `gp`, `tp` and `sp`. -/
theorem shift_computes (h : Ready L s) (m : Shift) (hm : ∀ r ∈ m.operands, Free r) :
    Computes (m.expand L) s m.rd (m.value s.regs) (zone s) := by
  obtain ⟨-, htp, hsp⟩ := hm m.rd m.rd_mem_operands
  cases m with
  | sll d a b => exact sll_computes h
  | srl d a b => exact shiftRightTemplate_computes h (m := .reg b) false (Nat.mod_lt _ (by omega)) htp hsp
  | sra d a b => exact shiftRightTemplate_computes h (m := .reg b) true (Nat.mod_lt _ (by omega)) htp hsp
  | slli d a imm => exact slli_computes imm.isLt hsp
  | srli d a imm => exact shiftRightTemplate_computes h (m := .imm imm.toNat) false imm.isLt htp hsp
  | srai d a imm => exact shiftRightTemplate_computes h (m := .imm imm.toNat) true imm.isLt htp hsp

/-- `srai s0, s0, 24` on -2, by the fast path. -/
theorem shift_computes_srai :
    (run ((Shift.srai s0 s0 24).expand Symbols.sample) (sampleMachine (-2))).regs.x s0 = -1 :=
  (shift_computes (sample_ready (-2)) (.srai s0 s0 24) (by decide)).value

end Minirv
