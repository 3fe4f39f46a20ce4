import Rv32i.Lib.Bytes
import Rv32i.Lib.Region
import Rv32i.Minirv.Base

/-!
# minirv: the words below the stack pointer

The macros keep what does not fit in `gp` and `tp` in the seven words below `sp` (`SP_VAR`).

* `slot s n` — the word `SP_VAR(n)`, and what the accesses to these words read and write;
* `redZone p` — the 28 bytes below the stack pointer `p`;
* `Touch p rs ns` — the registers `rs` and the words `ns` below `p`, as the footprint of code (`run_keeps`);
* `reaches_run` — the machine that fetches code from its memory executes it, if the footprint is apart from it.
-/

namespace Minirv

open Rv32 Bytes

/-! ## Addresses -/

/-- `SP_VAR_BYTE(n, boffset)`. -/
def spVarByte (n b : ℕ) : Addr := ⟨BitVec.ofInt 12 (-(n : ℤ) * 4 + b), sp⟩

/-- `SP_VAR(n)`. -/
def spVar (n : ℕ) : Addr := spVarByte n 0

def varA : ℕ := 4
def varB : ℕ := 5
def varC : ℕ := 6
def varD : ℕ := 7

/-- The variables are different words, none of them one of the words 1 to 3 that registers are pushed to. -/
@[simp] theorem var_ne : varA < 8 ∧ varB < 8 ∧ varC < 8 ∧ varD < 8 ∧
    1 ≤ varA ∧ 1 ≤ varB ∧ 1 ≤ varC ∧ 1 ≤ varD ∧ varA ≠ varB ∧ varA ≠ varC ∧ varA ≠ varD ∧ varB ≠ varA ∧ varB ≠ varC ∧ varB ≠ varD ∧ varC ≠ varA ∧ varC ≠ varB ∧
    varC ≠ varD ∧ varD ≠ varA ∧ varD ≠ varB ∧ varD ≠ varC := by decide

@[simp] theorem push_ne_var : 1 ≠ varA ∧ 1 ≠ varB ∧ 1 ≠ varC ∧ 1 ≠ varD ∧ 2 ≠ varA ∧ 2 ≠ varB ∧
    2 ≠ varC ∧ 2 ≠ varD ∧ 3 ≠ varA ∧ 3 ≠ varB ∧ 3 ≠ varC ∧ 3 ≠ varD ∧ varA ≠ 1 ∧ varB ≠ 1 ∧ varC ≠ 1 ∧ varD ≠ 1 ∧ varA ≠ 2 ∧ varB ≠ 2 ∧
    varC ≠ 2 ∧ varD ≠ 2 ∧ varA ≠ 3 ∧ varB ≠ 3 ∧ varC ≠ 3 ∧ varD ≠ 3 := by decide

/-- `PUSH(r, n)`. -/
@[simp] def push (r : RegIdx) (n : ℕ) : Inst := .sw r (spVar n)

/-- `POP(r, n)`. -/
@[simp] def pop (r : RegIdx) (n : ℕ) : Inst := .lw r (spVar n)

/-- The address of word `n` below `p`. -/
def slotAddr (p : Word) (n : ℕ) : Word := p - BitVec.ofNat 32 (4 * n)

theorem spVarByte_eval {n b : ℕ} (hn : n < 8) (hb : b < 4) (f : RegFile) :
    (spVarByte n b).eval f = slotAddr (f.x sp) n + BitVec.ofNat 32 b := by
  have hoff : (BitVec.ofInt 12 (-(n : ℤ) * 4 + b)).signExtend 32 = BitVec.ofNat 32 b - BitVec.ofNat 32 (4 * n) := by
    interval_cases n <;> interval_cases b <;> rfl
  show f.x sp + (BitVec.ofInt 12 (-(n : ℤ) * 4 + b)).signExtend 32 = _
  rw [hoff]
  unfold slotAddr
  ring

theorem spVar_eval {n : ℕ} (hn : n < 8) (f : RegFile) : (spVar n).eval f = slotAddr (f.x sp) n :=
  (spVarByte_eval hn (by omega) f).trans (BitVec.add_zero _)

/-- How far a byte of one word is behind a byte of another. -/
theorem slotAddr_distance (p : Word) {n k b j : ℕ} (hn : n < 8) (hk : k < 8) (hb : b < 4) (hj : j < 4) :
    (slotAddr p k + BitVec.ofNat 32 j - (slotAddr p n + BitVec.ofNat 32 b)).toNat =
      (2 ^ 32 + 4 * n + j - 4 * k - b) % 2 ^ 32 := by
  have h : slotAddr p k + BitVec.ofNat 32 j - (slotAddr p n + BitVec.ofNat 32 b) =
      BitVec.ofNat 32 (4 * n) + BitVec.ofNat 32 j - BitVec.ofNat 32 (4 * k) - BitVec.ofNat 32 b := by
    unfold slotAddr
    ring
  rw [h]
  simp only [BitVec.toNat_sub, BitVec.toNat_add, BitVec.toNat_ofNat]
  omega

/-! ## Words -/

/-- The word `SP_VAR(n)`. -/
def slot (s : Machine) (n : ℕ) : Word := loadBytes s.mem (slotAddr (s.regs.x sp) n) .word

theorem byte_slot (s : Machine) (n : ℕ) {j : ℕ} (hj : j < 4) :
    byte (slot s n) j = s.mem (slotAddr (s.regs.x sp) n + BitVec.ofNat 32 j) := by
  unfold slot
  rw [loadBytes_word, byte_ofBytes _ hj]

/-- A byte of word `k` behind a store to word `n`. -/
theorem storeBytes_slotAddr (m : Word → Byte) (p v : Word) {n k j : ℕ} (hn : n < 8) (hk : k < 8) (hj : j < 4) :
    storeBytes m (slotAddr p n) .word v (slotAddr p k + BitVec.ofNat 32 j) =
      if k = n then byte v j else m (slotAddr p k + BitVec.ofNat 32 j) := by
  have h := slotAddr_distance p hn hk (show 0 < 4 by omega) hj
  rw [show slotAddr p n + BitVec.ofNat 32 0 = slotAddr p n from BitVec.add_zero _] at h
  rw [storeBytes_word]
  simp only [h]
  by_cases hkn : k = n
  · subst hkn
    have hd : (2 ^ 32 + 4 * k + j - 4 * k - 0) % 2 ^ 32 = j := by omega
    rw [if_pos rfl, hd, if_pos hj]
    rfl
  · rw [if_neg hkn, if_neg (by omega)]

theorem storeBytes_slotAddr_byte (m : Word → Byte) (p v : Word) {n k b j : ℕ} (hn : n < 8) (hk : k < 8) (hb : b < 4)
    (hj : j < 4) : storeBytes m (slotAddr p n + BitVec.ofNat 32 b) .byte v (slotAddr p k + BitVec.ofNat 32 j) =
      if k = n ∧ j = b then byte v 0 else m (slotAddr p k + BitVec.ofNat 32 j) := by
  have h := slotAddr_distance p hn hk hb hj
  rw [storeBytes_byte]
  simp only [h]
  by_cases hkn : k = n ∧ j = b
  · obtain ⟨rfl, rfl⟩ := hkn
    have hd : (2 ^ 32 + 4 * k + j - 4 * k - j) % 2 ^ 32 = 0 := by omega
    rw [hd, if_pos (show 0 < 1 by omega), if_pos ⟨rfl, rfl⟩]
    rfl
  · rw [if_neg hkn, if_neg (by omega)]

section Slots

variable (s : Machine) {n b k : ℕ} (d r : RegIdx)

/-- **`sw r, SP_VAR(n)`** sets word `n`. -/
@[simp] theorem slot_sw (hn : n < 8) (hk : k < 8) :
    slot (exec (.sw r (spVar n)) s) k = if k = n then s.regs.x r else slot s k := by
  apply eq_of_byte_eq
  intro j hj
  rw [byte_slot _ _ hj, exec_sw, spVar_eval hn]
  show storeBytes _ _ _ _ (slotAddr (s.regs.x sp) k + BitVec.ofNat 32 j) = _
  rw [storeBytes_slotAddr _ _ _ hn hk hj]
  by_cases hkn : k = n
  · rw [if_pos hkn, if_pos hkn]
  · rw [if_neg hkn, if_neg hkn, byte_slot _ _ hj]

/-- **`sb r, SP_VAR_BYTE(n, b)`** sets one byte of word `n`. -/
@[simp] theorem slot_sb (hn : n < 8) (hk : k < 8) (hb : b < 4) :
    slot (exec (.sb r (spVarByte n b)) s) k =
      if k = n then setByte (slot s n) b (byte (s.regs.x r) 0) else slot s k := by
  apply eq_of_byte_eq
  intro j hj
  rw [byte_slot _ _ hj, exec_sb, spVarByte_eval hn hb]
  show storeBytes _ _ _ _ (slotAddr (s.regs.x sp) k + BitVec.ofNat 32 j) = _
  rw [storeBytes_slotAddr_byte _ _ _ hn hk hb hj]
  by_cases hkn : k = n
  · subst hkn
    rw [if_pos rfl, byte_setByte _ _ _ hj, byte_slot _ _ hj]
    by_cases hjb : j = b
    · rw [if_pos ⟨rfl, hjb⟩, if_pos hjb]
    · rw [if_neg fun h => hjb h.2, if_neg hjb]
  · rw [if_neg hkn, if_neg fun h => hkn h.1, byte_slot _ _ hj]

@[simp] theorem exec_lw_slot (hn : n < 8) : exec (.lw d (spVar n)) s = write s d (slot s n) := by
  rw [exec_lw, spVar_eval hn]
  rfl

@[simp] theorem exec_lbu_slot (hn : n < 8) (hb : b < 4) :
    exec (.lbu d (spVarByte n b)) s = write s d ((byte (slot s n) b).setWidth 32) := by
  rw [exec_lbu, spVarByte_eval hn hb, byte_slot _ _ hb]

/-- A write to a register other than `sp` leaves the words alone. -/
@[simp] theorem slot_write (hd : d ≠ sp) (v : Word) : slot (write s d v) k = slot s k := by
  unfold slot
  rw [write_x, if_neg fun h => hd h.1.symm, write_mem]

end Slots

/-! ## Footprints -/

/-- What code may write: a register or a byte. -/
inductive Cell
  | reg (r : RegIdx)
  | byte (q : Word)

def Cell.Val : Cell → Type
  | .reg _ => Word
  | .byte _ => Byte

def Cell.read : (c : Cell) → Machine → c.Val
  | .reg r, s => s.regs.x r
  | .byte q, s => s.mem q

abbrev Keeps (K : Set Cell) (s s' : Machine) : Prop := Line.Keeps Cell.read K s s'

section Keeps

variable {K : Set Cell} {s s' : Machine}

theorem keeps_of_eq (hregs : ∀ r, .reg r ∉ K → s'.regs.x r = s.regs.x r)
    (hmem : ∀ q, .byte q ∉ K → s'.mem q = s.mem q) : Keeps K s s' := fun c =>
  match c with
  | .reg r => hregs r
  | .byte q => hmem q

theorem Keeps.x (h : Keeps K s s') {r : RegIdx} (hr : .reg r ∉ K) : s'.regs.x r = s.regs.x r := h (.reg r) hr

theorem Keeps.mem (h : Keeps K s s') {q : Word} (hq : .byte q ∉ K) : s'.mem q = s.mem q := h (.byte q) hq

end Keeps

/-- The instruction writes into `K` only when the stack pointer is `p`. -/
def Inst.Within (p : Word) (K : Set Cell) : Inst → Prop
  | .add d .. | .addi d .. | .lui d _ | .lw d _ | .lbu d _ | .jalr d _ => .reg d ∈ K
  | .sw _ addr => addr.base = sp ∧ ∀ j < 4, .byte (p + addr.offset.signExtend 32 + BitVec.ofNat 32 j) ∈ K
  | .sb _ addr => addr.base = sp ∧ .byte (p + addr.offset.signExtend 32) ∈ K

/-- All instructions of the code do. -/
def Within (p : Word) (K : Set Cell) (c : Code) : Prop := ∀ i ∈ c, i.Within p K

variable {K : Set Cell} {p : Word} {s s' : Machine} {i : Inst} {c : Code}

@[simp] theorem within_nil : Within p K [] := nofun

@[simp] theorem within_cons : Within p K (i :: c) ↔ i.Within p K ∧ Within p K c := List.forall_mem_cons

@[simp] theorem within_append {c' : Code} : Within p K (c ++ c') ↔ Within p K c ∧ Within p K c' :=
  List.forall_mem_append

@[simp] theorem within_flatten_nil : Within p K (List.flatten []) := nofun

@[simp] theorem within_flatten_cons {cs : List Code} :
    Within p K (List.flatten (c :: cs)) ↔ Within p K c ∧ Within p K cs.flatten := by
  rw [List.flatten_cons, within_append]

theorem keeps_write {d : RegIdx} (hd : .reg d ∈ K) (v : Word) : Keeps K s (write s d v) := by
  refine keeps_of_eq (fun r hr => ?_) fun _ _ => rfl
  rw [write_x, if_neg fun h : r = d ∧ d ≠ zero => hr (h.1 ▸ hd)]

/-- The bytes of a store. -/
theorem keeps_store {a : Word} {n : Width} (ha : ∀ j < n.bytes, .byte (a + BitVec.ofNat 32 j) ∈ K) (v pc : Word) :
    Keeps K s { s with mem := storeBytes s.mem a n v, pc := pc } := by
  refine keeps_of_eq (fun _ _ => rfl) fun q hq => if_neg fun h => hq ?_
  have hmem := ha _ h
  rwa [BitVec.ofNat_toNat, BitVec.setWidth_eq, BitVec.add_comm, BitVec.sub_add_cancel] at hmem

theorem exec_keeps (h : i.Within p K) (hp : s.regs.x sp = p) : Keeps K s (exec i s) := by
  cases i with
  | add d a b => rw [exec_add]; exact keeps_write h _
  | addi d a imm => rw [exec_addi]; exact keeps_write h _
  | lui d imm => rw [exec_lui]; exact keeps_write h _
  | lw d addr => rw [exec_lw]; exact keeps_write h _
  | lbu d addr => rw [exec_lbu]; exact keeps_write h _
  | jalr d addr =>
    rw [exec_jalr]
    exact keeps_of_eq (fun r hr => if_neg fun hd : r = d ∧ d ≠ 0 => hr (hd.1 ▸ h)) fun _ _ => rfl
  | sw r addr =>
    obtain ⟨hbase, hbytes⟩ := h
    have haddr : addr.eval s.regs = p + addr.offset.signExtend 32 := by rw [Addr.eval, hbase, hp]
    rw [exec_sw, haddr]
    exact keeps_store (n := .word) hbytes _ _
  | sb r addr =>
    obtain ⟨hbase, hbyte⟩ := h
    have haddr : addr.eval s.regs = p + addr.offset.signExtend 32 := by rw [Addr.eval, hbase, hp]
    rw [exec_sb, haddr]
    refine keeps_store (fun j hj => ?_) _ _
    obtain rfl : j = 0 := by simpa [Width.bytes] using hj
    simpa using hbyte

/-- **Code that leaves the stack pointer alone writes where its instructions do.** -/
theorem run_keeps (h : Within p K c) (hsp : .reg sp ∉ K) (hp : s.regs.x sp = p) : Keeps K s (run c s) := by
  have hstep : ∀ i ∈ c, ∀ s : Machine, s.regs.x sp = p → Keeps K s (exec i s) ∧ (exec i s).regs.x sp = p := by
    intro i hi s hs
    have hk := exec_keeps (h i hi) hs
    exact ⟨hk, (hk.x hsp).trans hs⟩
  exact (Line.run_keeps hstep hp).1

/-- **The machine runs code in memory** that does not write over itself and has no jump but at its end. -/
theorem reaches_run (h : Within p K c) (hsp : .reg sp ∉ K) (hp : s.regs.x sp = p) (hplaced : Placed c s.mem s.pc)
    (hown : ∀ q ∈ codeBytes c s.pc, .byte q ∉ K) (hjump : Straight c.dropLast) :
    ReachesIn (fun _ => True) c.length s (run c s) := by
  induction c generalizing s with
  | nil =>
    rw [run_nil]
    exact .refl s
  | cons i c ih =>
    obtain ⟨hi, hc⟩ := within_cons.mp h
    have hfetch : fetch s = i.encode := by
      have hword := hplaced 0 i rfl
      rwa [show s.pc + BitVec.ofNat 32 (4 * 0) = s.pc from BitVec.add_zero _] at hword
    rw [run_cons]
    refine .step trivial (next_exec hfetch) ?_
    rcases List.eq_nil_or_concat c with rfl | ⟨c', i', rfl⟩
    · rw [run_nil]
      exact .refl _
    · rw [List.concat_eq_append] at *
      rw [← List.cons_append, List.dropLast_concat] at hjump
      obtain ⟨hgoes, hstraight⟩ := straight_cons.mp hjump
      have hkeeps := exec_keeps hi hp
      have hpc := exec_pc hgoes s
      refine ih hc ((hkeeps.x hsp).trans hp) ?_ ?_ ?_
      · rw [hpc]
        exact hplaced.tail fun q hq => hkeeps.mem (hown q hq)
      · rw [hpc]
        exact fun q hq => hown q (codeBytes_tail i _ _ hq)
      · rwa [List.dropLast_concat]

/-- The 28 bytes below the stack pointer `p`. -/
def redZone (p : Word) : Region 32 := ⟨p - 28, 28⟩

/-- The registers `rs`, and the words `ns` below `p`. -/
def Touch (p : Word) (rs : List RegIdx) (ns : List ℕ) : Set Cell
  | .reg r => r ∈ rs
  | .byte q => ∃ n ∈ ns, n < 8 ∧ ∃ j < 4, q = slotAddr p n + BitVec.ofNat 32 j

variable {rs : List RegIdx} {ns : List ℕ}

theorem reg_mem_touch {r : RegIdx} : .reg r ∈ Touch p rs ns ↔ r ∈ rs := Iff.rfl

theorem touch_subset {rs' : List RegIdx} {ns' : List ℕ} (hrs : rs ⊆ rs') (hns : ns ⊆ ns') :
    Touch p rs ns ⊆ Touch p rs' ns' := by
  rintro (r | q) hm
  · exact hrs hm
  · obtain ⟨n, hn, hrest⟩ := hm
    exact ⟨n, hns hn, hrest⟩

theorem byte_mem_touch {n b : ℕ} (hn : n < 8) (hb : b < 4) :
    .byte (slotAddr p n + BitVec.ofNat 32 b) ∈ Touch p rs ns ↔ n ∈ ns := by
  constructor
  · rintro ⟨k, hk, hk8, j, hj, heq⟩
    have h := slotAddr_distance p hk8 hn hj hb
    rw [← heq, BitVec.sub_self] at h
    have hz : (0 : ℕ) = (2 ^ 32 + 4 * k + b - 4 * n - j) % 2 ^ 32 := h
    obtain rfl : n = k := by omega
    exact hk
  · intro h
    exact ⟨n, h, hn, b, hb, rfl⟩

/-- Words 1 to 7 are in the red zone. -/
theorem not_byte_mem_touch {q : Word} (hns : ∀ n ∈ ns, 1 ≤ n) (hq : ¬ (redZone p).Contains q) :
    .byte q ∉ Touch p rs ns := by
  rintro ⟨n, hn, hn8, j, hj, rfl⟩
  apply hq
  have h1 := hns n hn
  have h : slotAddr p n + BitVec.ofNat 32 j = (redZone p).base + BitVec.ofNat 32 (28 - 4 * n + j) := by
    unfold slotAddr redZone
    apply BitVec.eq_of_toNat_eq
    simp only [BitVec.toNat_add, BitVec.toNat_sub, BitVec.toNat_ofNat, show (28 : Word).toNat = 28 from rfl]
    omega
  rw [h, Region.contains_add _ (by omega)]
  show 28 - 4 * n + j < 28
  omega

theorem Keeps.slot (h : Keeps (Touch p rs ns) s s') (hsp : sp ∉ rs) (hp : s.regs.x sp = p) {k : ℕ} (hk : k < 8)
    (hkn : k ∉ ns) : slot s' k = slot s k := by
  apply eq_of_byte_eq
  intro j hj
  rw [byte_slot _ _ hj, byte_slot _ _ hj, h.x (r := sp) hsp, hp]
  exact h.mem fun hm => hkn ((byte_mem_touch hk hj).mp hm)

section Touched

variable (d a b : RegIdx) (addr : Addr)

@[simp] theorem within_add : (Inst.add d a b).Within p (Touch p rs ns) ↔ d ∈ rs := Iff.rfl

@[simp] theorem within_addi (imm : BitVec 12) : (Inst.addi d a imm).Within p (Touch p rs ns) ↔ d ∈ rs := Iff.rfl

@[simp] theorem within_lui (imm : BitVec 20) : (Inst.lui d imm).Within p (Touch p rs ns) ↔ d ∈ rs := Iff.rfl

@[simp] theorem within_lw : (Inst.lw d addr).Within p (Touch p rs ns) ↔ d ∈ rs := Iff.rfl

@[simp] theorem within_lbu : (Inst.lbu d addr).Within p (Touch p rs ns) ↔ d ∈ rs := Iff.rfl

end Touched

theorem slot_put {q : Word} (hq : ¬ (redZone (s.regs.x sp)).Contains q) (v : Byte) {k : ℕ} (hk1 : 1 ≤ k) (hk : k < 8) :
    slot (put s q v) k = slot s k := by
  apply eq_of_byte_eq
  intro j hj
  rw [byte_slot _ _ hj, byte_slot _ _ hj, put_mem, put_x, if_neg]
  rintro rfl
  have hmem : .byte (slotAddr (s.regs.x sp) k + BitVec.ofNat 32 j) ∈ Touch (s.regs.x sp) [] [k] :=
    (byte_mem_touch hk hj).mpr (by simp)
  exact not_byte_mem_touch (by simpa using hk1) hq hmem

theorem keeps_put {q : Word} (hq : .byte q ∈ K) (v : Byte) : Keeps K s (put s q v) := by
  refine keeps_of_eq (fun _ _ => rfl) fun q' hq' => ?_
  rw [put_mem, if_neg]
  rintro rfl
  exact hq' hq

/-- Where the stores of the macros go. -/
@[simp] theorem within_sw {n : ℕ} (hn : n < 8) (r : RegIdx) : (Inst.sw r (spVar n)).Within p (Touch p rs ns) ↔ n ∈ ns := by
  have haddr : p + (spVar n).offset.signExtend 32 = slotAddr p n :=
    spVar_eval hn ⟨fun r => if r = 0 then 0 else p, rfl⟩
  show (sp = sp ∧ ∀ j < 4, _) ↔ _
  rw [haddr]
  constructor
  · intro h
    exact (byte_mem_touch hn (by omega)).mp (h.2 0 (by omega))
  · intro h
    exact ⟨rfl, fun j hj => (byte_mem_touch hn hj).mpr h⟩

@[simp] theorem within_sb {n b : ℕ} (hn : n < 8) (hb : b < 4) (r : RegIdx) :
    (Inst.sb r (spVarByte n b)).Within p (Touch p rs ns) ↔ n ∈ ns := by
  have haddr : p + (spVarByte n b).offset.signExtend 32 = slotAddr p n + BitVec.ofNat 32 b :=
    spVarByte_eval hn hb ⟨fun r => if r = 0 then 0 else p, rfl⟩
  show (sp = sp ∧ _) ↔ _
  rw [haddr, byte_mem_touch hn hb]
  exact and_iff_right rfl

/-- A register that got its value back is not written. -/
theorem Keeps.restore {r : RegIdx} (h : Keeps (Touch p (r :: rs) ns) s s') (hr : s'.regs.x r = s.regs.x r) :
    Keeps (Touch p rs ns) s s' := by
  refine keeps_of_eq (fun q hq => ?_) fun q hq => h.mem hq
  by_cases hqr : q = r
  · rw [hqr, hr]
  · exact h.x fun hm => hq ((List.mem_cons.mp hm).resolve_left hqr)

/-! ## Contracts -/

/-- The bytes of the red zone of a state. -/
def zone (s : Machine) : Set Word := {q | (redZone (s.regs.x sp)).Contains q}

/-- The code leaves `v` in `rd` and goes on behind itself; of the rest it changes `gp`, `tp` and `bytes` only. -/
structure Computes (c : Code) (s : Machine) (rd : RegIdx) (v : Word) (bytes : Set Word) : Prop where
  value : (run c s).regs.x rd = (s.regs.set rd v).x rd
  regs : ∀ r, r ≠ rd → r ≠ gp → r ≠ tp → (run c s).regs.x r = s.regs.x r
  mem : ∀ q, q ∉ bytes → (run c s).mem q = s.mem q
  pc : (run c s).pc = s.pc + BitVec.ofNat 32 (4 * c.length)

theorem set_x_self (f : RegFile) (d : RegIdx) (v : Word) : (f.set d v).x d = if d = zero then 0 else v := by
  by_cases hd : d = zero
  · rw [if_pos hd, hd]
    exact (f.set zero v).zero
  · rw [if_neg hd]
    exact set_self f hd v

theorem computes_of_keeps (ns : List ℕ) {rd : RegIdx} {v : Word} (hrd : rd ≠ zero → (run c s).regs.x rd = v)
    (hk : Keeps (Touch (s.regs.x sp) [rd, gp, tp] ns) s (run c s)) (hns : ∀ n ∈ ns, 1 ≤ n) (hc : Straight c) :
    Computes c s rd v (zone s) where
  value := by
    rw [set_x_self]
    by_cases hd : rd = zero
    · rw [if_pos hd, hd, x_zero]
    · rw [if_neg hd, hrd hd]
  regs r hrd hgp htp := hk.x (by simp [reg_mem_touch, hrd, hgp, htp])
  mem q hq := hk.mem (not_byte_mem_touch hns hq)
  pc := run_pc hc s

/-- **Code that computes, behind code** that keeps everything but the destination, `gp`, `tp` and words below `sp`. -/
theorem Computes.behind {t : Machine} {c' : Code} {rd : RegIdx} {v : Word} (ht : t = run c s) {rs : List RegIdx}
    {ns : List ℕ} (hk : Keeps (Touch (s.regs.x sp) rs ns) s t) (hrs : ∀ r ∈ rs, r = rd ∨ r = gp ∨ r = tp)
    (hsp : sp ∉ rs) (hns : ∀ n ∈ ns, 1 ≤ n) (hc : Straight c) (h : Computes c' t rd v (zone t)) :
    Computes (c ++ c') s rd v (zone s) := by
  have hrun : run (c ++ c') s = run c' t := by rw [run_append, ht]
  have hspt : t.regs.x sp = s.regs.x sp := hk.x (r := sp) (mt reg_mem_touch.mp hsp)
  constructor
  · rw [hrun, h.value, set_x_self, set_x_self]
  · intro r hrd hgp htp
    rw [hrun, h.regs r hrd hgp htp]
    refine hk.x fun hm => ?_
    obtain rfl | rfl | rfl := hrs r (reg_mem_touch.mp hm)
    · exact hrd rfl
    · exact hgp rfl
    · exact htp rfl
  · intro q hq
    have hzone : zone t = zone s := by rw [zone, zone, hspt]
    rw [hrun, h.mem q (hzone ▸ hq)]
    exact hk.mem (not_byte_mem_touch hns hq)
  · rw [hrun, h.pc, ht, run_pc hc, List.length_append, Nat.mul_add, BitVec.ofNat_add, BitVec.add_assoc]

/-- Code whose last effect is a write of `v` to `rd`. -/
theorem computes_of_write {rd : RegIdx} {v : Word} (hrun : run c s = write s' rd v)
    (hk : Keeps (Touch (s.regs.x sp) [gp, tp] ns) s s') (hns : ∀ n ∈ ns, 1 ≤ n) (hc : Straight c) :
    Computes c s rd v (zone s) := by
  refine computes_of_keeps ns (fun hd => ?_) ?_ hns hc
  · rw [hrun, write_x, if_pos ⟨rfl, hd⟩]
  · rw [hrun]
    exact (hk.mono (touch_subset (by simp) (by simp))).trans (keeps_write (by simp [reg_mem_touch]) v)

end Minirv
