import Rv32i.Minirv.Shift

/-!
# minirv: loads and stores of less than a word

The macros `lb`, `lh`, `lhu` and `sh` against the instructions of the architecture that they stand for.

* `Addr.plus` — `n + addr` as the assembler takes it: an offset that does not fit its 12 bits is an error;
* `Computes.addByte` — code that computes, before a byte is added;
* `access_iff` — a macro acts as the instruction exactly when its second offset fits.
-/

namespace Minirv

open Rv32 Bytes

/-! ## The macros -/

/-- `n + addr`. -/
def Addr.plus (n : ℤ) (addr : Addr) : Option Addr :=
  if -2048 ≤ n + addr.offset.toInt ∧ n + addr.offset.toInt < 2048 then
    some ⟨BitVec.ofInt 12 (n + addr.offset.toInt), addr.base⟩
  else none

def lb (L : Symbols) (rd : RegIdx) (addr : Addr) : Code := List.flatten
  [[.sw zero (spVar varA), .lbu rd addr, .sb rd (spVarByte varA 3), .lw rd (spVar varA)], srai L rd rd 24]

/-- The lines of `lhu`, with its two addresses. -/
def lhuLines (rd : RegIdx) (addr1 addr0 : Addr) : Code :=
  [.sw zero (spVar varA), .lbu tp addr1, .sb tp (spVarByte varA 1), .lw tp (spVar varA), .lbu rd addr0, .add rd rd tp]

/-- `lhu`; `none` is an error of the assembler. -/
def lhu (rd : RegIdx) (addr : Addr) : Option Code := do
  return lhuLines rd (← addr.plus 1) (← addr.plus 0)

/-- The lines of `lh`, with its two addresses. -/
def lhLines (L : Symbols) (rd : RegIdx) (addr1 addr0 : Addr) : Code := List.flatten
  [[.sw zero (spVar varA), .lbu gp addr1, .sb gp (spVarByte varA 3), .lw gp (spVar varA)], srai L gp gp 16,
    [.lbu rd addr0, .add rd rd gp]]

def lh (L : Symbols) (rd : RegIdx) (addr : Addr) : Option Code := do
  return lhLines L rd (← addr.plus 1) (← addr.plus 0)

/-- `sh` on any address. -/
def shAt (rs : RegIdx) (addr : Addr) : Option Code := do
  return shLines rs (← addr.plus 0) (← addr.plus 1)

/-! ## Addresses -/

theorem plus_zero (addr : Addr) : addr.plus 0 = some addr := by
  have hlo := BitVec.le_toInt addr.offset
  have hhi := @BitVec.toInt_lt 12 addr.offset
  unfold Addr.plus
  rw [if_pos (by omega), zero_add, BitVec.ofInt_toInt]

theorem offset_eq_iff (addr : Addr) : addr.offset = 2047 ↔ addr.offset.toInt = 2047 := by
  rw [← BitVec.toInt_inj]
  rfl

theorem plus_one (addr : Addr) : addr.plus 1 = if addr.offset = 2047 then none else some ⟨1 + addr.offset, addr.base⟩ := by
  have hlo := BitVec.le_toInt addr.offset
  have hhi := @BitVec.toInt_lt 12 addr.offset
  have hmax := offset_eq_iff addr
  unfold Addr.plus
  by_cases h : addr.offset = 2047
  · rw [if_pos h, if_neg (by rw [hmax.mp h]; decide)]
  · have hne := mt hmax.mpr h
    rw [if_neg h, if_pos (by omega), BitVec.ofInt_add, BitVec.ofInt_toInt]
    rfl

/-- Where both addresses have an encoding, as on the stack words. -/
theorem shAt_eq (rs : RegIdx) {addr : Addr} (h : addr.offset ≠ 2047) : shAt rs addr = some (Minirv.sh rs addr) := by
  rw [shAt, plus_zero, plus_one, if_neg h]
  rfl

/-- The second byte is behind the first. -/
theorem plus_one_eval {addr : Addr} (h : addr.offset ≠ 2047) (f : RegFile) :
    Addr.eval ⟨1 + addr.offset, addr.base⟩ f = addr.eval f + 1 := by
  have hoff : (1 + addr.offset).signExtend 32 = addr.offset.signExtend 32 + 1 := by
    have hlo := BitVec.le_toInt addr.offset
    have hhi := @BitVec.toInt_lt 12 addr.offset
    have hne := mt (offset_eq_iff addr).mpr h
    have h1 : (1 + addr.offset).toInt = 1 + addr.offset.toInt := by
      rw [BitVec.toInt_add, show (1 : BitVec 12).toInt = 1 from rfl]
      exact Int.bmod_eq_of_le (by omega) (by omega)
    apply BitVec.eq_of_toInt_eq
    rw [BitVec.toInt_signExtend_of_le (by decide), h1, BitVec.toInt_add, BitVec.toInt_signExtend_of_le (by decide),
      show (1 : Word).toInt = 1 from rfl, Int.bmod_eq_of_le (by omega) (by omega), Int.add_comm]
  unfold Addr.eval
  rw [hoff, BitVec.add_assoc]

/-! ## Bytes shifted down -/

theorem setByte_zero' (b : Byte) {k : ℕ} (hk : k < 4) : setByte 0 k b = b.setWidth 32 <<< (8 * k) := by
  have h := setByte_zero (b.setWidth 32) hk
  rwa [byte_setWidth] at h

theorem getLsbD_setByte_zero (b : Byte) {k : ℕ} (hk : k < 4) (i : ℕ) :
    (setByte 0 k b).getLsbD i = (decide (i < 32) && (!decide (i < 8 * k) && b.getLsbD (i - 8 * k))) := by
  rw [setByte_zero' b hk, BitVec.getLsbD_shiftLeft, BitVec.getLsbD_setWidth]
  by_cases h32 : i < 32
  · simp [show i - 8 * k < 32 by omega, Bool.and_assoc]
  · simp [h32]

/-- Byte 3 arrives at the bottom with its sign. -/
theorem setByte_sshiftRight_24 (b : Byte) : (setByte 0 3 b).sshiftRight 24 = b.signExtend 32 := by
  apply BitVec.eq_of_getLsbD_eq
  intro i hi
  rw [BitVec.getLsbD_sshiftRight, BitVec.getLsbD_signExtend, BitVec.msb_eq_getLsbD_last, BitVec.msb_eq_getLsbD_last,
    getLsbD_setByte_zero b (by decide), getLsbD_setByte_zero b (by decide)]
  by_cases h : i < 8
  · simp [h, hi, show 24 + i < 32 by omega, show ¬ 24 + i < 24 by omega]
  · simp [h, hi, show ¬ 24 + i < 32 by omega]

/-- The high byte of a half word arrives above the low one, with its sign. -/
theorem add_setByte_sshiftRight_16 (b1 b0 : Byte) :
    b0.setWidth 32 + (setByte 0 3 b1).sshiftRight 16 = (b1 ++ b0).signExtend 32 := by
  have hbit : ∀ i < 32, ((setByte 0 3 b1).sshiftRight 16).getLsbD i =
      if i < 8 then false else if i < 16 then b1.getLsbD (i - 8) else b1.msb := by
    intro i hi
    rw [BitVec.getLsbD_sshiftRight, BitVec.msb_eq_getLsbD_last, BitVec.msb_eq_getLsbD_last,
      getLsbD_setByte_zero b1 (by decide), getLsbD_setByte_zero b1 (by decide)]
    by_cases h8 : i < 8
    · simp [h8, show 16 + i < 24 by omega, show 16 + i < 32 by omega]
    · by_cases h16 : i < 16
      · simp [h8, h16, hi, show ¬ 16 + i < 24 by omega, show 16 + i < 32 by omega, show 16 + i - 24 = i - 8 by omega]
      · simp [h8, h16, hi, show ¬ 16 + i < 32 by omega]
  have hand : b0.setWidth 32 &&& (setByte 0 3 b1).sshiftRight 16 = 0#32 := by
    apply BitVec.eq_of_getLsbD_eq
    intro i hi
    rw [BitVec.getLsbD_and, hbit i hi, BitVec.getLsbD_setWidth]
    by_cases h8 : i < 8
    · simp [h8]
    · simp [h8, BitVec.getLsbD_of_ge b0 i (by omega)]
  rw [BitVec.add_eq_or_of_and_eq_zero _ _ hand]
  apply BitVec.eq_of_getLsbD_eq
  intro i hi
  rw [BitVec.getLsbD_or, hbit i hi, BitVec.getLsbD_setWidth, BitVec.getLsbD_signExtend, BitVec.getLsbD_append,
    BitVec.msb_append]
  by_cases h8 : i < 8
  · simp [h8, show i < 16 by omega]
  · by_cases h16 : i < 16
    · simp [h8, h16, hi, BitVec.getLsbD_of_ge b0 i (by omega)]
    · simp [h8, h16, hi, BitVec.getLsbD_of_ge b0 i (by omega)]

/-- The same without the sign. -/
theorem add_setByte_one (b1 b0 : Byte) : b0.setWidth 32 + setByte 0 1 b1 = (b1 ++ b0).setWidth 32 := by
  have h1 := b1.isLt
  have h0 := b0.isLt
  apply BitVec.eq_of_toNat_eq
  rw [setByte_zero' b1 (by decide), BitVec.toNat_add, BitVec.toNat_shiftLeft, BitVec.toNat_setWidth, BitVec.toNat_setWidth,
    BitVec.toNat_setWidth, BitVec.toNat_append, Nat.shiftLeft_eq, Nat.shiftLeft_eq,
    ← Nat.shiftLeft_eq b1.toNat 8, ← Nat.shiftLeft_add_eq_or_of_lt h0, Nat.shiftLeft_eq]
  omega

/-! ## Stores -/

section Store

variable (m : Word → Byte) (a v q : Word)

theorem sub_toNat_eq_zero : (q - a).toNat = 0 ↔ q = a := by bv_omega

theorem sub_toNat_eq_one : (q - a).toNat = 1 ↔ q = a + 1 := by bv_omega

theorem storeBytes_half_apply :
    storeBytes m a .half v q = if q = a + 1 then byte v 1 else if q = a then byte v 0 else m q := by
  rw [storeBytes_half]
  show (if _ then _ else _) = _
  by_cases h1 : q = a + 1
  · rw [if_pos h1, (sub_toNat_eq_one a q).mpr h1, if_pos (by decide)]
    rfl
  · have hd1 := mt (sub_toNat_eq_one a q).mp h1
    rw [if_neg h1]
    by_cases h0 : q = a
    · rw [if_pos h0, (sub_toNat_eq_zero a q).mpr h0, if_pos (by decide)]
      rfl
    · have hd0 := mt (sub_toNat_eq_zero a q).mp h0
      rw [if_neg h0, if_neg (by omega)]

end Store

/-! ## Code behind code -/

section Code

variable {L : Symbols} {s t : Machine} {rd rs : RegIdx} {c c' : Code} {v : Word} {addr : Addr}

/-- Only a destination other than `x0` holds a value. -/
theorem Computes.of_value {v' : Word} {bytes : Set Word} (h : Computes c s rd v bytes) (hv : rd ≠ zero → v = v') :
    Computes c s rd v' bytes where
  value := by
    rw [h.value, set_x_self, set_x_self]
    by_cases h0 : rd = zero
    · rw [if_pos h0, if_pos h0]
    · rw [if_neg h0, if_neg h0, hv h0]
  regs := h.regs
  mem := h.mem
  pc := h.pc

/-- A byte outside the red zone is not changed by a store to a stack word. -/
theorem sw_mem {q : Word} (hq : q ∉ zone s) {n : ℕ} (hn : n < 8) (h1 : 1 ≤ n) (r : RegIdx) :
    (exec (.sw r (spVar n)) s).mem q = s.mem q := by
  have hk : Keeps (Touch (s.regs.x sp) [] [n]) s (exec (.sw r (spVar n)) s) := exec_keeps (by simp [hn]) rfl
  exact hk.mem (not_byte_mem_touch (by simpa using h1) hq)

/-- The address of an access behind a store. -/
theorem eval_sw (a : Addr) (r : RegIdx) (addr : Addr) : addr.eval (exec (.sw r a) s).regs = addr.eval s.regs := by
  unfold Addr.eval
  rw [exec_sw_x]

/-- A load behind a store to a stack word. -/
theorem lbu_sw {q : Word} (haddr : addr.eval s.regs = q) (hq : q ∉ zone s) {n : ℕ} (hn : n < 8) (h1 : 1 ≤ n)
    (r d : RegIdx) : exec (.lbu d addr) (exec (.sw r (spVar n)) s) =
      write (exec (.sw r (spVar n)) s) d ((s.mem q).setWidth 32) := by
  rw [exec_lbu, eval_sw, haddr, sw_mem hq hn h1]

theorem lb_computes (h : Ready L s) (hrd : Free rd) (hq : addr.eval s.regs ∉ zone s) :
    Computes (lb L rd addr) s rd ((s.mem (addr.eval s.regs)).signExtend 32) (zone s) := by
  obtain ⟨hgp, htp, hsp⟩ := hrd
  obtain ⟨t, ht⟩ : ∃ t, t = run [.sw zero (spVar varA), .lbu rd addr, .sb rd (spVarByte varA 3),
    .lw rd (spVar varA)] s := ⟨_, rfl⟩
  have hk : Keeps (Touch (s.regs.x sp) [rd, gp, tp] [varA]) s t := by
    rw [ht]
    exact run_keeps (by simp) (by simp [reg_mem_touch, hsp.symm]) rfl
  have hready := h.touch hk (by simp [hsp.symm]) (by simp)
  have hc := @shiftRightTemplate_computes L t rd rd hready (.imm 24) true (show 24 < 32 by decide) htp hsp
  have hcode := Computes.behind ht hk (by simp) (by simp [hsp.symm]) (by simp) (by simp) hc
  have hlb : lb L rd addr = [.sw zero (spVar varA), .lbu rd addr, .sb rd (spVarByte varA 3), .lw rd (spVar varA)] ++
      shiftRightTemplate L rd rd (.imm 24) true := by
    simp [lb, srai]
  rw [hlb]
  refine hcode.of_value fun h0 => ?_
  have hx : t.regs.x rd = setByte 0 3 (s.mem (addr.eval s.regs)) := by
    rw [ht]
    simp only [run_cons, run_nil]
    rw [lbu_sw rfl hq (by simp) (by simp)]
    simp [h0, hsp, byte_setWidth]
  rw [hx]
  exact setByte_sshiftRight_24 _

/-- The low byte of a half word, added to what code computes from the high one. -/
theorem Computes.addByte {d : RegIdx} (h : Computes c s d v (zone s)) (hd0 : d ≠ zero) (hd : d = gp ∨ d = tp)
    (hrd : Free rd) (hbase : addr.base ≠ gp ∧ addr.base ≠ tp) (hq : addr.eval s.regs ∉ zone s) :
    Computes (c ++ [.lbu rd addr, .add rd rd d]) s rd ((s.mem (addr.eval s.regs)).setWidth 32 + v) (zone s) := by
  obtain ⟨hgp, htp, hsp⟩ := hrd
  obtain ⟨t, ht⟩ : ∃ t, t = run c s := ⟨_, rfl⟩
  have hne : addr.base ≠ d ∧ rd ≠ d := by
    obtain rfl | rfl := hd
    · exact ⟨hbase.1, hgp⟩
    · exact ⟨hbase.2, htp⟩
  have haddr : addr.eval t.regs = addr.eval s.regs := by
    unfold Addr.eval
    rw [ht, h.regs _ hne.1 hbase.1 hbase.2]
  obtain ⟨u, hu⟩ : ∃ u, u = write t rd ((s.mem (addr.eval s.regs)).setWidth 32) := ⟨_, rfl⟩
  have hrun : run (c ++ [.lbu rd addr, .add rd rd d]) s = write u rd (u.regs.x rd + u.regs.x d) := by
    rw [run_append, ← ht, run_cons, run_cons, run_nil, exec_add, exec_lbu, haddr, hu, ht, h.mem _ hq]
  have hkeep : ∀ r, r ≠ rd → u.regs.x r = t.regs.x r := by
    intro r hr
    rw [hu, write_x, if_neg fun h => hr h.1]
  have hv : u.regs.x d = v := by
    rw [hkeep d hne.2.symm, ht, h.value, set_x_self, if_neg hd0]
  constructor
  · rw [hrun, set_x_self, write_x, hv]
    by_cases h0 : rd = zero
    · rw [if_neg fun h => h.2 h0, if_pos h0, h0, x_zero]
    · rw [if_pos ⟨rfl, h0⟩, if_neg h0, hu, write_x, if_pos ⟨rfl, h0⟩]
  · intro r hr hrgp hrtp
    have hrd : r ≠ d := by
      obtain rfl | rfl := hd
      · exact hrgp
      · exact hrtp
    rw [hrun, write_x, if_neg fun h => hr h.1, hkeep r hr, ht, h.regs r hrd hrgp hrtp]
  · intro q hq
    rw [hrun, write_mem, hu, write_mem, ht, h.mem q hq]
  · rw [hrun, write_pc, hu, write_pc, ht, h.pc, List.length_append, Nat.mul_add, BitVec.ofNat_add, ← BitVec.add_assoc,
      BitVec.add_assoc _ 4 4]
    rfl

section Half

variable {addr1 : Addr}

theorem lhu_computes (hrd : Free rd) (hbase : addr.base ≠ gp ∧ addr.base ≠ tp)
    (hsucc : addr1.eval s.regs = addr.eval s.regs + 1) (hq0 : addr.eval s.regs ∉ zone s)
    (hq1 : addr.eval s.regs + 1 ∉ zone s) : Computes (lhuLines rd addr1 addr) s rd
      ((s.mem (addr.eval s.regs + 1) ++ s.mem (addr.eval s.regs)).setWidth 32) (zone s) := by
  have hc : Computes [.sw zero (spVar varA), .lbu tp addr1, .sb tp (spVarByte varA 1), .lw tp (spVar varA)] s tp
      (setByte 0 1 (s.mem (addr.eval s.regs + 1))) (zone s) := by
    refine computes_of_keeps [varA] (fun _ => ?_) (run_keeps (by simp) (by simp [reg_mem_touch]) rfl) (by simp) (by simp)
    simp only [run_cons, run_nil]
    rw [lbu_sw hsucc hq1 (by simp) (by simp)]
    simp [byte_setWidth]
  have hcode := hc.addByte (by simp) (.inr rfl) hrd hbase hq0
  rwa [add_setByte_one] at hcode

theorem lh_computes (h : Ready L s) (hrd : Free rd) (hbase : addr.base ≠ gp ∧ addr.base ≠ tp)
    (hsucc : addr1.eval s.regs = addr.eval s.regs + 1) (hq0 : addr.eval s.regs ∉ zone s)
    (hq1 : addr.eval s.regs + 1 ∉ zone s) : Computes (lhLines L rd addr1 addr) s rd
      ((s.mem (addr.eval s.regs + 1) ++ s.mem (addr.eval s.regs)).signExtend 32) (zone s) := by
  obtain ⟨t, ht⟩ : ∃ t, t = run [.sw zero (spVar varA), .lbu gp addr1, .sb gp (spVarByte varA 3),
    .lw gp (spVar varA)] s := ⟨_, rfl⟩
  have hk : Keeps (Touch (s.regs.x sp) [gp, gp, tp] [varA]) s t := by
    rw [ht]
    exact run_keeps (by simp) (by simp [reg_mem_touch]) rfl
  have hready := h.touch hk (by simp) (by simp)
  have hx : t.regs.x gp = setByte 0 3 (s.mem (addr.eval s.regs + 1)) := by
    rw [ht]
    simp only [run_cons, run_nil]
    rw [lbu_sw hsucc hq1 (by simp) (by simp)]
    simp [byte_setWidth]
  have hc := @shiftRightTemplate_computes L t gp gp hready (.imm 16) true (show 16 < 32 by decide) (by simp) (by simp)
  have hcode := (Computes.behind ht hk (by simp) (by simp) (by simp) (by simp) hc).addByte (by simp) (.inl rfl) hrd hbase hq0
  have hlh : lhLines L rd addr1 addr = ([.sw zero (spVar varA), .lbu gp addr1, .sb gp (spVarByte varA 3),
      .lw gp (spVar varA)] ++ shiftRightTemplate L gp gp (.imm 16) true) ++ [.lbu rd addr, .add rd rd gp] := by
    simp [lhLines, srai]
  have hvalue : (s.mem (addr.eval s.regs)).setWidth 32 + shiftRight true (t.regs.x gp) 16 =
      (s.mem (addr.eval s.regs + 1) ++ s.mem (addr.eval s.regs)).signExtend 32 := by
    rw [hx]
    exact add_setByte_sshiftRight_16 _ _
  rw [hlh, ← hvalue]
  exact hcode

end Half

/-- The low bytes of `rs` at the two addresses; the bytes of the red zone aside, the rest of the memory stays. -/
theorem shLines_mem {addr1 : Addr} (hrs : Free rs) (hbase : addr.base ≠ gp ∧ addr.base ≠ tp)
    (hsucc : addr1.eval s.regs = addr.eval s.regs + 1) (hb1 : addr1.base = addr.base) {q : Word} (hq : q ∉ zone s) :
    (run (shLines rs addr addr1) s).mem q = storeBytes s.mem (addr.eval s.regs) .half (s.regs.x rs) q := by
  obtain ⟨hgp, htp, hsp⟩ := hrs
  obtain ⟨t, ht⟩ : ∃ t, t = exec (.sb rs addr) s := ⟨_, rfl⟩
  obtain ⟨u, hu⟩ : ∃ u, u = run (getbyte tp rs 1) t := ⟨_, rfl⟩
  have hxt : ∀ r, t.regs.x r = s.regs.x r := by
    intro r
    rw [ht, exec_sb_x]
  have hqt : q ∉ zone t := by rwa [zone, hxt]
  have hku : Keeps (Touch (t.regs.x sp) [tp] [varC]) t u := by
    rw [hu]
    exact run_keeps (by simp [getbyte]) (by simp [reg_mem_touch]) rfl
  have hmem : u.mem q = t.mem q := hku.mem (not_byte_mem_touch (by simp) hqt)
  have htpu : u.regs.x tp = (byte (s.regs.x rs) 1).setWidth 32 := by
    rw [hu]
    simp [getbyte, hxt]
  have heval : addr1.eval u.regs = addr.eval s.regs + 1 := by
    rw [← hsucc]
    unfold Addr.eval
    rw [hku.x (r := addr1.base) (by simp [reg_mem_touch, hb1, hbase.2]), hxt]
  have hrun : run (shLines rs addr addr1) s = exec (.sb tp addr1) u := by
    simp only [shLines, run_flatten_cons, run_flatten_nil, run_cons, run_nil, hu, ht]
  rw [hrun, exec_sb, heval, htpu]
  show storeBytes u.mem _ _ _ q = _
  rw [storeBytes_byte_apply, storeBytes_half_apply, byte_setWidth, hmem, ht, exec_sb]
  show (if _ then _ else storeBytes s.mem _ _ _ q) = _
  rw [storeBytes_byte_apply]

theorem shLines_x {addr1 : Addr} {r : RegIdx} (htp : r ≠ tp) : (run (shLines rs addr addr1) s).regs.x r = s.regs.x r := by
  simp [shLines, getbyte, htp]

end Code

/-! ## The macros act as the instructions -/

/-- An access of less than a word, with its operands. -/
inductive Access
  | lb (rd : RegIdx) (addr : Addr)
  | lh (rd : RegIdx) (addr : Addr)
  | lhu (rd : RegIdx) (addr : Addr)
  | sh (rs : RegIdx) (addr : Addr)

namespace Access

def addr : Access → Addr
  | lb _ a | lh _ a | lhu _ a | sh _ a => a

/-- The destination, or the register that is stored. -/
def reg : Access → RegIdx
  | lb r _ | lh r _ | lhu r _ | sh r _ => r

def mnemonic : Access → Mnemonic
  | lb .. => .lb
  | lh .. => .lh
  | lhu .. => .lhu
  | sh .. => .sh

/-- The instruction of the architecture. -/
def encode : Access → Word
  | lb r a => encodeI a.offset a.base 0b000 r 0b0000011
  | lh r a => encodeI a.offset a.base 0b001 r 0b0000011
  | lhu r a => encodeI a.offset a.base 0b101 r 0b0000011
  | sh r a => encodeS a.offset r a.base 0b001 0b0100011

/-- The expansion. -/
def expand (L : Symbols) : Access → Option Code
  | lb r a => some (Minirv.lb L r a)
  | lh r a => Minirv.lh L r a
  | lhu r a => Minirv.lhu r a
  | sh r a => Minirv.shAt r a

/-- The operands that the macros are meant for. -/
def Allowed (m : Access) : Prop := Free m.reg ∧ m.addr.base ≠ gp ∧ m.addr.base ≠ tp

instance (m : Access) : Decidable m.Allowed := by
  unfold Allowed
  infer_instance

/-- The bytes that are accessed. -/
def accessed (m : Access) (f : RegFile) : Set Word := {q | (q - m.addr.eval f).toNat < m.mnemonic.width.bytes}

/-- The bytes that are accessed are neither in the red zone nor in a table. -/
def Apart (L : Symbols) (s : Machine) (m : Access) : Prop := ∀ q ∈ m.accessed s.regs,
  q ∉ zone s ∧ ∀ t ∈ L.rodata, ∀ k < t.2.length, q ≠ t.1 + BitVec.ofNat 32 k

/-- The macro is expanded, and to code that does what the instruction does; besides it changes `gp`, `tp` and the red
zone only, and goes on behind itself. -/
def ActsAs (L : Symbols) (s : Machine) (m : Access) : Prop := ∃ c, m.expand L = some c ∧
  (∀ r, r ≠ gp → r ≠ tp → (run c s).regs.x r = (step byteMem m.mnemonic m.encode s).regs.x r) ∧
  (∀ q ∉ zone s, (run c s).mem q = (step byteMem m.mnemonic m.encode s).mem q) ∧
  (run c s).pc = s.pc + BitVec.ofNat 32 (4 * c.length)

theorem step_load (op : Mnemonic) (hop : op.kind = .load) (f3 : BitVec 3) (r : RegIdx) (a : Addr) (s : Machine) :
    step byteMem op (encodeI a.offset a.base f3 r 0b0000011) s =
      write s r (extend op (loadBytes s.mem (a.eval s.regs) op.width)) := by
  obtain ⟨-, hd, -, h1, himm⟩ := fieldsI 0b0000011 a.base r f3 a.offset
  unfold step
  rw [hop]
  simp only [hd, h1, himm]
  rfl

theorem step_sh (r : RegIdx) (a : Addr) (s : Machine) : step byteMem .sh (encodeS a.offset r a.base 0b001 0b0100011) s =
    { s with mem := storeBytes s.mem (a.eval s.regs) .half (s.regs.x r), pc := s.pc + 4 } := by
  obtain ⟨-, -, h1, h2, himm⟩ := fieldsS 0b0100011 a.base r 0b001 a.offset
  show ({ s with mem := storeBytes s.mem (s.regs.x (rs1 _) + immS _) .half (s.regs.x (rs2 _)), pc := _ } : Machine) = _
  simp only [h1, h2, himm]
  rfl

section Acts

variable {L : Symbols} {s : Machine} {r : RegIdx} {a : Addr}

/-- Code that computes what the instruction loads. -/
theorem actsAs_of_computes {m : Access} {c : Code} {v : Word} (hc : m.expand L = some c)
    (hstep : step byteMem m.mnemonic m.encode s = write s m.reg v) (h : Computes c s m.reg v (zone s)) :
    m.ActsAs L s := by
  refine ⟨c, hc, fun r hgp htp => ?_, fun q hq => ?_, h.pc⟩
  · rw [hstep]
    by_cases hr : r = m.reg
    · rw [hr, h.value]
      rfl
    · rw [h.regs r hr hgp htp, write_x, if_neg fun hz => hr hz.1]
  · rw [hstep, write_mem, h.mem q hq]

theorem Apart.first {m : Access} (h : m.Apart L s) : m.addr.eval s.regs ∉ zone s := by
  refine (h _ ?_).1
  show (m.addr.eval s.regs - m.addr.eval s.regs).toNat < _
  rw [BitVec.sub_self]
  cases m <;> exact Nat.succ_pos _

theorem Apart.second {m : Access} (h : m.Apart L s) (hm : m.mnemonic.width = .half) :
    m.addr.eval s.regs + 1 ∉ zone s := by
  refine (h _ ?_).1
  show (m.addr.eval s.regs + 1 - m.addr.eval s.regs).toNat < _
  rw [hm, BitVec.add_comm, BitVec.add_sub_cancel]
  exact Nat.lt_succ_self 1

theorem lb_actsAs (h : Ready L s) (hm : (lb r a).Allowed) (ha : (lb r a).Apart L s) : (lb r a).ActsAs L s := by
  refine actsAs_of_computes rfl (step_load .lb rfl _ _ _ _) ?_
  have hv : extend .lb (loadBytes s.mem (a.eval s.regs) .byte) = (s.mem (a.eval s.regs)).signExtend 32 := by
    show (((s.mem (a.eval s.regs)).setWidth 32).setWidth 8).signExtend 32 = _
    rw [BitVec.setWidth_setWidth_of_le _ (by decide), BitVec.setWidth_eq]
  show Computes _ s r (extend .lb (loadBytes s.mem (a.eval s.regs) .byte)) _
  rw [hv]
  exact lb_computes h hm.1 ha.first

theorem lhu_actsAs (hm : (lhu r a).Allowed) (ha : (lhu r a).Apart L s) (hoff : a.offset ≠ 2047) :
    (lhu r a).ActsAs L s := by
  have hc : (lhu r a).expand L = some (lhuLines r ⟨1 + a.offset, a.base⟩ a) := by
    show Minirv.lhu r a = _
    rw [Minirv.lhu, plus_zero, plus_one, if_neg hoff]
    rfl
  exact actsAs_of_computes hc (step_load .lhu rfl _ _ _ _)
    (lhu_computes hm.1 hm.2 (plus_one_eval hoff _) ha.first (ha.second rfl))

theorem lh_actsAs (h : Ready L s) (hm : (lh r a).Allowed) (ha : (lh r a).Apart L s) (hoff : a.offset ≠ 2047) :
    (lh r a).ActsAs L s := by
  have hc : (lh r a).expand L = some (lhLines L r ⟨1 + a.offset, a.base⟩ a) := by
    show Minirv.lh L r a = _
    rw [Minirv.lh, plus_zero, plus_one, if_neg hoff]
    rfl
  refine actsAs_of_computes hc (step_load .lh rfl _ _ _ _) ?_
  have hv : extend .lh (loadBytes s.mem (a.eval s.regs) .half) =
      (s.mem (a.eval s.regs + 1) ++ s.mem (a.eval s.regs)).signExtend 32 := by
    show (((s.mem (a.eval s.regs + 1) ++ s.mem (a.eval s.regs)).setWidth 32).setWidth 16).signExtend 32 = _
    rw [BitVec.setWidth_setWidth_of_le _ (by decide), BitVec.setWidth_eq]
  show Computes _ s r (extend .lh (loadBytes s.mem (a.eval s.regs) .half)) _
  rw [hv]
  exact lh_computes h hm.1 hm.2 (plus_one_eval hoff _) ha.first (ha.second rfl)

theorem sh_actsAs (hm : (sh r a).Allowed) (hoff : a.offset ≠ 2047) : (sh r a).ActsAs L s := by
  have hc : (sh r a).expand L = some (shLines r a ⟨1 + a.offset, a.base⟩) := shAt_eq r hoff
  have hfree : Free r := hm.1
  have hbase : a.base ≠ gp ∧ a.base ≠ tp := hm.2
  have hstep : step byteMem (sh r a).mnemonic (sh r a).encode s = _ := step_sh r a s
  refine ⟨_, hc, fun q _ htp => ?_, fun q hq => ?_, run_pc ?_ s⟩
  · rw [hstep, shLines_x htp]
  · rw [hstep, shLines_mem hfree hbase (plus_one_eval hoff _) rfl hq]
  · simp [shLines, getbyte]

/-- The second address of a half word at offset 2047 is no address. -/
theorem expand_eq_none {m : Access} (hm : m.mnemonic.width = .half) (hoff : m.addr.offset = 2047) :
    m.expand L = none := by
  have h1 := plus_one m.addr
  rw [if_pos hoff] at h1
  cases m with
  | lb => cases hm
  | lh r a | lhu r a | sh r a =>
    have hz := plus_zero a
    have ho : a.plus 1 = none := h1
    simp [expand, Minirv.lh, Minirv.lhu, shAt, hz, ho]

end Acts

end Access

/-- **The macro acts as the instruction** exactly when it accesses one byte or the offset of its second byte fits. -/
theorem access_iff {L : Symbols} {s : Machine} (h : Ready L s) (m : Access) (hm : m.Allowed) (ha : m.Apart L s) :
    m.ActsAs L s ↔ (m.mnemonic.width = .byte ∨ m.addr.offset ≠ 2047) := by
  constructor
  · rintro ⟨c, hc, -⟩
    by_contra hno
    obtain ⟨hw, ho⟩ := not_or.mp hno
    have hhalf : m.mnemonic.width = .half := by
      cases m with
      | lb => exact absurd rfl hw
      | lh | lhu | sh => rfl
    rw [Access.expand_eq_none hhalf (not_not.mp ho)] at hc
    cases hc
  · intro hfit
    cases m with
    | lb r a => exact Access.lb_actsAs h hm ha
    | lh r a => exact Access.lh_actsAs h hm ha (hfit.resolve_left nofun)
    | lhu r a => exact Access.lhu_actsAs hm ha (hfit.resolve_left nofun)
    | sh r a => exact Access.sh_actsAs hm (hfit.resolve_left nofun)

/-- Between the tables of the sample program and its stack. -/
theorem sample_apart {m : Access} (hlo : 0x100000 ≤ (m.addr.eval (sampleMachine 0x180000).regs).toNat)
    (hhi : (m.addr.eval (sampleMachine 0x180000).regs).toNat < 0x1f0000) :
    m.Apart Symbols.sample (sampleMachine 0x180000) := by
  obtain ⟨p, hp⟩ : ∃ p, p = m.addr.eval (sampleMachine 0x180000).regs := ⟨_, rfl⟩
  rw [← hp] at hlo hhi
  have hw : m.mnemonic.width.bytes ≤ 2 := by
    cases m with
    | lb => exact Nat.le_succ 1
    | lh | lhu | sh => exact Nat.le_refl 2
  intro q hq
  have hd : (q - p).toNat < m.mnemonic.width.bytes := by
    rw [hp]
    exact hq
  rw [BitVec.toNat_sub] at hd
  have hqlt := q.isLt
  refine ⟨fun hz => ?_, fun t ht k hk heq => ?_⟩
  · have hz' : (q - (0x200000 - 28)).toNat < 28 := hz
    rw [BitVec.toNat_sub, show ((0x200000 : Word) - 28).toNat = 0x1fffe4 from rfl] at hz'
    omega
  · obtain ⟨haddr, hend⟩ := Symbols.sample_addr ht hk
    have hqt := congrArg BitVec.toNat heq
    omega

/-- `lh s0, 4(s0)`: the destination is the base. -/
theorem access_iff_lh : (Access.lh s0 ⟨4, s0⟩).ActsAs Symbols.sample (sampleMachine 0x180000) :=
  (access_iff (sample_ready _) (.lh s0 ⟨4, s0⟩) (by decide) (sample_apart (by decide) (by decide))).mpr
    (.inr (by decide))

/-- `lhu s1, 2047(s0)` is an instruction; its macro is not expanded. -/
theorem lhu_2047_not_actsAs : Ready Symbols.sample (sampleMachine 0x180000) ∧ (Access.lhu s1 ⟨2047, s0⟩).Allowed ∧
    (Access.lhu s1 ⟨2047, s0⟩).Apart Symbols.sample (sampleMachine 0x180000) ∧
    ¬ (Access.lhu s1 ⟨2047, s0⟩).ActsAs Symbols.sample (sampleMachine 0x180000) := by
  refine ⟨sample_ready _, by decide, sample_apart (by decide) (by decide), ?_⟩
  rintro ⟨c, hc, -⟩
  rw [Access.expand_eq_none rfl rfl] at hc
  cases hc

end Minirv
