import Rv32i.Isa.Asm
import Rv32i.Isa.Privileged

/-!
# AM: the trap entry of RISC-V

`__am_asm_trap` of `abstract-machine/am/src/riscv/nemu/trap.S` and of `npc/trap.S`, which differs in the size of the frame
and does not set a bit of `mstatus`.  The registers and three control registers are saved in a frame on the stack, the
handler is called with the address of the frame, and all is loaded again.

* `trapS` — the code, for both platforms, for `RV32I` and for `RV32E`;
* `reaches_tame` — code that keeps `sp` and stores in the frame only;
* `trap_saves_restores` — **the frame holds what was interrupted, and what the frame holds is what goes on**, whatever
  context the handler returns;
* `trap_transparent` — **a handler that leaves the frame alone is not noticed**.
-/

namespace Am.Trap

open Rv32

def sp : RegIdx := 2
def t1 : RegIdx := 6
def t2 : RegIdx := 7

/-! ## The code -/

/-- `__riscv_e` is defined, and the file is that of `npc`. -/
structure Config where
  rvE : Bool
  npc : Bool

/-- `REGS_LO16` -/
def regsLo16 : List RegIdx := [1, 3, 4, 5, 6, 7, 8, 9, 10, 11, 12, 13, 14, 15]

def regsHi16 : List RegIdx := [16, 17, 18, 19, 20, 21, 22, 23, 24, 25, 26, 27, 28, 29, 30, 31]

/-- `REGS` -/
def regs (c : Config) : List RegIdx := regsLo16 ++ if c.rvE then [] else regsHi16

/-- `NR_REGS` -/
def nrRegs (c : Config) : ℕ := if c.rvE then 16 else 32

/-- `CONTEXT_SIZE` -/
def contextSize (c : Config) : ℕ := (nrRegs c + 3 + if c.npc then 1 else 0) * 4

/-- The offset of a word of the frame. -/
def off (n : ℕ) : BitVec 12 := BitVec.ofNat 12 (4 * n)

def push (r : RegIdx) : PrivInstr := .sw r sp (off r.toNat)

def pop (r : RegIdx) : PrivInstr := .lw r sp (off r.toNat)

/-- Behind the pushes: `OFFSET_CAUSE`, `OFFSET_STATUS`, `OFFSET_EPC`. -/
def saveCsrs (c : Config) : List PrivInstr :=
  [.csrrs t0 .mcause 0, .csrrs t1 .mstatus 0, .csrrs t2 .mepc 0,
    .sw t0 sp (off (nrRegs c)), .sw t1 sp (off (nrRegs c + 1)), .sw t2 sp (off (nrRegs c + 2))]

/-- `li a0, (1 << 17)`, and `MPRV` is set. -/
def setMprv (c : Config) : List PrivInstr :=
  if c.npc then [] else [.lui a0 0x20, .base (.reg .or t1 t1 a0), .csrrw 0 .mstatus t1]

def restoreCsrs (c : Config) : List PrivInstr :=
  [.lw t1 sp (off (nrRegs c + 1)), .lw t2 sp (off (nrRegs c + 2)), .csrrw 0 .mstatus t1, .csrrw 0 .mepc t2]

/-- From the entry to the argument of the handler. -/
def saves (c : Config) : List PrivInstr :=
  (regs c).map push ++ (saveCsrs c ++ (setMprv c ++ [.base (.imm .addi a0 sp 0)]))

def restores (c : Config) : List PrivInstr := restoreCsrs c ++ (regs c).map pop

/-- `__am_asm_trap`; `handler` is the distance of the call to `__am_irq_handle`. -/
def trapS (c : Config) (handler : BitVec 20) : List PrivInstr :=
  [.base (.imm .addi sp sp (-BitVec.ofNat 12 (contextSize c)))] ++ (saves c ++ ([.base (.jal ra handler)] ++
    (restores c ++ [.base (.imm .addi sp sp (BitVec.ofNat 12 (contextSize c))), .mret])))

/-! ## Frames -/

/-- Word `n` of a frame at `p`. -/
def slot (m : Word → Byte) (p : Word) (n : ℕ) : Word := loadBytes m (addr p n) .word

/-- The memories agree outside the `size` bytes from `p` on. -/
def Outside (p : Word) (size : ℕ) (m m' : Word → Byte) : Prop := ∀ q, size ≤ (q - p).toNat → m' q = m q

section Frame

variable {m m' m'' : Word → Byte} {p : Word} {size n k : ℕ}

theorem Outside.refl (p : Word) (size : ℕ) (m : Word → Byte) : Outside p size m m := fun _ _ => rfl

theorem Outside.trans (h : Outside p size m m') (h' : Outside p size m' m'') : Outside p size m m'' :=
  fun q hq => (h' q hq).trans (h q hq)

/-- How far an address is behind a word of the frame. -/
theorem sub_addr (hn : 4 * n < 2 ^ 32) (q : Word) : (q - addr p n).toNat = (2 ^ 32 - 4 * n + (q - p).toNat) % 2 ^ 32 := by
  have hsplit : q - addr p n = (q - p) - BitVec.ofNat 32 (4 * n) := by
    unfold addr
    ring
  rw [hsplit, BitVec.toNat_sub, BitVec.toNat_ofNat, Nat.mod_eq_of_lt hn]

theorem store_outside (hn : 4 * n + 4 ≤ size) (hsize : size < 2 ^ 32) (v : Word) :
    Outside p size m (storeBytes m (addr p n) .word v) := by
  intro q hq
  rw [storeBytes_word]
  refine if_neg ?_
  have hlt := (q - p).isLt
  rw [sub_addr (by omega)]
  omega

theorem slot_store (hn : 4 * n + 4 < 2 ^ 32) (hk : 4 * k + 4 < 2 ^ 32) (v : Word) :
    slot (storeBytes m (addr p n) .word v) p k = if k = n then v else slot m p k := by
  have hbyte : ∀ j < 4, storeBytes m (addr p n) .word v (addr p k + BitVec.ofNat 32 j) =
      if k = n then Bytes.byte v j else m (addr p k + BitVec.ofNat 32 j) := by
    intro j hj
    have hdist : (addr p k + BitVec.ofNat 32 j - p).toNat = 4 * k + j := by
      have hsum : addr p k + BitVec.ofNat 32 j - p = BitVec.ofNat 32 (4 * k + j) := by
        unfold addr
        rw [BitVec.ofNat_add]
        ring
      rw [hsum, BitVec.toNat_ofNat, Nat.mod_eq_of_lt (by omega)]
    rw [storeBytes_word]
    dsimp only
    rw [sub_addr (by omega), hdist]
    by_cases hkn : k = n
    · subst hkn
      rw [if_pos (by omega), if_pos rfl, show (2 ^ 32 - 4 * k + (4 * k + j)) % 2 ^ 32 = j by omega]
      rfl
    · rw [if_neg (by omega), if_neg hkn]
  unfold slot
  rw [loadBytes_word, loadBytes_word]
  by_cases hkn : k = n
  · rw [if_pos hkn]
    exact (Bytes.ofBytes_congr fun j hj => (hbyte j hj).trans (if_pos hkn)).trans (Bytes.ofBytes_byte v)
  · rw [if_neg hkn]
    exact Bytes.ofBytes_congr fun j hj => by rw [hbyte j hj, if_neg hkn]

/-- The bytes of the code are not in the frame. -/
def Apart (prog : List PrivInstr) (base p : Word) (size : ℕ) : Prop :=
  ∀ k < 4 * prog.length, size ≤ (base + BitVec.ofNat 32 k - p).toNat

theorem Apart.loaded {prog : List PrivInstr} {base : Word} (h : Apart prog base p size) (hout : Outside p size m m')
    (hload : CodeLoaded prog base m) : CodeLoaded prog base m' := by
  intro i ins hget
  obtain ⟨hvalid, hword⟩ := hload i ins hget
  refine ⟨hvalid, ?_⟩
  have hlt : i < prog.length := (List.getElem?_eq_some_iff.mp hget).1
  rw [← hword, loadBytes_word, loadBytes_word]
  refine Bytes.ofBytes_congr fun j hj => hout _ ?_
  have haddr : addr base i + BitVec.ofNat 32 j = base + BitVec.ofNat 32 (4 * i + j) := by
    unfold addr
    rw [BitVec.ofNat_add, BitVec.add_assoc]
  rw [haddr]
  exact h _ (by omega)

/-- An offset of a frame, as an instruction adds it. -/
theorem add_off (hn : 4 * n < 2 ^ 11) : p + (off n).signExtend 32 = addr p n := by
  unfold addr off
  congr 1
  apply BitVec.eq_of_toInt_eq
  rw [BitVec.toInt_signExtend_of_le (by omega), BitVec.toInt_ofNat', BitVec.toInt_ofNat', Int.bmod_eq_of_le (by omega) (by omega),
    Int.bmod_eq_of_le (by omega) (by omega)]

end Frame

/-! ## Runs -/

/-- The instruction goes on to the next one, keeps `sp` and stores in a frame of this size at `sp` only. -/
inductive Tame (size : ℕ) : PrivInstr → Prop
  | imm {op : Mnemonic} {d r1 : RegIdx} {c : BitVec 12} : d ≠ sp → Tame size (.base (.imm op d r1 c))
  | reg {op : Mnemonic} {d r1 r2 : RegIdx} : d ≠ sp → Tame size (.base (.reg op d r1 r2))
  | lui {d : RegIdx} {c : BitVec 20} : d ≠ sp → Tame size (.lui d c)
  | lw {d r1 : RegIdx} {c : BitVec 12} : d ≠ sp → Tame size (.lw d r1 c)
  | sw {r : RegIdx} {n : ℕ} : 4 * n + 4 ≤ size → Tame size (.sw r sp (off n))
  | csrrw {d r1 : RegIdx} {x : Csr} : d ≠ sp → Tame size (.csrrw d x r1)
  | csrrs {d r1 : RegIdx} {x : Csr} : d ≠ sp → Tame size (.csrrs d x r1)

section Runs

variable (leave : Word → Word) {prog : List PrivInstr} {base : Word} {size i : ℕ}

theorem set_sp (f : RegFile) {d : RegIdx} (hd : d ≠ sp) (v : Word) : (f.set d v).x sp = f.x sp := set_ne f hd.symm v

/-- What a tame instruction keeps. -/
theorem Tame.exec {ins : PrivInstr} (h : Tame size ins) (hsize : size < 2 ^ 11) (s : Hart) :
    (ins.exec leave s).pc = s.pc + 4 ∧ (ins.exec leave s).regs.x sp = s.regs.x sp ∧
      Outside (s.regs.x sp) size s.mem (ins.exec leave s).mem := by
  cases h with
  | sw hn =>
    refine ⟨rfl, rfl, ?_⟩
    show Outside _ _ _ (storeBytes s.mem (s.regs.x sp + (off _).signExtend 32) .word _)
    rw [add_off (by omega)]
    exact store_outside hn (by omega) _
  | imm hd | reg hd | lui hd | lw hd | csrrw hd | csrrs hd => exact ⟨rfl, set_sp _ hd _, Outside.refl _ _ _⟩

def execAll (is : List PrivInstr) (s : Hart) : Hart := is.foldl (fun s ins => ins.exec leave s) s

/-- **Tame code runs to its end**, and nothing outside the frame is written. -/
theorem reaches_tame {is : List PrivInstr} (htame : ∀ ins ∈ is, Tame size ins) (hsize : size < 2 ^ 11) {s : Hart}
    (hat : At prog i is) (hpc : s.pc = addr base i) (hload : CodeLoaded prog base s.mem)
    (happart : Apart prog base (s.regs.x sp) size) :
    Hart.Reaches leave s (execAll leave is s) ∧ (execAll leave is s).pc = addr base (i + is.length) ∧
      (execAll leave is s).regs.x sp = s.regs.x sp ∧ Outside (s.regs.x sp) size s.mem (execAll leave is s).mem := by
  induction is generalizing i s with
  | nil => exact ⟨.refl, hpc, rfl, Outside.refl _ _ _⟩
  | cons ins is ih =>
    obtain ⟨hins, his⟩ := List.forall_mem_cons.mp htame
    obtain ⟨hpc', hsp, hout⟩ := hins.exec leave hsize s
    have hstep := Hart.reaches_step leave hload hat.head hpc
    obtain ⟨hrun, hend, hsp', hout'⟩ := ih (s := ins.exec leave s) his hat.tail (by rw [hpc', hpc, addr_succ])
      (happart.loaded hout hload) (by rw [hsp]; exact happart)
    rw [hsp] at hsp' hout'
    refine ⟨hstep.trans hrun, ?_, hsp', hout.trans hout'⟩
    rw [List.length_cons, Nat.add_comm is.length, ← Nat.add_assoc]
    exact hend

end Runs

/-! ## Saving and restoring registers -/

section Registers

variable (leave : Word → Word)

theorem off_lt (r : RegIdx) : 4 * r.toNat < 2 ^ 11 := by
  have := r.isLt
  omega

theorem exec_push (r : RegIdx) (s : Hart) : (push r).exec leave s =
    { s with mem := storeBytes s.mem (addr (s.regs.x sp) r.toNat) .word (s.regs.x r), pc := s.pc + 4 } := by
  unfold push PrivInstr.exec
  dsimp only
  rw [add_off (off_lt r)]

theorem exec_pop (r : RegIdx) (s : Hart) : (pop r).exec leave s =
    { s with toState := s.toState.write r (slot s.mem (s.regs.x sp) r.toNat) } := by
  unfold pop PrivInstr.exec slot
  dsimp only
  rw [add_off (off_lt r)]

/-- Behind the pushes the frame holds the registers. -/
theorem execAll_push (rs : List RegIdx) (s : Hart) :
    (execAll leave (rs.map push) s).regs = s.regs ∧ (execAll leave (rs.map push) s).csr = s.csr ∧
      (∀ r ∈ rs, slot (execAll leave (rs.map push) s).mem (s.regs.x sp) r.toNat = s.regs.x r) ∧
      ∀ r ∉ rs, slot (execAll leave (rs.map push) s).mem (s.regs.x sp) r.toNat = slot s.mem (s.regs.x sp) r.toNat := by
  induction rs generalizing s with
  | nil => exact ⟨rfl, rfl, fun _ h => (nomatch h), fun _ _ => rfl⟩
  | cons r rs ih =>
    have hexec : execAll leave ((r :: rs).map push) s = execAll leave (rs.map push) ((push r).exec leave s) := rfl
    rw [hexec, exec_push]
    obtain ⟨hregs, hcsr, hin, hnot⟩ := ih
      { s with mem := storeBytes s.mem (addr (s.regs.x sp) r.toNat) .word (s.regs.x r), pc := s.pc + 4 }
    refine ⟨hregs, hcsr, fun q hq => ?_, fun q hq => ?_⟩
    · by_cases hqs : q ∈ rs
      · exact hin q hqs
      · obtain rfl : q = r := (List.mem_cons.mp hq).resolve_right hqs
        refine (hnot q hqs).trans ?_
        have := q.isLt
        rw [slot_store (by omega) (by omega), if_pos rfl]
    · rw [List.mem_cons, not_or] at hq
      refine (hnot q hq.2).trans ?_
      have := q.isLt
      have := r.isLt
      rw [slot_store (by omega) (by omega), if_neg fun h => hq.1 (BitVec.eq_of_toNat_eq h)]

/-- Behind the pops the registers are those of the frame. -/
theorem execAll_pop {rs : List RegIdx} (hsp : sp ∉ rs) (hzero : 0 ∉ rs) (s : Hart) :
    (execAll leave (rs.map pop) s).mem = s.mem ∧ (execAll leave (rs.map pop) s).csr = s.csr ∧
      ∀ q, (execAll leave (rs.map pop) s).regs.x q =
        if q ∈ rs then slot s.mem (s.regs.x sp) q.toNat else s.regs.x q := by
  induction rs generalizing s with
  | nil => exact ⟨rfl, rfl, fun q => (if_neg List.not_mem_nil).symm⟩
  | cons r rs ih =>
    rw [List.mem_cons, not_or] at hsp hzero
    have hexec : execAll leave ((r :: rs).map pop) s = execAll leave (rs.map pop) ((pop r).exec leave s) := rfl
    obtain ⟨hmem, hcsr, hregs⟩ := ih hsp.2 hzero.2
      { s with toState := s.toState.write r (slot s.mem (s.regs.x sp) r.toNat) }
    rw [hexec, exec_pop]
    refine ⟨hmem, hcsr, fun q => (hregs q).trans ?_⟩
    have hkeep : (s.regs.set r (slot s.mem (s.regs.x sp) r.toNat)).x sp = s.regs.x sp := set_ne _ hsp.1 _
    show (if q ∈ rs then slot s.mem ((s.regs.set r _).x sp) q.toNat else (s.regs.set r _).x q) = _
    rw [hkeep]
    by_cases hqs : q ∈ rs
    · rw [if_pos hqs, if_pos (List.mem_cons_of_mem r hqs)]
    · rw [if_neg hqs]
      by_cases hqr : q = r
      · subst hqr
        rw [if_pos List.mem_cons_self, set_self _ (Ne.symm hzero.1)]
      · rw [set_ne _ hqr, if_neg fun h => (List.mem_cons.mp h).elim hqr hqs]

end Registers

/-! ## Control registers -/

section Csrs

variable (leave : Word → Word) (c : Config) (s : Hart)

theorem nrRegs_le : nrRegs c ≤ 32 := by
  unfold nrRegs
  split <;> omega

theorem contextSize_bounds : 4 * (nrRegs c + 3) ≤ contextSize c ∧ contextSize c ≤ 144 := by
  have := nrRegs_le c
  unfold contextSize
  split <;> omega

/-- The control registers are read and stored behind the registers. -/
theorem execAll_saveCsrs : execAll leave (saveCsrs c) s =
    { s with
      regs := ((s.regs.set t0 (s.csr .mcause)).set t1 (s.csr .mstatus)).set t2 (s.csr .mepc)
      pc := s.pc + 4 + 4 + 4 + 4 + 4 + 4
      mem := storeBytes (storeBytes (storeBytes s.mem (addr (s.regs.x sp) (nrRegs c)) .word (s.csr .mcause))
        (addr (s.regs.x sp) (nrRegs c + 1)) .word (s.csr .mstatus))
        (addr (s.regs.x sp) (nrRegs c + 2)) .word (s.csr .mepc) } := by
  have hle := nrRegs_le c
  have h0 : ∀ p : Word, p + (off (nrRegs c)).signExtend 32 = addr p (nrRegs c) := fun p => add_off (by omega)
  have h1 : ∀ p : Word, p + (off (nrRegs c + 1)).signExtend 32 = addr p (nrRegs c + 1) := fun p => add_off (by omega)
  have h2 : ∀ p : Word, p + (off (nrRegs c + 2)).signExtend 32 = addr p (nrRegs c + 2) := fun p => add_off (by omega)
  have hsp : (((s.regs.set t0 (s.csr .mcause)).set t1 (s.csr .mstatus)).set t2 (s.csr .mepc)).x sp = s.regs.x sp := by
    rw [set_ne _ (by decide), set_ne _ (by decide), set_ne _ (by decide)]
  simp only [execAll, saveCsrs, List.foldl_cons, List.foldl_nil, PrivInstr.exec, State.write, if_true, hsp, h0, h1, h2]
  rw [set_self _ (show t2 ≠ 0 by decide), set_ne _ (show t1 ≠ t2 by decide), set_self _ (show t1 ≠ 0 by decide),
    set_ne _ (show t0 ≠ t2 by decide), set_ne _ (show t0 ≠ t1 by decide), set_self _ (show t0 ≠ 0 by decide)]

theorem execAll_setMprv : (execAll leave (setMprv c) s).mem = s.mem ∧
    (∀ q, q ≠ a0 → q ≠ t1 → (execAll leave (setMprv c) s).regs.x q = s.regs.x q) ∧
    (execAll leave (setMprv c) s).csr .mstatus = (if c.npc then s.csr .mstatus else s.regs.x t1 ||| 0x20000) ∧
    ∀ x, x ≠ .mstatus → (execAll leave (setMprv c) s).csr x = s.csr x := by
  unfold setMprv
  by_cases hnpc : c.npc = true
  · rw [if_pos hnpc, if_pos hnpc]
    exact ⟨rfl, fun _ _ _ => rfl, rfl, fun _ _ => rfl⟩
  · rw [if_neg hnpc, if_neg hnpc]
    have hvalue : ((s.regs.set a0 (0x20#20 ++ 0#12)).set t1 (regResult .or ((s.regs.set a0 (0x20#20 ++ 0#12)).x t1)
        ((s.regs.set a0 (0x20#20 ++ 0#12)).x a0))).x t1 = s.regs.x t1 ||| 0x20000 := by
      rw [set_self _ (show t1 ≠ 0 by decide), set_self _ (show a0 ≠ 0 by decide), set_ne _ (show t1 ≠ a0 by decide)]
      rfl
    simp only [execAll, List.foldl_cons, List.foldl_nil, PrivInstr.exec, Instr.exec, State.write, RegFile.set_zero]
    refine ⟨trivial, fun q ha ht => ?_, ?_, fun x hx => ?_⟩
    · rw [set_ne _ ht, set_ne _ ha]
    · rw [Function.update_self]
      exact hvalue
    · rw [Function.update_of_ne hx]

theorem execAll_restoreCsrs : execAll leave (restoreCsrs c) s =
    { s with
      regs := (s.regs.set t1 (slot s.mem (s.regs.x sp) (nrRegs c + 1))).set t2
        (slot s.mem (s.regs.x sp) (nrRegs c + 2))
      pc := s.pc + 4 + 4 + 4 + 4
      csr := Function.update (Function.update s.csr .mstatus (slot s.mem (s.regs.x sp) (nrRegs c + 1))) .mepc
        (slot s.mem (s.regs.x sp) (nrRegs c + 2)) } := by
  have hle := nrRegs_le c
  have h1 : ∀ p : Word, p + (off (nrRegs c + 1)).signExtend 32 = addr p (nrRegs c + 1) := fun p => add_off (by omega)
  have h2 : ∀ p : Word, p + (off (nrRegs c + 2)).signExtend 32 = addr p (nrRegs c + 2) := fun p => add_off (by omega)
  have hsp : (s.regs.set t1 (slot s.mem (s.regs.x sp) (nrRegs c + 1))).x sp = s.regs.x sp := set_ne _ (by decide) _
  unfold slot at hsp ⊢
  simp only [execAll, restoreCsrs, List.foldl_cons, List.foldl_nil, PrivInstr.exec, State.write, RegFile.set_zero, hsp,
    h1, h2]
  rw [set_self _ (show t2 ≠ 0 by decide), set_ne _ (show t1 ≠ t2 by decide), set_self _ (show t1 ≠ 0 by decide)]

/-! ## Tame code -/

theorem toNat_lt : ∀ r ∈ regs c, r.toNat < nrRegs c := by
  unfold regs nrRegs
  cases c.rvE <;> decide

theorem tame_push : ∀ ins ∈ (regs c).map push, Tame (contextSize c) ins := by
  intro ins hins
  obtain ⟨r, hr, rfl⟩ := List.mem_map.mp hins
  have hlt := toNat_lt c r hr
  have hsize := (contextSize_bounds c).1
  exact .sw (by omega)

theorem tame_saves : ∀ ins ∈ saves c, Tame (contextSize c) ins := by
  have hsize := (contextSize_bounds c).1
  unfold saves
  simp only [List.forall_mem_append]
  refine ⟨tame_push c, ?_, ?_, ?_⟩
  · unfold saveCsrs
    simp only [List.forall_mem_cons, List.not_mem_nil, false_imp_iff, implies_true, and_true]
    exact ⟨.csrrs (by decide), .csrrs (by decide), .csrrs (by decide), .sw (by omega), .sw (by omega), .sw (by omega)⟩
  · unfold setMprv
    split
    · exact fun _ h => (nomatch h)
    · simp only [List.forall_mem_cons, List.not_mem_nil, false_imp_iff, implies_true, and_true]
      exact ⟨.lui (by decide), .reg (by decide), .csrrw (by decide)⟩
  · simp only [List.forall_mem_cons, List.not_mem_nil, false_imp_iff, implies_true, and_true]
    exact .imm (by decide)

theorem sp_not_mem : sp ∉ regs c ∧ 0 ∉ regs c := by
  unfold regs
  cases c.rvE <;> decide

theorem tame_restores : ∀ ins ∈ restores c, Tame (contextSize c) ins := by
  unfold restores
  simp only [List.forall_mem_append]
  constructor
  · unfold restoreCsrs
    simp only [List.forall_mem_cons, List.not_mem_nil, false_imp_iff, implies_true, and_true]
    exact ⟨.lw (by decide), .lw (by decide), .csrrw (by decide), .csrrw (by decide)⟩
  · intro ins hins
    obtain ⟨r, hr, rfl⟩ := List.mem_map.mp hins
    refine .lw ?_
    rintro rfl
    exact (sp_not_mem c).1 hr

end Csrs

/-! ## The trap -/

/-- How the handler finds what was interrupted. -/
structure Saved (c : Config) (s s' : Hart) : Prop where
  sp_eq : s'.regs.x sp = s.regs.x sp - BitVec.ofNat 32 (contextSize c)
  arg : s'.regs.x a0 = s'.regs.x sp
  gpr : ∀ r ∈ regs c, slot s'.mem (s'.regs.x sp) r.toNat = s.regs.x r
  cause : slot s'.mem (s'.regs.x sp) (nrRegs c) = s.csr .mcause
  status : slot s'.mem (s'.regs.x sp) (nrRegs c + 1) = s.csr .mstatus
  epc : slot s'.mem (s'.regs.x sp) (nrRegs c + 2) = s.csr .mepc
  outside : Outside (s'.regs.x sp) (contextSize c) s.mem s'.mem
  kept : ∀ q, q ∉ [ra, sp, t0, t1, t2, a0] → s'.regs.x q = s.regs.x q
  mstatus : s'.csr .mstatus = if c.npc then s.csr .mstatus else s.csr .mstatus ||| 0x20000
  csr : ∀ x, x ≠ .mstatus → s'.csr x = s.csr x

/-- How what the frame holds goes on. -/
structure Restored (leave : Word → Word) (c : Config) (s s' : Hart) : Prop where
  pc : s'.pc = slot s.mem (s.regs.x sp) (nrRegs c + 2)
  sp_eq : s'.regs.x sp = s.regs.x sp + BitVec.ofNat 32 (contextSize c)
  gpr : ∀ r ∈ regs c, s'.regs.x r = slot s.mem (s.regs.x sp) r.toNat
  kept : ∀ q, q ∉ sp :: regs c → s'.regs.x q = s.regs.x q
  mem : s'.mem = s.mem
  mstatus : s'.csr .mstatus = leave (slot s.mem (s.regs.x sp) (nrRegs c + 1))
  mepc : s'.csr .mepc = slot s.mem (s.regs.x sp) (nrRegs c + 2)
  csr : ∀ x, x ≠ .mstatus → x ≠ .mepc → s'.csr x = s.csr x

section Trap

variable (leave : Word → Word) (c : Config) (handler : BitVec 20) {base : Word} {s : Hart}

theorem execAll_append (is is' : List PrivInstr) (s : Hart) :
    execAll leave (is ++ is') s = execAll leave is' (execAll leave is s) := List.foldl_append

/-- Where the handler returns to. -/
def returnAddr (base : Word) : Word := addr base (1 + (saves c).length + 1)

/-- Behind the pushes, with what the code has read and stored of the control registers. -/
theorem saveCsrs_spec (s : Hart) : let s' := execAll leave (saveCsrs c) s
    (∀ n < nrRegs c, slot s'.mem (s.regs.x sp) n = slot s.mem (s.regs.x sp) n) ∧
    slot s'.mem (s.regs.x sp) (nrRegs c) = s.csr .mcause ∧ slot s'.mem (s.regs.x sp) (nrRegs c + 1) = s.csr .mstatus ∧
    slot s'.mem (s.regs.x sp) (nrRegs c + 2) = s.csr .mepc ∧ s'.regs.x t1 = s.csr .mstatus ∧ s'.csr = s.csr ∧
    ∀ q, q ∉ [t0, t1, t2] → s'.regs.x q = s.regs.x q := by
  have hle := nrRegs_le c
  rw [execAll_saveCsrs]
  dsimp only
  refine ⟨fun n hn => ?_, ?_, ?_, ?_, ?_, rfl, fun q hq => ?_⟩
  · rw [slot_store (by omega) (by omega), if_neg (by omega), slot_store (by omega) (by omega), if_neg (by omega),
      slot_store (by omega) (by omega), if_neg (by omega)]
  · rw [slot_store (by omega) (by omega), if_neg (by omega), slot_store (by omega) (by omega), if_neg (by omega),
      slot_store (by omega) (by omega), if_pos rfl]
  · rw [slot_store (by omega) (by omega), if_neg (by omega), slot_store (by omega) (by omega), if_pos rfl]
  · rw [slot_store (by omega) (by omega), if_pos rfl]
  · rw [set_ne _ (show t1 ≠ t2 by decide), set_self _ (show t1 ≠ 0 by decide)]
  · simp only [List.mem_cons, List.not_mem_nil, or_false, not_or] at hq
    rw [set_ne _ hq.2.2, set_ne _ hq.2.1, set_ne _ hq.1]

theorem saves_spec (s : Hart) : let s' := execAll leave (saves c) s
    (∀ r ∈ regs c, slot s'.mem (s.regs.x sp) r.toNat = s.regs.x r) ∧
    slot s'.mem (s.regs.x sp) (nrRegs c) = s.csr .mcause ∧ slot s'.mem (s.regs.x sp) (nrRegs c + 1) = s.csr .mstatus ∧
    slot s'.mem (s.regs.x sp) (nrRegs c + 2) = s.csr .mepc ∧ s'.regs.x a0 = s.regs.x sp ∧
    (∀ q, q ∉ [t0, t1, t2, a0] → s'.regs.x q = s.regs.x q) ∧
    s'.csr .mstatus = (if c.npc then s.csr .mstatus else s.csr .mstatus ||| 0x20000) ∧
    ∀ x, x ≠ .mstatus → s'.csr x = s.csr x := by
  obtain ⟨hregs, hcsr, hin, -⟩ := execAll_push leave (regs c) s
  obtain ⟨hslots, hcause, hstatus, hepc, ht1, hcsr₂, hkept⟩ := saveCsrs_spec leave c (execAll leave ((regs c).map push) s)
  rw [hregs, hcsr] at hcause hstatus hepc
  rw [hregs] at hslots hkept
  rw [hcsr] at ht1 hcsr₂
  unfold saves
  rw [execAll_append, execAll_append, execAll_append]
  generalize execAll leave (saveCsrs c) (execAll leave ((regs c).map push) s) = s₂ at *
  obtain ⟨hmem, hx, hms, hcs⟩ := execAll_setMprv leave c s₂
  rw [ht1, hcsr₂] at hms
  generalize execAll leave (setMprv c) s₂ = s₃ at *
  have hsp : s₃.regs.x sp = s.regs.x sp := (hx sp (by decide) (by decide)).trans (hkept sp (by decide))
  have hlast : execAll leave [.base (.imm .addi a0 sp 0)] s₃ =
      { s₃ with toState := s₃.toState.write a0 (regResult .addi (s₃.regs.x sp) ((0 : BitVec 12).signExtend 32)) } := rfl
  rw [hlast]
  dsimp only [State.write]
  rw [hmem]
  refine ⟨fun r hr => ?_, hcause, hstatus, hepc, ?_, fun q hq => ?_, hms, fun x h => ?_⟩
  · rw [hslots _ (toNat_lt c r hr), hin r hr]
  · rw [set_self _ (show a0 ≠ 0 by decide), hsp]
    exact BitVec.add_zero _
  · simp only [List.mem_cons, List.not_mem_nil, or_false, not_or] at hq
    rw [set_ne _ hq.2.2.2, hx q hq.2.2.2 hq.2.1]
    exact hkept q (by simp [hq])
  · rw [hcs x h, hcsr₂]

/-- The frame that the entry allocates. -/
def frame (c : Config) (s : Hart) : Word := s.regs.x sp - BitVec.ofNat 32 (contextSize c)

theorem add_size (x : Word) : x + (-BitVec.ofNat 12 (contextSize c)).signExtend 32 = x - BitVec.ofNat 32 (contextSize c) ∧
    x + (BitVec.ofNat 12 (contextSize c)).signExtend 32 = x + BitVec.ofNat 32 (contextSize c) := by
  have hneg : (-BitVec.ofNat 12 (contextSize c)).signExtend 32 = -BitVec.ofNat 32 (contextSize c) ∧
      (BitVec.ofNat 12 (contextSize c)).signExtend 32 = BitVec.ofNat 32 (contextSize c) := by
    unfold contextSize nrRegs
    cases c.rvE <;> cases c.npc <;> decide
  rw [hneg.1, hneg.2]
  exact ⟨(BitVec.sub_eq_add_neg _ _).symm, rfl⟩

/-- The frame is allocated. -/
def allocated (c : Config) (s : Hart) : Hart :=
  { s with toState := s.toState.write sp (frame c s) }

theorem exec_allocate (s : Hart) :
    (PrivInstr.base (.imm .addi sp sp (-BitVec.ofNat 12 (contextSize c)))).exec leave s = allocated c s := by
  show ({ s with toState := s.toState.write sp (s.regs.x sp + (-BitVec.ofNat 12 (contextSize c)).signExtend 32) } : Hart) = _
  rw [(add_size c _).1]
  rfl

theorem addr_zero (base : Word) : addr base 0 = base := BitVec.add_zero base

/-- **The entry leads to the handler**, with what was interrupted in the frame. -/
theorem trap_enters (hload : CodeLoaded (trapS c handler) base s.mem) (hpc : s.pc = base)
    (hfar : Apart (trapS c handler) base (frame c s) (contextSize c)) :
    ∃ s', Hart.Reaches leave s s' ∧ s'.pc = addr base (1 + (saves c).length) + (handler ++ 0#1).signExtend 32 ∧
      s'.regs.x ra = returnAddr c base ∧ Saved c s s' := by
  have hat : At (trapS c handler) 0 (trapS c handler) := at_self _
  have hsize : contextSize c < 2 ^ 11 := (contextSize_bounds c).2.trans_lt (by norm_num)
  have hsp : (allocated c s).regs.x sp = frame c s := set_self _ (by decide) _
  have hkeep : ∀ q, q ≠ sp → (allocated c s).regs.x q = s.regs.x q := fun q hq => set_ne _ hq _
  have hfirst := Hart.reaches_step leave hload hat.left.head (by rw [addr_zero, hpc])
  rw [exec_allocate] at hfirst
  have hpc₁ : (allocated c s).pc = addr base 1 := by
    show s.pc + 4 = addr base 1
    rw [hpc, ← addr_zero base, addr_succ, addr_zero]
  obtain ⟨hrun, hend, hsp₂, hout⟩ := reaches_tame leave (tame_saves c) hsize (s := allocated c s) hat.right.left hpc₁ hload
    (hsp ▸ hfar)
  obtain ⟨hgpr, hcause, hstatus, hepc, harg, hregs, hms, hcsr⟩ := saves_spec leave c (allocated c s)
  have hjal := Hart.reaches_step leave (hfar.loaded (hsp ▸ hout) hload) hat.right.right.left.head hend
  generalize execAll leave (saves c) (allocated c s) = s₂ at *
  have hcsr₁ : (allocated c s).csr = s.csr := rfl
  have hend' : s₂.pc = addr base (1 + (saves c).length) := hend
  rw [hsp] at hgpr hcause hstatus hepc harg hsp₂ hout
  rw [hcsr₁] at hcause hstatus hepc hms hcsr
  have hexec : (PrivInstr.base (.jal ra handler)).exec leave s₂ =
      { s₂ with regs := s₂.regs.set ra (s₂.pc + 4), pc := s₂.pc + (handler ++ 0#1).signExtend 32 } := rfl
  rw [hexec] at hjal
  have hx : ∀ q, q ≠ ra → (s₂.regs.set ra (s₂.pc + 4)).x q = s₂.regs.x q := fun q hq => set_ne _ hq _
  refine ⟨_, (hfirst.trans hrun).trans hjal, ?_, ?_, ?_⟩
  · show s₂.pc + _ = _
    rw [hend']
  · show (s₂.regs.set ra (s₂.pc + 4)).x ra = returnAddr c base
    rw [set_self _ (show ra ≠ 0 by decide), hend', addr_succ]
    rfl
  · have hsp₃ : (s₂.regs.set ra (s₂.pc + 4)).x sp = frame c s := (hx sp (by decide)).trans hsp₂
    refine ⟨hsp₃, ?_, ?_, ?_, ?_, ?_, ?_, fun q hq => ?_, hms, hcsr⟩
    · dsimp only
      rw [hsp₃, hx a0 (by decide), harg]
    · dsimp only
      rw [hsp₃]
      intro r hr
      rw [hgpr r hr]
      refine hkeep r ?_
      rintro rfl
      exact (sp_not_mem c).1 hr
    · dsimp only
      rw [hsp₃, hcause]
    · dsimp only
      rw [hsp₃, hstatus]
    · dsimp only
      rw [hsp₃, hepc]
    · dsimp only
      rw [hsp₃]
      exact hout
    · simp only [List.mem_cons, List.not_mem_nil, or_false, not_or] at hq
      dsimp only
      rw [hx q hq.1, hregs q (by simp [hq]), hkeep q hq.2.1]

/-- The frame is given back. -/
def freed (c : Config) (s : Hart) : Hart :=
  { s with toState := s.toState.write sp (s.regs.x sp + BitVec.ofNat 32 (contextSize c)) }

theorem exec_free (s : Hart) :
    (PrivInstr.base (.imm .addi sp sp (BitVec.ofNat 12 (contextSize c)))).exec leave s = freed c s := by
  show ({ s with toState := s.toState.write sp (s.regs.x sp + (BitVec.ofNat 12 (contextSize c)).signExtend 32) } : Hart) = _
  rw [(add_size c _).2]
  rfl

/-- **What the frame holds goes on**, when the handler returns with the stack as it was. -/
theorem trap_leaves (hload : CodeLoaded (trapS c handler) base s.mem) (hpc : s.pc = returnAddr c base)
    (hfar : Apart (trapS c handler) base (s.regs.x sp) (contextSize c)) :
    ∃ s', Hart.Reaches leave s s' ∧ Restored leave c s s' := by
  have hat : At (trapS c handler) 0 (trapS c handler) := at_self _
  have hsize : contextSize c < 2 ^ 11 := (contextSize_bounds c).2.trans_lt (by norm_num)
  obtain ⟨hrun, hend, hsp, hout⟩ := reaches_tame leave (tame_restores c) hsize hat.right.right.right.left hpc hload hfar
  obtain ⟨hmem, hcsr, hregs⟩ := execAll_pop leave (sp_not_mem c).1 (sp_not_mem c).2 (execAll leave (restoreCsrs c) s)
  have hsplit : execAll leave (restores c) s = execAll leave ((regs c).map pop) (execAll leave (restoreCsrs c) s) :=
    execAll_append leave _ _ s
  rw [← hsplit, execAll_restoreCsrs] at hmem hcsr hregs
  have hkept : ∀ q, q ≠ t1 → q ≠ t2 → ((s.regs.set t1 (slot s.mem (s.regs.x sp) (nrRegs c + 1))).set t2
      (slot s.mem (s.regs.x sp) (nrRegs c + 2))).x q = s.regs.x q := fun q h1 h2 => by rw [set_ne _ h2, set_ne _ h1]
  dsimp only at hmem hcsr hregs
  rw [hkept sp (by decide) (by decide)] at hregs
  have hadd := Hart.reaches_step leave (hmem.symm ▸ hload) hat.right.right.right.right.head hend
  have hret := hat.right.right.right.right.tail.head
  generalize execAll leave (restores c) s = s₂ at *
  rw [exec_free] at hadd
  have hpc₂ : (freed c s₂).pc = addr base _ := (congrArg (· + 4) hend).trans (addr_succ base _)
  have hload₂ : CodeLoaded (trapS c handler) base (freed c s₂).mem := hmem.symm ▸ hload
  have hmret := Hart.reaches_step leave hload₂ hret hpc₂
  have hepc : s₂.csr .mepc = slot s.mem (s.regs.x sp) (nrRegs c + 2) := by rw [hcsr, Function.update_self]
  have hstatus : s₂.csr .mstatus = slot s.mem (s.regs.x sp) (nrRegs c + 1) := by
    rw [hcsr, Function.update_of_ne (by decide), Function.update_self]
  have hcsrs : ∀ x, x ≠ .mstatus → ((PrivInstr.mret).exec leave (freed c s₂)).csr x = s₂.csr x := fun x hx =>
    Function.update_of_ne hx _ _
  have hx : ∀ q, q ≠ sp → ((PrivInstr.mret).exec leave (freed c s₂)).regs.x q = s₂.regs.x q := fun q hq => set_ne _ hq _
  refine ⟨_, (hrun.trans hadd).trans hmret, hepc, ?_, fun r hr => ?_, fun q hq => ?_, hmem, ?_, ?_, fun x h1 h2 => ?_⟩
  · refine (set_self _ (by decide) _).trans ?_
    rw [hsp]
  · have hne : r ≠ sp := by
      rintro rfl
      exact (sp_not_mem c).1 hr
    rw [hx r hne, hregs, if_pos hr]
  · rw [List.mem_cons, not_or] at hq
    have ht : t1 ∈ regs c ∧ t2 ∈ regs c := by
      unfold regs
      cases c.rvE <;> decide
    rw [hx q hq.1, hregs, if_neg hq.2]
    refine hkept q ?_ ?_ <;> rintro rfl
    · exact hq.2 ht.1
    · exact hq.2 ht.2
  · show Function.update s₂.csr .mstatus (leave (s₂.csr .mstatus)) .mstatus = _
    rw [Function.update_self, hstatus]
  · rw [hcsrs _ (by decide), hepc]
  · rw [hcsrs x h1, hcsr, Function.update_of_ne h2, Function.update_of_ne h1]

/-! ### Results -/

/-- **A handler that leaves its frame alone is not noticed**: the saved registers, `sp` and the place are those of the
interrupt, and `mstatus` is what `mret` makes of it. -/
theorem trap_transparent (hload : CodeLoaded (trapS c handler) base s.mem) (hpc : s.pc = base)
    (hfar : Apart (trapS c handler) base (frame c s) (contextSize c)) :
    ∃ s', Hart.Reaches leave s s' ∧ s'.pc = addr base (1 + (saves c).length) + (handler ++ 0#1).signExtend 32 ∧
      s'.regs.x ra = returnAddr c base ∧ Saved c s s' ∧ ∀ t : Hart, Hart.Reaches leave s' t →
        t.pc = s'.regs.x ra → t.regs.x sp = s'.regs.x sp →
        (∀ n < nrRegs c + 3, slot t.mem (t.regs.x sp) n = slot s'.mem (s'.regs.x sp) n) →
        CodeLoaded (trapS c handler) base t.mem →
        ∃ t', Hart.Reaches leave s t' ∧ t'.pc = s.csr .mepc ∧ (∀ q, q ∈ sp :: regs c → t'.regs.x q = s.regs.x q) ∧
          t'.mem = t.mem ∧ t'.csr .mstatus = leave (s.csr .mstatus) ∧ t'.csr .mepc = s.csr .mepc := by
  obtain ⟨s', hrun, hpc', hra, hsaved⟩ := trap_enters leave c handler hload hpc hfar
  refine ⟨s', hrun, hpc', hra, hsaved, fun t hhandler ht hsp hslots hcode => ?_⟩
  obtain ⟨t', hback, hrest⟩ := trap_leaves leave c handler hcode (ht.trans hra) (by
    rw [hsp, hsaved.sp_eq]
    exact hfar)
  have hepc : slot t.mem (t.regs.x sp) (nrRegs c + 2) = s.csr .mepc := (hslots _ (by omega)).trans hsaved.epc
  have hstatus : slot t.mem (t.regs.x sp) (nrRegs c + 1) = s.csr .mstatus := (hslots _ (by omega)).trans hsaved.status
  refine ⟨t', (hrun.trans hhandler).trans hback, hrest.pc.trans hepc, fun q hq => ?_, hrest.mem,
    hrest.mstatus.trans (congrArg leave hstatus), hrest.mepc.trans hepc⟩
  rcases List.mem_cons.mp hq with rfl | hq
  · rw [hrest.sp_eq, hsp, hsaved.sp_eq]
    exact BitVec.sub_add_cancel _ _
  · have hlt := toNat_lt c q hq
    rw [hrest.gpr q hq, hslots _ (by omega), hsaved.gpr q hq]

end Trap

/-! ### A handler that returns -/

/-- What `mret` makes of `mstatus` where there is a user mode: `MIE` is `MPIE`, `MPIE` is set and `MPP` is that mode. -/
def mretStatus (m : Word) : Word := (m &&& 0xffffe777) ||| (m >>> 4 &&& 0x8) ||| 0x80

/-- The code of NEMU's platform, and behind it a handler that only returns. -/
def returningCode : List PrivInstr := trapS ⟨false, false⟩ 0x4a ++ [.base (.jalr 0 ra 0)]

/-- A machine at the entry, with its stack far behind the code. -/
def interrupted : Hart where
  regs := (⟨fun q => 0x01010101 * q.setWidth 32, rfl⟩ : RegFile).set sp 0x80100000
  pc := 0x80000000
  mem := imageOf PrivInstr.encode returningCode 0x80000000
  csr
    | .mstatus => 0x1880
    | .mtvec => 0x80000000
    | .mepc => 0x80001230
    | .mcause => 0x80000007

theorem interrupted_loaded : CodeLoaded returningCode 0x80000000 interrupted.mem :=
  codeLoaded_image _ (by decide) (by decide)

theorem interrupted_apart : Apart returningCode 0x80000000 (frame ⟨false, false⟩ interrupted)
    (contextSize ⟨false, false⟩) := by
  intro k hk
  have hlen : k < 316 := hk
  have hframe : frame ⟨false, false⟩ interrupted = 0x800fff74 := rfl
  rw [hframe]
  show 140 ≤ _
  bv_omega

theorem entry_loaded {m : Word → Byte} (h : CodeLoaded returningCode 0x80000000 m) :
    CodeLoaded (trapS ⟨false, false⟩ 0x4a) 0x80000000 m := fun i ins hget =>
  h i ins (by rw [returningCode, List.getElem?_append_left (List.getElem?_eq_some_iff.mp hget).1, hget])

theorem entry_apart : Apart (trapS ⟨false, false⟩ 0x4a) 0x80000000 (frame ⟨false, false⟩ interrupted)
    (contextSize ⟨false, false⟩) := fun k hk => interrupted_apart k (hk.trans (by decide))

/-- The handler returns, and the code is still there. -/
theorem handler_returns {s : Hart} (hpc : s.pc = 0x80000138) (hra : s.regs.x ra = 0x800000a8)
    (hsaved : Saved ⟨false, false⟩ interrupted s) : CodeLoaded (trapS ⟨false, false⟩ 0x4a) 0x80000000 s.mem ∧
      Hart.Reaches mretStatus s { s with pc := s.regs.x ra } := by
  have hout := hsaved.outside
  rw [hsaved.sp_eq] at hout
  have hload := interrupted_apart.loaded hout interrupted_loaded
  refine ⟨entry_loaded hload, ?_⟩
  have hret : (PrivInstr.base (.jalr 0 ra 0)).exec mretStatus s = { s with pc := s.regs.x ra } := by
    have hmasked : (s.regs.x ra + (0 : BitVec 12).signExtend 32) &&& ~~~1#32 = s.regs.x ra := by
      rw [hra]
      rfl
    unfold PrivInstr.exec Instr.exec
    dsimp only
    rw [hmasked, RegFile.set_zero]
  exact hret ▸ Hart.reaches_step mretStatus hload (i := 78) rfl hpc

/-- All registers but `x0` come back, and so does `MIE` from `MPIE`. -/
theorem trap_transparent_nemu : ∃ t', Hart.Reaches mretStatus interrupted t' ∧ t'.pc = 0x80001230 ∧
    (∀ q ∈ sp :: regs ⟨false, false⟩, t'.regs.x q = interrupted.regs.x q) ∧ t'.csr .mstatus = 0x88 := by
  obtain ⟨s', -, hpc, hra, hsaved, hback⟩ :=
    trap_transparent mretStatus ⟨false, false⟩ 0x4a (entry_loaded interrupted_loaded) rfl entry_apart
  obtain ⟨hload, hhandler⟩ := handler_returns hpc hra hsaved
  obtain ⟨t', hrun, hpc', hregs, -, hstatus, -⟩ :=
    hback { s' with pc := s'.regs.x ra } hhandler rfl rfl (fun _ _ => rfl) hload
  exact ⟨t', hrun, hpc', hregs, hstatus⟩

end Am.Trap
