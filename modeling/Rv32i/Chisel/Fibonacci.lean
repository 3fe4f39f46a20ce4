import Rv32i.Chisel.Decode
import Mathlib.Data.Nat.Fib.Basic

/-!
# The Fibonacci program on the core

The program of the core's tests, with the count of its third instruction as a parameter.

* `Isa.fibonacci`, `TinyRv32Asm.program` — the program in both assemblers, the same words;
* `specStep_addi`, … — the specified step on an assembled instruction;
* `Trace` — where the core is after each cycle;
* `fib_run` — the program computes the Fibonacci number, in so many cycles, and never fails.
-/

namespace Chisel

open Rv32

/-! ## The program -/

/-- `fibonacci10`, counting to `n`. -/
def Isa.fibonacci (n : Word) : Except String (List Word) := do
  return [addi 1 0 0, addi 2 0 1, addi 3 0 n, addi 4 0 0, ← beq 4 3 24, add 5 1 2, add 1 2 0, add 2 5 0, addi 4 4 1,
    ← beq 0 0 (-20), sw 1 0 0, lw 6 0 0, ← beq 6 1 8, ← beq 0 0 0, ← beq 6 1 0]

/-- `Program`, with `FibN` as a parameter. -/
def TinyRv32Asm.program (fibN : Int32) : Except String (List ℕ) := do
  return [addi 1 0 0, addi 2 0 1, addi 3 0 fibN, addi 4 0 0, ← beq 4 3 24, add 5 1 2, add 1 2 0, add 2 5 0,
    addi 4 4 1, ← beq 0 0 (-20), sw 1 0 0, lw 6 0 0, ← beq 6 1 8, ← beq 0 0 0, ← beq 6 1 0]

/-- The words of the program. -/
def fibonacciWords (n : Word) : List Word := (Isa.fibonacci n).toOption.getD []

/-- The offsets of all its branches can be encoded. -/
theorem fibonacci_ok (n : Word) : Isa.fibonacci n = .ok (fibonacciWords n) := rfl

/-- Both tests run the same words. -/
theorem program_eq (n : Word) :
    (TinyRv32Asm.program n).map (fun ws => ws.map (BitVec.ofNat 32)) = Isa.fibonacci n := by
  have h := TinyRv32Asm.encodeI_eq n 0 3 0 0x13
  rw [fibonacci_ok]
  show Except.ok _ = Except.ok _
  simp only [List.map_cons, List.map_nil, TinyRv32Asm.addi, h]
  rfl

/-- The words stand in the instruction memory, from address 0 on. -/
def Loaded (ws : List Word) (mem : Mem) : Prop := ∀ j (h : j < ws.length), mem (BitVec.ofNat 10 j) = ws[j]

/-! ## Assembled instructions -/

section Instructions

variable {m : Mem} {s : State Mem}

theorem specStep_eq (op : Mnemonic) {w : Word} (hw : m (wordAddr s.pc) = w) (hop : op ∈ supported)
    (h : Encodes op w) : specStep (m, s) = some (m, step wordMem op w s) := by
  subst hw
  show (supported.find? fun op => Encodes op (m (wordAddr s.pc))).map _ = _
  rw [find?_supported hop h]
  rfl

variable {d r1 r2 : RegIdx} {imm : Word}

theorem specStep_add (hw : m (wordAddr s.pc) = Isa.add (arg d) (arg r1) (arg r2)) :
    specStep (m, s) = some (m, { s with regs := s.regs.set d (s.regs.x r1 + s.regs.x r2), pc := s.pc + 4 }) := by
  obtain ⟨hop, hd, h3, h1, h2, h7⟩ :=
    fieldsR ((0x00 : Word).setWidth 7) ((0x33 : Word).setWidth 7) r1 r2 d ((0x0 : Word).setWidth 3)
  unfold Isa.add at hw
  rw [Isa.encodeR_eq, setWidth_arg, setWidth_arg, setWidth_arg] at hw
  rw [specStep_eq .add hw (by decide) ⟨hop.trans (by decide), h3.trans (by decide), h7.trans (by decide)⟩]
  show some (m, ({ s with regs := s.regs.set (rd _) (s.regs.x (rs1 _) + s.regs.x (rs2 _)), pc := s.pc + 4 } :
    State Mem)) = _
  rw [hd, h1, h2]

theorem specStep_addi (himm : Fits imm 12) (hw : m (wordAddr s.pc) = Isa.addi (arg d) (arg r1) imm) :
    specStep (m, s) = some (m, { s with regs := s.regs.set d (s.regs.x r1 + imm), pc := s.pc + 4 }) := by
  obtain ⟨hop, hd, h3, h1, hval⟩ :=
    fieldsI ((0x13 : Word).setWidth 7) r1 d ((0x0 : Word).setWidth 3) (imm.setWidth 12)
  unfold Isa.addi at hw
  rw [Isa.encodeI_eq, setWidth_arg, setWidth_arg] at hw
  rw [specStep_eq .addi hw (by decide) ⟨hop.trans (by decide), h3.trans (by decide)⟩]
  show some (m, ({ s with regs := s.regs.set (rd _) (s.regs.x (rs1 _) + Rv32.immI _), pc := s.pc + 4 } : State Mem)) =
    _
  rw [hd, h1, hval, himm.signExtend (by decide) (by decide)]

theorem specStep_lw (himm : Fits imm 12) (hw : m (wordAddr s.pc) = Isa.lw (arg d) (arg r1) imm) :
    specStep (m, s) =
      some (m, { s with regs := s.regs.set d (s.mem (wordAddr (s.regs.x r1 + imm))), pc := s.pc + 4 }) := by
  obtain ⟨hop, hd, h3, h1, hval⟩ :=
    fieldsI ((0x03 : Word).setWidth 7) r1 d ((0x2 : Word).setWidth 3) (imm.setWidth 12)
  unfold Isa.lw at hw
  rw [Isa.encodeI_eq, setWidth_arg, setWidth_arg] at hw
  rw [specStep_eq .lw hw (by decide) ⟨hop.trans (by decide), h3.trans (by decide)⟩]
  show some (m, ({ s with
    regs := s.regs.set (rd _) (s.mem (wordAddr (s.regs.x (rs1 _) + Rv32.immI _))), pc := s.pc + 4 } : State Mem)) = _
  rw [hd, h1, hval, himm.signExtend (by decide) (by decide)]

theorem specStep_sw (himm : Fits imm 12) (hw : m (wordAddr s.pc) = Isa.sw (arg r2) (arg r1) imm) :
    specStep (m, s) =
      some (m, { s with mem := s.mem.write (wordAddr (s.regs.x r1 + imm)) (s.regs.x r2), pc := s.pc + 4 }) := by
  obtain ⟨hop, h3, h1, h2, hval⟩ :=
    fieldsS ((0x23 : Word).setWidth 7) r1 r2 ((0x2 : Word).setWidth 3) (imm.setWidth 12)
  unfold Isa.sw at hw
  rw [Isa.encodeS_eq, setWidth_arg, setWidth_arg] at hw
  rw [specStep_eq .sw hw (by decide) ⟨hop.trans (by decide), h3.trans (by decide)⟩]
  show some (m, ({ s with
    mem := s.mem.write (wordAddr (s.regs.x (rs1 _) + Rv32.immS _)) (s.regs.x (rs2 _)), pc := s.pc + 4 } :
      State Mem)) = _
  rw [h1, h2, hval, himm.signExtend (by decide) (by decide)]

theorem specStep_beq (himm : Fits imm 13) (heven : imm &&& 1 = 0)
    (hw : .ok (m (wordAddr s.pc)) = Isa.beq (arg r1) (arg r2) imm) :
    specStep (m, s) =
      some (m, { s with pc := if s.regs.x r1 = s.regs.x r2 then s.pc + imm else s.pc + 4 }) := by
  obtain ⟨hop, h3, h1, h2, hval⟩ :=
    fieldsB ((0x63 : Word).setWidth 7) r1 r2 ((0x0 : Word).setWidth 3) (imm.extractLsb' 1 12)
  unfold Isa.beq at hw
  rw [Isa.encodeB_eq _ _ _ _ _ heven, setWidth_arg, setWidth_arg] at hw
  rw [specStep_eq .beq (Except.ok.inj hw) (by decide) ⟨hop.trans (by decide), h3.trans (by decide)⟩]
  show some (m, ({ s with pc := if decide (s.regs.x (rs1 _) = s.regs.x (rs2 _)) = true then s.pc + Rv32.immB _
    else s.pc + 4 } : State Mem)) = _
  rw [h1, h2, hval, append_zero heven, himm.signExtend (by decide) (by decide)]
  simp only [decide_eq_true_eq]

end Instructions

/-! ## Where the core is -/

/-- The Fibonacci number in a register. -/
def fibWord (i : ℕ) : Word := BitVec.ofNat 32 (Nat.fib i)

theorem fibWord_add (i : ℕ) : fibWord i + fibWord (i + 1) = fibWord (i + 2) := by
  unfold fibWord
  rw [Nat.fib_add_two, BitVec.ofNat_add]

/-- What the loop keeps: the count and its end. -/
structure Counts (n i : ℕ) (s : State Mem) : Prop where
  last : s.regs.x 3 = BitVec.ofNat 32 n
  count : s.regs.x 4 = BitVec.ofNat 32 i

/-- The state after `k` cycles of the program that counts to `n`: before the loop, in its round `i`, behind
it, and at its last instruction for good. -/
inductive Trace (n : ℕ) : ℕ → State Mem → Prop
  | start {s} : s.pc = 0 → Trace n 0 s
  | first {s} : s.pc = 4 → s.regs.x 1 = 0 → Trace n 1 s
  | second {s} : s.pc = 8 → s.regs.x 1 = 0 → s.regs.x 2 = 1 → Trace n 2 s
  | last {s} : s.pc = 12 → s.regs.x 1 = 0 → s.regs.x 2 = 1 → s.regs.x 3 = BitVec.ofNat 32 n → Trace n 3 s
  | head {s} (i : ℕ) : i ≤ n → s.pc = 16 → s.regs.x 1 = fibWord i → s.regs.x 2 = fibWord (i + 1) → Counts n i s →
      Trace n (4 + 6 * i) s
  | sum {s} (i : ℕ) : i < n → s.pc = 20 → s.regs.x 1 = fibWord i → s.regs.x 2 = fibWord (i + 1) → Counts n i s →
      Trace n (5 + 6 * i) s
  | shift {s} (i : ℕ) : i < n → s.pc = 24 → s.regs.x 2 = fibWord (i + 1) → s.regs.x 5 = fibWord (i + 2) →
      Counts n i s → Trace n (6 + 6 * i) s
  | shift' {s} (i : ℕ) : i < n → s.pc = 28 → s.regs.x 1 = fibWord (i + 1) → s.regs.x 5 = fibWord (i + 2) →
      Counts n i s → Trace n (7 + 6 * i) s
  | incr {s} (i : ℕ) : i < n → s.pc = 32 → s.regs.x 1 = fibWord (i + 1) → s.regs.x 2 = fibWord (i + 2) →
      Counts n i s → Trace n (8 + 6 * i) s
  | back {s} (i : ℕ) : i < n → s.pc = 36 → s.regs.x 1 = fibWord (i + 1) → s.regs.x 2 = fibWord (i + 2) →
      Counts n (i + 1) s → Trace n (9 + 6 * i) s
  | store {s} : s.pc = 40 → s.regs.x 1 = fibWord n → Trace n (5 + 6 * n) s
  | load {s} : s.pc = 44 → s.regs.x 1 = fibWord n → s.mem 0 = fibWord n → Trace n (6 + 6 * n) s
  | check {s} : s.pc = 48 → s.regs.x 1 = fibWord n → s.regs.x 6 = fibWord n → s.mem 0 = fibWord n →
      Trace n (7 + 6 * n) s
  | halt {s} (k : ℕ) : 8 + 6 * n ≤ k → s.pc = 56 → s.regs.x 1 = fibWord n → s.regs.x 6 = fibWord n →
      s.mem 0 = fibWord n → Trace n k s

section Step

variable {n k : ℕ} {ws : List Word} {m : Mem} {s : State Mem}

/-- The word that the specification fetches. -/
theorem Loaded.fetch (h : Loaded ws m) {j : ℕ} {w : Word} (hw : ws[j]? = some w)
    (hpc : s.pc = BitVec.ofNat 32 (4 * j)) : m (wordAddr s.pc) = w := by
  obtain ⟨hlt, rfl⟩ := List.getElem?_eq_some_iff.mp hw
  have haddr : wordAddr s.pc = BitVec.ofNat 10 j := by
    unfold wordAddr
    rw [hpc]
    apply BitVec.eq_of_toNat_eq
    simp only [BitVec.toNat_setWidth, BitVec.toNat_ushiftRight, BitVec.toNat_ofNat, Nat.shiftRight_eq_div_pow]
    omega
  rw [haddr]
  exact h j hlt

theorem fits_ofNat (hn : n ≤ 2047) : Fits (BitVec.ofNat 32 n) 12 := by
  have hnat : (BitVec.ofNat 32 n).toNat = n := by
    rw [BitVec.toNat_ofNat]
    omega
  unfold Fits
  rw [BitVec.toInt_eq_toNat_of_lt (by omega), hnat]
  omega

theorem ofNat_inj {i : ℕ} (hn : n ≤ 2047) (hi : i ≤ n) (h : BitVec.ofNat 32 i = BitVec.ofNat 32 n) : i = n := by
  have := congrArg BitVec.toNat h
  rw [BitVec.toNat_ofNat, BitVec.toNat_ofNat] at this
  omega

/-- `s'` is `s` behind an instruction that has written `v` to register `d`. -/
structure Writes (d : RegIdx) (v : Word) (s s' : State Mem) : Prop where
  pc : s'.pc = s.pc + 4
  self : s'.regs.x d = v
  other : ∀ r, r ≠ d → s'.regs.x r = s.regs.x r
  mem : s'.mem = s.mem

theorem writes_set {d : RegIdx} (hd : d ≠ 0) (v : Word) :
    Writes d v s { s with regs := s.regs.set d v, pc := s.pc + 4 } where
  pc := rfl
  self := set_self _ hd _
  other _ hr := set_ne _ hr _
  mem := rfl

theorem Writes.keep {d r : RegIdx} {u v : Word} {s' : State Mem} (h : Writes d v s s') (hr : r ≠ d)
    (hx : s.regs.x r = u) : s'.regs.x r = u := (h.other r hr).trans hx

/-- A write next to the counting registers keeps the count. -/
theorem Writes.counts {d : RegIdx} {v : Word} {s' : State Mem} {i : ℕ} (h : Writes d v s s') (h3 : 3 ≠ d) (h4 : 4 ≠ d)
    (hc : Counts n i s) : Counts n i s' where
  last := h.keep h3 hc.last
  count := h.keep h4 hc.count

section Fetched

variable {j : ℕ} {d r1 r2 : RegIdx} {imm : Word}

theorem Loaded.addi (hload : Loaded ws m) (hw : ws[j]? = some (Isa.addi (arg d) (arg r1) imm))
    (hpc : s.pc = BitVec.ofNat 32 (4 * j)) (hd : d ≠ 0) (himm : Fits imm 12) :
    ∃ s', specStep (m, s) = some (m, s') ∧ Writes d (s.regs.x r1 + imm) s s' :=
  ⟨_, specStep_addi himm (hload.fetch hw hpc), writes_set hd _⟩

/-- `addi d x0 imm` -/
theorem Loaded.load_imm (hload : Loaded ws m) (hw : ws[j]? = some (Isa.addi (arg d) (arg 0) imm))
    (hpc : s.pc = BitVec.ofNat 32 (4 * j)) (hd : d ≠ 0) (himm : Fits imm 12) :
    ∃ s', specStep (m, s) = some (m, s') ∧ Writes d imm s s' := by
  have h := hload.addi hw hpc hd himm
  rwa [s.regs.zero, show 0 + imm = imm from BitVec.zero_add imm] at h

theorem Loaded.add (hload : Loaded ws m) (hw : ws[j]? = some (Isa.add (arg d) (arg r1) (arg r2)))
    (hpc : s.pc = BitVec.ofNat 32 (4 * j)) (hd : d ≠ 0) :
    ∃ s', specStep (m, s) = some (m, s') ∧ Writes d (s.regs.x r1 + s.regs.x r2) s s' :=
  ⟨_, specStep_add (hload.fetch hw hpc), writes_set hd _⟩

/-- `add d r1 x0` -/
theorem Loaded.move (hload : Loaded ws m) (hw : ws[j]? = some (Isa.add (arg d) (arg r1) (arg 0)))
    (hpc : s.pc = BitVec.ofNat 32 (4 * j)) (hd : d ≠ 0) :
    ∃ s', specStep (m, s) = some (m, s') ∧ Writes d (s.regs.x r1) s s' := by
  have h := hload.add hw hpc hd
  rwa [s.regs.zero, show s.regs.x r1 + 0 = s.regs.x r1 from BitVec.add_zero _] at h

theorem Loaded.lw (hload : Loaded ws m) (hw : ws[j]? = some (Isa.lw (arg d) (arg r1) imm))
    (hpc : s.pc = BitVec.ofNat 32 (4 * j)) (hd : d ≠ 0) (himm : Fits imm 12) :
    ∃ s', specStep (m, s) = some (m, s') ∧ Writes d (s.mem (wordAddr (s.regs.x r1 + imm))) s s' :=
  ⟨_, specStep_lw himm (hload.fetch hw hpc), writes_set hd _⟩

theorem Loaded.beq (hload : Loaded ws m) {w : Word} (hw : ws[j]? = some w)
    (hbeq : Isa.beq (arg r1) (arg r2) imm = .ok w) (hpc : s.pc = BitVec.ofNat 32 (4 * j)) (himm : Fits imm 13)
    (heven : imm &&& 1 = 0) :
    specStep (m, s) = some (m, { s with pc := if s.regs.x r1 = s.regs.x r2 then s.pc + imm else s.pc + 4 }) :=
  specStep_beq himm heven ((congrArg Except.ok (hload.fetch hw hpc)).trans hbeq.symm)

end Fetched

/-- **One cycle of the program.** -/
theorem Trace.step (hn : n ≤ 2047) (hload : Loaded (fibonacciWords (BitVec.ofNat 32 n)) m) (h : Trace n k s) :
    ∃ s', specStep (m, s) = some (m, s') ∧ Trace n (k + 1) s' := by
  cases h with
  | start hpc =>
    obtain ⟨s', hstep, hwr⟩ := @Loaded.load_imm _ m s 0 1 0 hload rfl hpc (by decide) (by decide)
    exact ⟨s', hstep, .first (by simp [hwr.pc, hpc]) hwr.self⟩
  | first hpc h1 =>
    obtain ⟨s', hstep, hwr⟩ := @Loaded.load_imm _ m s 1 2 1 hload rfl hpc (by decide) (by decide)
    exact ⟨s', hstep, .second (by simp [hwr.pc, hpc]) (hwr.keep (by decide) h1) hwr.self⟩
  | second hpc h1 h2 =>
    obtain ⟨s', hstep, hwr⟩ :=
      @Loaded.load_imm _ m s 2 3 (BitVec.ofNat 32 n) hload rfl hpc (by decide) (fits_ofNat hn)
    exact ⟨s', hstep, .last (by simp [hwr.pc, hpc]) (hwr.keep (by decide) h1)
      (hwr.keep (by decide) h2) hwr.self⟩
  | last hpc h1 h2 h3 =>
    obtain ⟨s', hstep, hwr⟩ := @Loaded.load_imm _ m s 3 4 0 hload rfl hpc (by decide) (by decide)
    have hc : Counts n 0 s' := ⟨hwr.keep (by decide) h3, hwr.self⟩
    exact ⟨s', hstep, .head 0 (Nat.zero_le n) (by simp [hwr.pc, hpc]) (hwr.keep (by decide) h1)
      (hwr.keep (by decide) h2) hc⟩
  | head i hi hpc h1 h2 hc =>
    refine ⟨_, @Loaded.beq _ m s 4 4 3 24 hload _ rfl rfl hpc (by decide) (by decide), ?_⟩
    have hk : 4 + 6 * i + 1 = 5 + 6 * i := by omega
    rw [hk]
    rcases Nat.lt_or_eq_of_le hi with hlt | rfl
    · -- one more round
      have hne : s.regs.x 4 ≠ s.regs.x 3 := by
        rw [hc.count, hc.last]
        exact fun heq => absurd (ofNat_inj hn hi heq) (by omega)
      rw [if_neg hne]
      exact .sum i hlt (by simp [hpc]) h1 h2 ⟨hc.last, hc.count⟩
    · rw [if_pos (hc.count.trans hc.last.symm)]
      exact .store (by simp [hpc]) h1
  | sum i hi hpc h1 h2 hc =>
    obtain ⟨s', hstep, hwr⟩ := @Loaded.add _ m s 5 5 1 2 hload rfl hpc (by decide)
    have hk : 5 + 6 * i + 1 = 6 + 6 * i := by omega
    have h5 : s'.regs.x 5 = fibWord (i + 2) := by rw [hwr.self, h1, h2, fibWord_add]
    rw [hk]
    exact ⟨s', hstep, .shift i hi (by simp [hwr.pc, hpc]) (hwr.keep (by decide) h2) h5
      (hwr.counts (by decide) (by decide) hc)⟩
  | shift i hi hpc h2 h5 hc =>
    obtain ⟨s', hstep, hwr⟩ := @Loaded.move _ m s 6 1 2 hload rfl hpc (by decide)
    have hk : 6 + 6 * i + 1 = 7 + 6 * i := by omega
    rw [hk]
    exact ⟨s', hstep, .shift' i hi (by simp [hwr.pc, hpc]) (hwr.self.trans h2) (hwr.keep (by decide) h5)
      (hwr.counts (by decide) (by decide) hc)⟩
  | shift' i hi hpc h1 h5 hc =>
    obtain ⟨s', hstep, hwr⟩ := @Loaded.move _ m s 7 2 5 hload rfl hpc (by decide)
    have hk : 7 + 6 * i + 1 = 8 + 6 * i := by omega
    rw [hk]
    exact ⟨s', hstep, .incr i hi (by simp [hwr.pc, hpc]) (hwr.keep (by decide) h1) (hwr.self.trans h5)
      (hwr.counts (by decide) (by decide) hc)⟩
  | incr i hi hpc h1 h2 hc =>
    obtain ⟨s', hstep, hwr⟩ := @Loaded.addi _ m s 8 4 4 1 hload rfl hpc (by decide) (by decide)
    have hk : 8 + 6 * i + 1 = 9 + 6 * i := by omega
    have h4 : s'.regs.x 4 = BitVec.ofNat 32 (i + 1) := by
      rw [hwr.self, hc.count, BitVec.ofNat_add]
      rfl
    rw [hk]
    exact ⟨s', hstep, .back i hi (by simp [hwr.pc, hpc]) (hwr.keep (by decide) h1)
      (hwr.keep (by decide) h2) ⟨hwr.keep (by decide) hc.last, h4⟩⟩
  | back i hi hpc h1 h2 hc =>
    refine ⟨_, @Loaded.beq _ m s 9 0 0 (-20) hload _ rfl rfl hpc (by decide) (by decide), ?_⟩
    have hk : 9 + 6 * i + 1 = 4 + 6 * (i + 1) := by omega
    rw [if_pos rfl, hk]
    exact .head (i + 1) hi (by simp [hpc]) h1 h2 ⟨hc.last, hc.count⟩
  | store hpc h1 =>
    have hw : m (wordAddr s.pc) = Isa.sw (arg 1) (arg 0) 0 := @Loaded.fetch _ m s hload 10 _ rfl hpc
    have hk : 5 + 6 * n + 1 = 6 + 6 * n := by omega
    rw [hk]
    refine ⟨_, specStep_sw (by decide) hw, .load ?_ h1 ?_⟩
    · simp [hpc]
    · rw [s.regs.zero, show wordAddr (0 + 0) = 0 from rfl]
      show (if (0 : BitVec 10) = 0 then s.regs.x 1 else s.mem 0) = fibWord n
      rw [if_pos rfl, h1]
  | load hpc h1 hmem =>
    obtain ⟨s', hstep, hwr⟩ := @Loaded.lw _ m s 11 6 0 0 hload rfl hpc (by decide) (by decide)
    have hk : 6 + 6 * n + 1 = 7 + 6 * n := by omega
    have h6 : s'.regs.x 6 = fibWord n := by
      rw [hwr.self, s.regs.zero, show wordAddr (0 + 0) = 0 from rfl, hmem]
    rw [hk]
    exact ⟨s', hstep, .check (by simp [hwr.pc, hpc]) (hwr.keep (by decide) h1) h6
      ((congrFun hwr.mem 0).trans hmem)⟩
  | check hpc h1 h6 hmem =>
    refine ⟨_, @Loaded.beq _ m s 12 6 1 8 hload _ rfl rfl hpc (by decide) (by decide), ?_⟩
    rw [if_pos (h6.trans h1.symm)]
    exact .halt _ (by omega) (by simp [hpc]) h1 h6 hmem
  | halt k hk hpc h1 h6 hmem =>
    refine ⟨_, @Loaded.beq _ m s 14 6 1 0 hload _ rfl rfl hpc (by decide) (by decide), ?_⟩
    rw [if_pos (h6.trans h1.symm)]
    exact .halt _ (by omega) (by simp [hpc]) h1 h6 hmem

end Step

/-! ## The run -/

variable {n : ℕ} {t : TopState} {ins : List TopIn}

/-- No external write. -/
def TopIn.Off (i : TopIn) : Prop := i.instWriteEn = false ∧ i.dataWriteEn = false

/-- A specified step on a supported word is one the core makes. -/
theorem cycle_of_specStep {i : TopIn} {t : TopState} {p : Mem × State Mem} (hi : i.Off)
    (h : specStep (arch t) = some p) : arch (cycle i t) = p := by
  have hsup : Supported (t.memInst (wordAddr t.regPC)) := by
    obtain ⟨op, hfind, -⟩ := Option.map_eq_some_iff.mp h
    have henc := List.find?_some hfind
    exact ⟨op, List.mem_of_find?_eq_some hfind, of_decide_eq_true henc⟩
  have := top_follows i t ⟨hi.1, hi.2, hsup⟩
  exact Option.some.inj (this.symm.trans h)

/-- The core follows the trace, and its instruction memory stays. -/
theorem trace_run (hn : n ≤ 2047) {k : ℕ} (hload : Loaded (fibonacciWords (BitVec.ofNat 32 n)) t.memInst)
    (h : Trace n k (arch t).2) (hext : ∀ i ∈ ins, i.Off) :
    Trace n (k + ins.length) (arch (Lockstep.run cycle ins t)).2 ∧
      (Lockstep.run cycle ins t).memInst = t.memInst := by
  induction ins generalizing t k with
  | nil => exact ⟨h, rfl⟩
  | cons i ins ih =>
    obtain ⟨s', hstep, htrace⟩ := h.step hn hload
    have hcycle : arch (cycle i t) = (t.memInst, s') := cycle_of_specStep (hext i List.mem_cons_self) hstep
    have hmem : (cycle i t).memInst = t.memInst := congrArg Prod.fst hcycle
    have hstate : (arch (cycle i t)).2 = s' := congrArg Prod.snd hcycle
    obtain ⟨hrun, hkept⟩ := @ih (cycle i t) (k + 1) (hmem.symm ▸ hload) (hstate.symm ▸ htrace)
      fun j hj => hext j (List.mem_cons_of_mem _ hj)
    refine ⟨?_, hkept.trans hmem⟩
    rwa [List.length_cons, Nat.add_comm ins.length 1, ← Nat.add_assoc]

theorem Trace.ne_fail {k : ℕ} {s : State Mem} (h : Trace n k s) : s.pc ≠ 52 := by
  intro hpc
  cases h <;> simp_all

/-- Before its last cycle the trace is not at the end. -/
theorem Trace.ne_halt {k : ℕ} {s : State Mem} (h : Trace n k s) (hk : k < 6 * n + 8) : s.pc ≠ 56 := by
  intro hpc
  cases h
  case halt => omega
  all_goals simp_all

/-- At its last cycle it is. -/
theorem Trace.at_halt {s : State Mem} (h : Trace n (6 * n + 8) s) :
    s.pc = 56 ∧ s.regs.x 1 = fibWord n ∧ s.regs.x 6 = fibWord n ∧ s.mem 0 = fibWord n := by
  generalize hk : 6 * n + 8 = k at h
  cases h
  case halt hle hpc h1 h6 hmem => exact ⟨hpc, h1, h6, hmem⟩
  all_goals omega

/-- What a `beq` shows at the outputs. -/
theorem out_beq {i : TopIn} (h : Decoder.wires (inst i t) = control .beq) :
    (out i t).ctrlBranchToPc = true ∧ (out i t).resultBranch = ((out i t).rs1 == (out i t).rs2) := by
  have hctrl : (aluIn i t).bundleAluControl =
      { ctrlALUSrc := false, ctrlJump := false, ctrlJAL := false, ctrlOP := opEq, ctrlBranch := true } := by
    show ({ ctrlALUSrc := (Decoder.wires (inst i t)).ctrlALUSrc, ctrlJump := (Decoder.wires (inst i t)).ctrlJump,
            ctrlJAL := (Decoder.wires (inst i t)).ctrlJAL, ctrlOP := (Decoder.wires (inst i t)).ctrlOP,
            ctrlBranch := (Decoder.wires (inst i t)).ctrlBranch } : BundleAluControl) = _
    rw [h]
    rfl
  constructor
  · show (Decoder.wires (inst i t)).ctrlBranch = true
    rw [h]
    rfl
  · show Alu.resultBranch (aluIn i t) = _
    unfold Alu.resultBranch Alu.operand1 Alu.operand2
    rw [hctrl]
    rfl

/-- **The Fibonacci program on the core**, from pc 0 with any registers and any data: after `6 * n + 8` cycles, and
not before, it is at pc 56, with its branch taken on the Fibonacci number of `n` modulo `2 ^ 32`, which is also in
the data memory; it is never at pc 52. -/
theorem fib_run (hn : n ≤ 2047) (hload : Loaded (fibonacciWords (BitVec.ofNat 32 n)) t.memInst) (hpc : t.regPC = 0)
    (hext : ∀ i ∈ ins, i.Off) :
    (Lockstep.run cycle ins t).regPC ≠ 52 ∧
    (ins.length < 6 * n + 8 → (Lockstep.run cycle ins t).regPC ≠ 56) ∧
    (ins.length = 6 * n + 8 →
      (Lockstep.run cycle ins t).regPC = 56 ∧
      (Lockstep.run cycle ins t).memData 0 = BitVec.ofNat 32 (Nat.fib n) ∧
      ∀ i, (out i (Lockstep.run cycle ins t)).ctrlBranchToPc = true ∧
        (out i (Lockstep.run cycle ins t)).resultBranch = true ∧
        (out i (Lockstep.run cycle ins t)).rs1 = BitVec.ofNat 32 (Nat.fib n) ∧
        (out i (Lockstep.run cycle ins t)).rs2 = BitVec.ofNat 32 (Nat.fib n)) := by
  obtain ⟨htrace, hkept⟩ := @trace_run n t ins hn 0 hload (.start hpc) hext
  rw [Nat.zero_add] at htrace
  refine ⟨htrace.ne_fail, htrace.ne_halt, fun hlen => ?_⟩
  rw [hlen] at htrace
  obtain ⟨hpc', h1, h6, hmem⟩ := htrace.at_halt
  refine ⟨hpc', hmem, fun i => ?_⟩
  -- the last instruction of the program
  have hinst : inst i (Lockstep.run cycle ins t) = 0x00130063 := by
    show (Lockstep.run cycle ins t).memInst (wordAddr (Lockstep.run cycle ins t).regPC) = _
    rw [hkept]
    exact @Loaded.fetch _ t.memInst (arch (Lockstep.run cycle ins t)).2 hload 14 _ rfl hpc'
  have hrs1 : (out i (Lockstep.run cycle ins t)).rs1 = fibWord n := by
    show Registers.dataRead _ ((inst i (Lockstep.run cycle ins t)).extractLsb' 15 5) = _
    rw [hinst]
    exact h6
  have hrs2 : (out i (Lockstep.run cycle ins t)).rs2 = fibWord n := by
    show Registers.dataRead _ ((inst i (Lockstep.run cycle ins t)).extractLsb' 20 5) = _
    rw [hinst]
    exact h1
  obtain ⟨hbranch, hresult⟩ := out_beq (show Decoder.wires (inst i (Lockstep.run cycle ins t)) = control .beq by
    rw [hinst]
    rfl)
  refine ⟨hbranch, ?_, hrs1, hrs2⟩
  rw [hresult, hrs1, hrs2]
  exact beq_self_eq_true _

/-- The core with the program that counts to 3 in its instruction memory. -/
def countToThree : TopState where
  regPC := 0
  regs := fun _ => 7
  memInst := fun a => (fibonacciWords 3).getD a.toNat 0
  memData := fun _ => 9

theorem fib_run_three : (Lockstep.run cycle (List.replicate 26 quiet) countToThree).regPC = 56 ∧
    (Lockstep.run cycle (List.replicate 26 quiet) countToThree).memData 0 = 2 := by
  have hload : Loaded (fibonacciWords 3) countToThree.memInst := by
    intro j hj
    have hlen : (fibonacciWords 3).length = 15 := rfl
    show (fibonacciWords 3).getD (BitVec.ofNat 10 j).toNat 0 = _
    rw [BitVec.toNat_ofNat, Nat.mod_eq_of_lt (by omega), List.getD_eq_getElem _ _ hj]
  have hquiet : ∀ i ∈ List.replicate 26 quiet, i.Off := by
    intro i hi
    rw [List.eq_of_mem_replicate hi]
    exact ⟨rfl, rfl⟩
  obtain ⟨hpc, hmem, -⟩ := (@fib_run 3 countToThree _ (by decide) hload rfl hquiet).2.2 rfl
  exact ⟨hpc, hmem⟩

end Chisel
