import Rv32i.Isa.Machine

/-!
# Assembly code

Lines with labels, the instructions they assemble to, and the rules that run a loaded program line by line.

* `assemble` — labels become offsets; `addr_label` says that such an offset leads to the label;
* `Inside prog base mem` — the machine is at an instruction of the program, and a jump by register goes to an even
  address;
* `run_reg`, …, `run_jr` — **one rule for each kind of instruction**: what is reached from the state after it is
  reached from the state before it.
-/

namespace Rv32

/-! ## Labels -/

/-- A line of assembly code. -/
inductive Line (L : Type)
  | label (l : L)
  | instr (i : Instr)
  | branch (op : Mnemonic) (r1 r2 : RegIdx) (l : L)
  | jal (d : RegIdx) (l : L)

/-- The number of instructions before a label. -/
def labelPos {L : Type} [DecidableEq L] (l : L) : List (Line L) → ℕ
  | [] => 0
  | .label l' :: rest => if l' = l then 0 else labelPos l rest
  | _ :: rest => labelPos l rest + 1

/-- The offset, in half words, from instruction `i` to instruction `t`. -/
def offsetTo (w i t : ℕ) : BitVec w := BitVec.ofInt w (2 * ((t : ℤ) - i))

def assembleFrom {L : Type} (pos : L → ℕ) : ℕ → List (Line L) → List Instr
  | _, [] => []
  | i, .label _ :: rest => assembleFrom pos i rest
  | i, .instr ins :: rest => ins :: assembleFrom pos (i + 1) rest
  | i, .branch op r1 r2 l :: rest => .branch op r1 r2 (offsetTo 12 i (pos l)) :: assembleFrom pos (i + 1) rest
  | i, .jal d l :: rest => .jal d (offsetTo 20 i (pos l)) :: assembleFrom pos (i + 1) rest

def assemble {L : Type} [DecidableEq L] (lines : List (Line L)) : List Instr :=
  assembleFrom (fun l => labelPos l lines) 0 lines

/-! ## Registers and pseudo-instructions -/

def zero : RegIdx := 0
def ra : RegIdx := 1
def t0 : RegIdx := 5
def a0 : RegIdx := 10
def a1 : RegIdx := 11
def a2 : RegIdx := 12
def a3 : RegIdx := 13

section Pseudo

variable {L : Type}

def mv (d r : RegIdx) : Line L := .instr (.imm .addi d r 0)
def li (d : RegIdx) (c : BitVec 12) : Line L := .instr (.imm .addi d zero c)
def neg (d r : RegIdx) : Line L := .instr (.reg .sub d zero r)
def jr (r : RegIdx) : Line L := .instr (.jalr zero r 0)
def ret : Line L := jr ra
def j (l : L) : Line L := .jal zero l
/-- A call, as the linker leaves it when the callee is near. -/
def call (l : L) : Line L := .jal ra l
def beqz (r : RegIdx) (l : L) : Line L := .branch .beq r zero l
def bnez (r : RegIdx) (l : L) : Line L := .branch .bne r zero l
def bltz (r : RegIdx) (l : L) : Line L := .branch .blt r zero l
def bgez (r : RegIdx) (l : L) : Line L := .branch .bge r zero l
def blez (r : RegIdx) (l : L) : Line L := .branch .bge zero r l
def bgtz (r : RegIdx) (l : L) : Line L := .branch .blt zero r l
def bgtu (r1 r2 : RegIdx) (l : L) : Line L := .branch .bltu r2 r1 l

end Pseudo

theorem x_zero (f : RegFile) : f.x zero = 0 := f.zero

/-- Registers outside `rs` are as before. -/
def Keeps (rs : List RegIdx) (f f' : RegFile) : Prop := ∀ q, q ∉ rs → f'.x q = f.x q

section Keeps

variable {rs : List RegIdx} {f f' f'' : RegFile}

theorem Keeps.refl (rs : List RegIdx) (f : RegFile) : Keeps rs f f := fun _ _ => rfl

theorem Keeps.trans (h : Keeps rs f f') (h' : Keeps rs f' f'') : Keeps rs f f'' :=
  fun q hq => (h' q hq).trans (h q hq)

theorem Keeps.set (h : Keeps rs f f') {d : RegIdx} (hd : d ∈ rs) (v : Word) : Keeps rs f (f'.set d v) := by
  intro q hq
  have hne : q ≠ d := by
    rintro rfl
    exact hq hd
  rw [set_ne _ hne]
  exact h q hq

theorem Keeps.mono {rs' : List RegIdx} (h : Keeps rs f f') (hsub : ∀ q ∈ rs, q ∈ rs') : Keeps rs' f f' :=
  fun q hq => h q fun hmem => hq (hsub q hmem)

end Keeps

/-! ## Addresses -/

theorem addr_succ (base : Word) (i : ℕ) : addr base i + 4 = addr base (i + 1) := by
  unfold addr
  rw [BitVec.add_assoc, show (4 : Word) = BitVec.ofNat 32 4 from rfl, ← BitVec.ofNat_add]
  congr 2

theorem addr_even {base : Word} (hbase : base.getLsbD 0 = false) (i : ℕ) : (addr base i).getLsbD 0 = false := by
  rw [← BitVec.testBit_toNat, Nat.testBit_zero] at hbase ⊢
  have heven := of_decide_eq_false hbase
  apply decide_eq_false
  unfold addr
  rw [BitVec.toNat_add, BitVec.toNat_ofNat]
  omega

/-- An offset in half words, in bytes. -/
theorem signExtend_append_zero {w : ℕ} (hw : w < 32) (x : BitVec w) :
    (x ++ 0#1).signExtend 32 = BitVec.ofInt 32 (2 * x.toInt) := by
  have hself := BitVec.ofInt_toInt (x := (x ++ 0#1).signExtend 32)
  rw [BitVec.toInt_signExtend_of_le (by omega), BitVec.toInt_append_zero, pow_one] at hself
  exact hself.symm

/-- **The offset to a label leads to it.** -/
theorem addr_label (base : Word) {w i t : ℕ} (hw : w + 1 < 32) (h1 : -2 ^ w ≤ 2 * ((t : ℤ) - i))
    (h2 : 2 * ((t : ℤ) - i) < 2 ^ w) :
    addr base i + (offsetTo (w + 1) i t ++ 0#1).signExtend 32 = addr base t := by
  have hint : (offsetTo (w + 1) i t).toInt = 2 * ((t : ℤ) - i) := by
    unfold offsetTo
    rw [BitVec.toInt_ofInt_eq_self (by omega) h1 h2]
  have hsum : BitVec.ofNat 32 (4 * i) + BitVec.ofInt 32 (2 * (2 * ((t : ℤ) - i))) = BitVec.ofNat 32 (4 * t) := by
    rw [← BitVec.ofInt_natCast, ← BitVec.ofInt_natCast, ← BitVec.ofInt_add]
    congr 1
    push_cast
    ring
  unfold addr
  rw [signExtend_append_zero hw, hint, BitVec.add_assoc, hsum]

/-! ## Running a loaded program -/

/-- The machine is at an instruction of the program; an address to jump to is even. -/
structure Inside (prog : List Instr) (base : Word) (mem : Word → Byte) (s : MachineState) : Prop where
  mem_eq : s.mem = mem
  at_instr : ∃ i ins, prog[i]? = some ins ∧ s.pc = addr base i ∧
    ∀ d r1 c, ins = .jalr d r1 c → (s.regs.x r1 + c.signExtend 32).getLsbD 0 = false

section Rules

variable {prog : List Instr} {base : Word} {mem : Word → Byte} {i : ℕ} {f : RegFile} {s' : MachineState}

/-- One instruction, then the rest of the run. -/
theorem run_instr {ins : Instr} (hload : Loaded prog base mem) (hget : prog[i]? = some ins)
    (heven : ∀ d r1 c, ins = .jalr d r1 c → (f.x r1 + c.signExtend 32).getLsbD 0 = false)
    (hrun : Reaches (Inside prog base mem) (ins.exec ⟨f, addr base i, mem⟩) s') :
    Reaches (Inside prog base mem) ⟨f, addr base i, mem⟩ s' :=
  .step ⟨rfl, i, ins, hget, rfl, heven⟩ (next_loaded hload hget rfl) hrun

theorem run_reg {op : Mnemonic} {d r1 r2 : RegIdx} (hload : Loaded prog base mem)
    (hget : prog[i]? = some (.reg op d r1 r2))
    (hrun : Reaches (Inside prog base mem) ⟨f.set d (regResult op (f.x r1) (f.x r2)), addr base (i + 1), mem⟩ s') :
    Reaches (Inside prog base mem) ⟨f, addr base i, mem⟩ s' := by
  refine run_instr hload hget (by rintro _ _ _ ⟨⟩) ?_
  rw [← addr_succ] at hrun
  exact hrun

theorem run_imm {op : Mnemonic} {d r1 : RegIdx} {c : BitVec 12} (hload : Loaded prog base mem)
    (hget : prog[i]? = some (.imm op d r1 c))
    (hrun : Reaches (Inside prog base mem)
      ⟨f.set d (regResult op (f.x r1) (c.signExtend 32)), addr base (i + 1), mem⟩ s') :
    Reaches (Inside prog base mem) ⟨f, addr base i, mem⟩ s' := by
  refine run_instr hload hget (by rintro _ _ _ ⟨⟩) ?_
  rw [← addr_succ] at hrun
  exact hrun

theorem run_shift {op : Mnemonic} {d r1 : RegIdx} {c : BitVec 5} (hload : Loaded prog base mem)
    (hget : prog[i]? = some (.shift op d r1 c))
    (hrun : Reaches (Inside prog base mem)
      ⟨f.set d (regResult op (f.x r1) (c.setWidth 32)), addr base (i + 1), mem⟩ s') :
    Reaches (Inside prog base mem) ⟨f, addr base i, mem⟩ s' := by
  refine run_instr hload hget (by rintro _ _ _ ⟨⟩) ?_
  rw [← addr_succ] at hrun
  exact hrun

theorem exec_branch {op : Mnemonic} {r1 r2 : RegIdx} {t : ℕ} (ht : t < 512) (hi : i < 512) :
    (Instr.branch op r1 r2 (offsetTo 12 i t)).exec ⟨f, addr base i, mem⟩ =
      ⟨f, addr base (if taken op (f.x r1) (f.x r2) then t else i + 1), mem⟩ := by
  unfold Instr.exec
  dsimp only
  rw [addr_label base (w := 11) (by omega) (by omega) (by omega), addr_succ]
  split <;> rfl

/-- A branch that is taken, to instruction `t`. -/
theorem run_taken {op : Mnemonic} {r1 r2 : RegIdx} {t : ℕ} (hload : Loaded prog base mem)
    (hget : prog[i]? = some (.branch op r1 r2 (offsetTo 12 i t))) (ht : t < 512) (hi : i < 512)
    (htaken : taken op (f.x r1) (f.x r2) = true)
    (hrun : Reaches (Inside prog base mem) ⟨f, addr base t, mem⟩ s') :
    Reaches (Inside prog base mem) ⟨f, addr base i, mem⟩ s' := by
  refine run_instr hload hget (by rintro _ _ _ ⟨⟩) ?_
  rw [exec_branch ht hi, if_pos htaken]
  exact hrun

/-- A branch that is not taken. -/
theorem run_untaken {op : Mnemonic} {r1 r2 : RegIdx} {t : ℕ} (hload : Loaded prog base mem)
    (hget : prog[i]? = some (.branch op r1 r2 (offsetTo 12 i t))) (ht : t < 512) (hi : i < 512)
    (htaken : taken op (f.x r1) (f.x r2) = false)
    (hrun : Reaches (Inside prog base mem) ⟨f, addr base (i + 1), mem⟩ s') :
    Reaches (Inside prog base mem) ⟨f, addr base i, mem⟩ s' := by
  refine run_instr hload hget (by rintro _ _ _ ⟨⟩) ?_
  rw [exec_branch ht hi, if_neg (by rw [htaken]; decide)]
  exact hrun

/-- A jump to instruction `t`. -/
theorem run_jal {d : RegIdx} {t : ℕ} (hload : Loaded prog base mem)
    (hget : prog[i]? = some (.jal d (offsetTo 20 i t))) (ht : t < 512) (hi : i < 512)
    (hrun : Reaches (Inside prog base mem) ⟨f.set d (addr base (i + 1)), addr base t, mem⟩ s') :
    Reaches (Inside prog base mem) ⟨f, addr base i, mem⟩ s' := by
  refine run_instr hload hget (by rintro _ _ _ ⟨⟩) ?_
  have hexec : (Instr.jal d (offsetTo 20 i t)).exec ⟨f, addr base i, mem⟩ =
      ⟨f.set d (addr base (i + 1)), addr base t, mem⟩ := by
    unfold Instr.exec
    dsimp only
    rw [addr_label base (w := 19) (by omega) (by omega) (by omega), addr_succ]
  rw [hexec]
  exact hrun

/-- Clearing bit 0 leaves an even address. -/
theorem clear_bit0 {a : Word} (h : a.getLsbD 0 = false) : a &&& ~~~1#32 = a := by
  apply BitVec.eq_of_getLsbD_eq
  intro i hi
  rw [BitVec.getLsbD_and, BitVec.getLsbD_not, BitVec.getLsbD_one]
  by_cases h0 : i = 0
  · subst h0
    rw [h]
    rfl
  · simp [hi, h0]

/-- A jump to an even address in a register, without a link. -/
theorem run_jr {r : RegIdx} (hload : Loaded prog base mem) (hget : prog[i]? = some (.jalr 0 r 0))
    (heven : (f.x r).getLsbD 0 = false) :
    Reaches (Inside prog base mem) ⟨f, addr base i, mem⟩ ⟨f, f.x r, mem⟩ := by
  have hzero : f.x r + (0 : BitVec 12).signExtend 32 = f.x r := BitVec.add_zero _
  refine run_instr hload hget ?_ ?_
  · rintro _ _ _ ⟨⟩
    rw [hzero]
    exact heven
  · have hexec : (Instr.jalr 0 r 0).exec ⟨f, addr base i, mem⟩ = ⟨f, f.x r, mem⟩ := by
      unfold Instr.exec
      dsimp only
      rw [hzero, clear_bit0 heven, RegFile.set_zero]
    rw [hexec]
    exact .refl _

theorem mv_eq (x : Word) : regResult .addi x ((0 : BitVec 12).signExtend 32) = x := BitVec.add_zero x

theorem neg_eq (f : RegFile) (x : Word) : regResult .sub (f.x zero) x = -x := by
  rw [x_zero]
  exact BitVec.zero_sub x

theorem li_eq (f : RegFile) (c : BitVec 12) : regResult .addi (f.x zero) (c.signExtend 32) = c.signExtend 32 := by
  rw [x_zero]
  exact BitVec.zero_add _

end Rules

/-! ## Routines -/

/-- The routine at instruction `entry` returns to its caller with `value` of its arguments in `a0`, and no registers but
`scratch` have changed. -/
def Returns (prog : List Instr) (base : Word) (mem : Word → Byte) (scratch : List RegIdx) (entry : ℕ)
    (value : Word → Word → Word) : Prop :=
  ∀ f : RegFile, (f.x ra).getLsbD 0 = false →
    ∃ f', Reaches (Inside prog base mem) ⟨f, addr base entry, mem⟩ ⟨f', f.x ra, mem⟩ ∧
      f'.x a0 = value (f.x a0) (f.x a1) ∧ Keeps scratch f f'

/-! ## Images -/

/-- A memory with a program at `base` and nothing else. -/
def image (prog : List Instr) (base : Word) : Word → Byte := imageOf Instr.encode prog base

theorem image_loaded {prog : List Instr} (base : Word) (hlen : prog.length < 2 ^ 30) (hvalid : ∀ ins ∈ prog, ins.Valid) :
    Loaded prog base (image prog base) := fun _ ins hget =>
  ⟨hvalid ins (List.mem_of_getElem? hget), loadBytes_imageOf Instr.encode base hlen hget⟩

end Rv32
