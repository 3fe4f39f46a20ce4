import Mathlib.Data.List.Basic
import Rv32i.Isa.Assemble
import Rv32i.Isa.Step

/-!
# Programs on the machine

The machine runs what it has in memory: the word at `pc` is decoded and stepped.  A program is a list of instructions
that is loaded at some address.

* `next` — the step of the machine; there is none at a word that is no instruction and at an `ebreak`;
* `Reaches P`, `ReachesIn P n` — some number of steps, or exactly `n`, leads from one state to another, and before each
  of them `P` holds;
* `Instr`, `encode`, `exec` — the instructions that compute and jump, their words, and what they do;
* `next_loaded` — **a machine at an instruction of a loaded program executes it**.
-/

namespace Rv32

/-- The architectural state over the byte memory. -/
abbrev MachineState := State (Word → Byte)

/-! ## The step of the machine -/

def fetch (s : MachineState) : Word := loadBytes s.mem s.pc .word

def decode (w : Word) : Option Mnemonic := Mnemonic.all.find? fun op => decide (Encodes op w)

def next (s : MachineState) : Option MachineState :=
  match decode (fetch s) with
  | none | some .ebreak => none
  | some op => some (step byteMem op (fetch s) s)

theorem decode_of_encodes {op : Mnemonic} {w : Word} (h : Encodes op w) : decode w = some op := by
  unfold decode
  cases hfind : Mnemonic.all.find? fun op => decide (Encodes op w) with
  | none =>
    have := List.find?_eq_none.mp hfind op op.mem_all
    simp [h] at this
  | some op' =>
    have henc := List.find?_some hfind
    rw [Encodes.unique (of_decide_eq_true henc) h]

theorem next_of_encodes {op : Mnemonic} {s : MachineState} (h : Encodes op (fetch s)) (hne : op ≠ .ebreak) :
    next s = some (step byteMem op (fetch s) s) := by
  unfold next
  rw [decode_of_encodes h]
  cases op <;> first | exact absurd rfl hne | rfl

/-! ## Runs -/

/-- Steps of the machine lead from one state to the other, and before each of them `P` holds. -/
inductive Reaches (P : MachineState → Prop) : MachineState → MachineState → Prop
  | refl (s : MachineState) : Reaches P s s
  | step {s s₁ s' : MachineState} (hP : P s) (h : next s = some s₁) (hrun : Reaches P s₁ s') : Reaches P s s'

variable {P : MachineState → Prop} {s s₁ s' : MachineState}

theorem Reaches.single (hP : P s) (h : next s = some s') : Reaches P s s' := .step hP h (.refl s')

theorem Reaches.trans (h : Reaches P s s₁) (h' : Reaches P s₁ s') : Reaches P s s' := by
  induction h with
  | refl => exact h'
  | step hP hnext _ ih => exact .step hP hnext (ih h')

theorem Reaches.imp {Q : MachineState → Prop} (h : Reaches P s s') (hPQ : ∀ s, P s → Q s) : Reaches Q s s' := by
  induction h with
  | refl => exact .refl _
  | step hP hnext _ ih => exact .step (hPQ _ hP) hnext ih

/-- `n` such steps lead from one state to the other. -/
inductive ReachesIn (P : MachineState → Prop) : ℕ → MachineState → MachineState → Prop
  | refl (s : MachineState) : ReachesIn P 0 s s
  | step {n : ℕ} {s s₁ s' : MachineState} (hP : P s) (h : next s = some s₁) (hrun : ReachesIn P n s₁ s') :
      ReachesIn P (n + 1) s s'

theorem Reaches.counted (h : Reaches P s s') : ∃ n, ReachesIn P n s s' := by
  induction h with
  | refl s => exact ⟨0, .refl s⟩
  | step hP hnext _ ih =>
    obtain ⟨n, hrun⟩ := ih
    exact ⟨n + 1, .step hP hnext hrun⟩

/-! ## Instructions -/

/-- The instructions without a memory access. -/
inductive Instr
  | reg (op : Mnemonic) (d r1 r2 : RegIdx)
  | imm (op : Mnemonic) (d r1 : RegIdx) (c : BitVec 12)
  | shift (op : Mnemonic) (d r1 : RegIdx) (c : BitVec 5)
  | branch (op : Mnemonic) (r1 r2 : RegIdx) (offset : BitVec 12)
  | jal (d : RegIdx) (offset : BitVec 20)
  | jalr (d r1 : RegIdx) (c : BitVec 12)
  deriving DecidableEq, Repr

def Instr.op : Instr → Mnemonic
  | .reg op .. | .imm op .. | .shift op .. | .branch op .. => op
  | .jal .. => .jal
  | .jalr .. => .jalr

def Fixed.opcode : Fixed → BitVec 7
  | .op o | .op3 o _ | .op37 o _ _ => o
  | .whole v => Rv32.opcode v

def Fixed.funct3 : Fixed → BitVec 3
  | .op3 _ f3 | .op37 _ f3 _ => f3
  | .op _ | .whole _ => 0

def Fixed.funct7 : Fixed → BitVec 7
  | .op37 _ _ f7 => f7
  | .op _ | .op3 _ _ | .whole _ => 0

/-- The word of an instruction. -/
def Instr.encode : Instr → Word
  | .reg op d r1 r2 => encodeR op.fixed.funct7 r2 r1 op.fixed.funct3 d op.fixed.opcode
  | .imm op d r1 c => encodeI c r1 op.fixed.funct3 d op.fixed.opcode
  | .shift op d r1 c => encodeI (op.fixed.funct7 ++ c) r1 op.fixed.funct3 d op.fixed.opcode
  | .branch op r1 r2 offset => encodeB offset r2 r1 op.fixed.funct3 op.fixed.opcode
  | .jal d offset => encodeJ offset d Mnemonic.jal.fixed.opcode
  | .jalr d r1 c => encodeI c r1 Mnemonic.jalr.fixed.funct3 d Mnemonic.jalr.fixed.opcode

/-- The instruction of the mnemonic has this format. -/
def Instr.Valid : Instr → Prop
  | .reg op .. => op ∈ [.add, .sub, .sll, .slt, .sltu, .xor, .srl, .sra, .or, .and, .mul, .mulh, .div, .divu, .rem, .remu]
  | .imm op .. => op ∈ [.addi, .slti, .sltiu, .xori, .ori, .andi]
  | .shift op .. => op ∈ [.slli, .srli, .srai]
  | .branch op .. => op.kind = .branch
  | .jal .. | .jalr .. => True

instance (i : Instr) : Decidable i.Valid := by cases i <;> unfold Instr.Valid <;> infer_instance

/-- The register instruction that computes the same from two registers. -/
def Mnemonic.regForm : Mnemonic → Mnemonic
  | .addi => .add | .slti => .slt | .sltiu => .sltu | .xori => .xor | .ori => .or | .andi => .and
  | .slli => .sll | .srli => .srl | .srai => .sra
  | op => op

/-- The value of a register instruction, which does not depend on where it is. -/
def regResult (op : Mnemonic) (x1 x2 : Word) : Word := result op.regForm 0 0 x1 x2

/-- Write a register and go on. -/
def State.write {μ : Type} (s : State μ) (d : RegIdx) (v : Word) : State μ :=
  { s with regs := s.regs.set d v, pc := s.pc + 4 }

/-- What an instruction does. -/
def Instr.exec (i : Instr) (s : MachineState) : MachineState :=
  match i with
  | .reg op d r1 r2 => s.write d (regResult op (s.regs.x r1) (s.regs.x r2))
  | .imm op d r1 c => s.write d (regResult op (s.regs.x r1) (c.signExtend 32))
  | .shift op d r1 c => s.write d (regResult op (s.regs.x r1) (c.setWidth 32))
  | .branch op r1 r2 offset =>
    { s with pc := if taken op (s.regs.x r1) (s.regs.x r2) then s.pc + (offset ++ 0#1).signExtend 32 else s.pc + 4 }
  | .jal d offset => { s with regs := s.regs.set d (s.pc + 4), pc := s.pc + (offset ++ 0#1).signExtend 32 }
  | .jalr d r1 c => { s with regs := s.regs.set d (s.pc + 4), pc := (s.regs.x r1 + c.signExtend 32) &&& ~~~1#32 }

/-- The word of a shift is that of a register instruction with the amount in place of the second register. -/
theorem encode_shift (op : Mnemonic) (d r1 : RegIdx) (c : BitVec 5) :
    (Instr.shift op d r1 c).encode = encodeR op.fixed.funct7 c r1 op.fixed.funct3 d op.fixed.opcode := rfl

/-- The word of an instruction encodes its mnemonic. -/
theorem Instr.encodes {i : Instr} (h : i.Valid) : Encodes i.op i.encode := by
  cases i with
  | reg op d r1 r2 =>
    obtain ⟨h1, -, h3, -, -, h7⟩ := fieldsR op.fixed.funct7 op.fixed.opcode r1 r2 d op.fixed.funct3
    cases op <;> first | exact ⟨h1, h3, h7⟩ | simp [Instr.Valid] at h
  | imm op d r1 c =>
    obtain ⟨h1, -, h3, -, -⟩ := fieldsI op.fixed.opcode r1 d op.fixed.funct3 c
    cases op <;> first | exact ⟨h1, h3⟩ | simp [Instr.Valid] at h
  | shift op d r1 c =>
    obtain ⟨h1, -, h3, -, -, h7⟩ := fieldsR op.fixed.funct7 op.fixed.opcode r1 c d op.fixed.funct3
    cases op <;> first | exact ⟨h1, h3, h7⟩ | simp [Instr.Valid] at h
  | branch op r1 r2 offset =>
    obtain ⟨h1, h3, -⟩ := fieldsB op.fixed.opcode r1 r2 op.fixed.funct3 offset
    cases op <;> first | exact ⟨h1, h3⟩ | cases h
  | jal d offset => exact (fieldsJ _ d offset).1
  | jalr d r1 c =>
    obtain ⟨h1, -, h3, -, -⟩ := fieldsI Mnemonic.jalr.fixed.opcode r1 d Mnemonic.jalr.fixed.funct3 c
    exact ⟨h1, h3⟩

theorem Instr.op_ne_ebreak {i : Instr} (h : i.Valid) : i.op ≠ .ebreak := by
  cases i with
  | reg op d r1 r2 | imm op d r1 c | shift op d r1 c | branch op r1 r2 offset =>
    rintro (rfl : op = _)
    simp [Instr.Valid, Mnemonic.kind] at h
  | jal d offset | jalr d r1 c => rintro ⟨⟩

/-! ### The value of an instruction -/

section Values

variable {op : Mnemonic}

theorem Instr.Valid.reg_kind {d r1 r2 : RegIdx} (h : (Instr.reg op d r1 r2).Valid) :
    op.kind = .compute ∨ op.kind = .muldiv := by
  cases op <;> first | exact .inl rfl | exact .inr rfl | simp [Instr.Valid] at h

theorem Instr.Valid.imm_kind {d r1 : RegIdx} {c : BitVec 12} (h : (Instr.imm op d r1 c).Valid) :
    op.kind = .compute ∨ op.kind = .muldiv := by
  cases op <;> first | exact .inl rfl | simp [Instr.Valid] at h

theorem Instr.Valid.shift_kind {d r1 : RegIdx} {c : BitVec 5} (h : (Instr.shift op d r1 c).Valid) :
    op.kind = .compute ∨ op.kind = .muldiv := by
  cases op <;> first | exact .inl rfl | simp [Instr.Valid] at h

theorem result_reg {d r1 r2 : RegIdx} (h : (Instr.reg op d r1 r2).Valid) (w pc x1 x2 : Word) :
    result op w pc x1 x2 = regResult op x1 x2 := by
  cases op <;> first | rfl | simp [Instr.Valid] at h

theorem result_imm {d r1 : RegIdx} {c : BitVec 12} (h : (Instr.imm op d r1 c).Valid) (w pc x1 x2 : Word) :
    result op w pc x1 x2 = regResult op x1 (immI w) := by
  cases op <;> first | rfl | simp [Instr.Valid] at h

theorem result_shift {d r1 : RegIdx} {c : BitVec 5} (h : (Instr.shift op d r1 c).Valid) (w pc x1 x2 : Word) :
    result op w pc x1 x2 = regResult op x1 ((shamt w).setWidth 32) := by
  have hc : ((shamt w).setWidth 32).toNat % 32 = (shamt w).toNat := by
    have := (shamt w).isLt
    rw [BitVec.toNat_setWidth]
    omega
  cases op <;> first
    | (simp [Instr.Valid] at h; done)
    | simp only [result, regResult, Mnemonic.regForm, hc]

variable {μ : Type} (dm : DataMem μ) (w : Word) (s : State μ)

theorem step_result (h : op.kind = .compute ∨ op.kind = .muldiv) :
    step dm op w s = s.write (rd w) (result op w s.pc (s.regs.x (rs1 w)) (s.regs.x (rs2 w))) := by
  unfold step State.write
  rcases h with h | h <;> rw [h]

theorem step_taken (h : op.kind = .branch) :
    step dm op w s = { s with pc := if taken op (s.regs.x (rs1 w)) (s.regs.x (rs2 w)) then s.pc + immB w else s.pc + 4 } := by
  unfold step
  rw [h]

theorem step_target (h : op.kind = .jump) : step dm op w s =
    { s with regs := s.regs.set (rd w) (s.pc + 4), pc := target op w s.pc (s.regs.x (rs1 w)) } := by
  unfold step
  rw [h]

end Values

/-- **The step of an instruction's word is what the instruction does.** -/
theorem Instr.step_encode {i : Instr} (h : i.Valid) (s : MachineState) : step byteMem i.op i.encode s = i.exec s := by
  cases i with
  | reg op d r1 r2 =>
    obtain ⟨-, h2, -, h4, h5, -⟩ := fieldsR op.fixed.funct7 op.fixed.opcode r1 r2 d op.fixed.funct3
    unfold Instr.op Instr.encode Instr.exec
    dsimp only
    rw [step_result _ _ _ h.reg_kind, result_reg h, h2, h4, h5]
  | imm op d r1 c =>
    obtain ⟨-, h2, -, h4, h5⟩ := fieldsI op.fixed.opcode r1 d op.fixed.funct3 c
    unfold Instr.op Instr.encode Instr.exec
    dsimp only
    rw [step_result _ _ _ h.imm_kind, result_imm h, h2, h4, h5]
  | shift op d r1 c =>
    obtain ⟨-, h2, -, h4, h5, -⟩ := fieldsR op.fixed.funct7 op.fixed.opcode r1 c d op.fixed.funct3
    rw [encode_shift]
    unfold Instr.op Instr.exec
    dsimp only
    rw [step_result _ _ _ h.shift_kind, result_shift h, h2, h4,
      show shamt (encodeR op.fixed.funct7 c r1 op.fixed.funct3 d op.fixed.opcode) = c from h5]
  | branch op r1 r2 offset =>
    obtain ⟨-, -, h4, h5, h6⟩ := fieldsB op.fixed.opcode r1 r2 op.fixed.funct3 offset
    unfold Instr.op Instr.encode Instr.exec
    dsimp only
    rw [step_taken _ _ _ h, h4, h5, h6]
  | jal d offset =>
    obtain ⟨-, h2, h3⟩ := fieldsJ Mnemonic.jal.fixed.opcode d offset
    unfold Instr.op Instr.encode Instr.exec
    dsimp only
    rw [step_target _ _ _ rfl, show target .jal _ s.pc _ = s.pc + immJ _ from rfl, h2, h3]
  | jalr d r1 c =>
    obtain ⟨-, h2, -, h4, h5⟩ := fieldsI Mnemonic.jalr.fixed.opcode r1 d Mnemonic.jalr.fixed.funct3 c
    unfold Instr.op Instr.encode Instr.exec
    dsimp only
    rw [step_target _ _ _ rfl, target, h2, h4, h5]

/-! ## Programs -/

/-- The address of instruction `i` of a program at `base`. -/
def addr (base : Word) (i : ℕ) : Word := base + BitVec.ofNat 32 (4 * i)

/-- The words of a program are in memory from `base` on. -/
def Loaded (prog : List Instr) (base : Word) (mem : Word → Byte) : Prop :=
  ∀ i ins, prog[i]? = some ins → ins.Valid ∧ loadBytes mem (addr base i) .word = ins.encode

/-- **A machine at an instruction of a loaded program executes it.** -/
theorem next_loaded {prog : List Instr} {base : Word} {i : ℕ} {ins : Instr} (hload : Loaded prog base s.mem)
    (hget : prog[i]? = some ins) (hpc : s.pc = addr base i) : next s = some (ins.exec s) := by
  obtain ⟨hvalid, hword⟩ := hload i ins hget
  have hfetch : fetch s = ins.encode := by
    unfold fetch
    rw [hpc, hword]
  rw [next_of_encodes (hfetch ▸ ins.encodes hvalid) (ins.op_ne_ebreak hvalid), hfetch, ins.step_encode hvalid]

/-! ## Images -/

/-- A memory with the words of a program at `base` and nothing else. -/
def imageOf {α : Type} (word : α → Word) (prog : List α) (base : Word) : Word → Byte := fun q =>
  Bytes.byte ((prog[(q - base).toNat / 4]?).elim 0 word) ((q - base).toNat % 4)

theorem loadBytes_imageOf {α : Type} (word : α → Word) {prog : List α} (base : Word) (hlen : prog.length < 2 ^ 30) {i : ℕ}
    {ins : α} (hget : prog[i]? = some ins) : loadBytes (imageOf word prog base) (addr base i) .word = word ins := by
  have hi : i < prog.length := (List.getElem?_eq_some_iff.mp hget).1
  have hbyte : ∀ j : ℕ, j < 4 → imageOf word prog base (addr base i + BitVec.ofNat 32 j) = Bytes.byte (word ins) j := by
    intro j hj
    have hdist : (addr base i + BitVec.ofNat 32 j - base).toNat = 4 * i + j := by
      unfold addr
      bv_omega
    unfold imageOf
    rw [hdist, show (4 * i + j) / 4 = i by omega, show (4 * i + j) % 4 = j by omega, hget]
    rfl
  rw [loadBytes_word, Bytes.ofBytes_congr hbyte, Bytes.ofBytes_byte]

end Rv32
