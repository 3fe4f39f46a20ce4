import Rv32i.Isa.Machine
import Rv32i.Lib.Line

/-!
# minirv: the base instructions

The eight instructions that every macro of `inst-replace.h` is expanded into, with the operands that the assembler
gives them.  What one of them does is the step of the architecture on the word it is assembled to (`exec`), on a
byte memory, and so what the machine does that fetches this word (`next_exec`).
-/

namespace Minirv

open Rv32

abbrev Machine := State (Word → Byte)

/-! ## Registers -/

def zero : RegIdx := 0
def sp : RegIdx := 2
def gp : RegIdx := 3
def tp : RegIdx := 4
def s0 : RegIdx := 8
def s1 : RegIdx := 9

@[simp] theorem x_zero (f : RegFile) : f.x zero = 0 := f.zero

/-- The named registers are different. -/
@[simp] theorem regs_ne : zero ≠ sp ∧ zero ≠ gp ∧ zero ≠ tp ∧ zero ≠ s0 ∧ zero ≠ s1 ∧
    sp ≠ zero ∧ sp ≠ gp ∧ sp ≠ tp ∧ sp ≠ s0 ∧ sp ≠ s1 ∧ gp ≠ zero ∧ gp ≠ sp ∧ gp ≠ tp ∧ gp ≠ s0 ∧ gp ≠ s1 ∧
    tp ≠ zero ∧ tp ≠ sp ∧ tp ≠ gp ∧ tp ≠ s0 ∧ tp ≠ s1 ∧ s0 ≠ zero ∧ s0 ≠ sp ∧ s0 ≠ gp ∧ s0 ≠ tp ∧ s0 ≠ s1 ∧
    s1 ≠ zero ∧ s1 ≠ sp ∧ s1 ≠ gp ∧ s1 ≠ tp ∧ s1 ≠ s0 := by decide

/-! ## Instructions -/

/-- `offset(base)`. -/
structure Addr where
  offset : BitVec 12
  base : RegIdx
  deriving DecidableEq

/-- `(r)`. -/
def at0 (r : RegIdx) : Addr := ⟨0, r⟩

inductive Inst
  | add (rd rs1 rs2 : RegIdx)
  | addi (rd rs1 : RegIdx) (imm : BitVec 12)
  | lui (rd : RegIdx) (imm : BitVec 20)
  | lw (rd : RegIdx) (addr : Addr)
  | lbu (rd : RegIdx) (addr : Addr)
  | sw (rs : RegIdx) (addr : Addr)
  | sb (rs : RegIdx) (addr : Addr)
  | jalr (rd : RegIdx) (addr : Addr)
  deriving DecidableEq

abbrev Code := List Inst

def Inst.mnemonic : Inst → Mnemonic
  | .add .. => .add
  | .addi .. => .addi
  | .lui .. => .lui
  | .lw .. => .lw
  | .lbu .. => .lbu
  | .sw .. => .sw
  | .sb .. => .sb
  | .jalr .. => .jalr

def Inst.encode : Inst → Word
  | .add d a b => encodeR 0b0000000 b a 0b000 d 0b0110011
  | .addi d a imm => encodeI imm a 0b000 d 0b0010011
  | .lui d imm => encodeU imm d 0b0110111
  | .lw d addr => encodeI addr.offset addr.base 0b010 d 0b0000011
  | .lbu d addr => encodeI addr.offset addr.base 0b100 d 0b0000011
  | .sw b addr => encodeS addr.offset b addr.base 0b010 0b0100011
  | .sb b addr => encodeS addr.offset b addr.base 0b000 0b0100011
  | .jalr d addr => encodeI addr.offset addr.base 0b000 d 0b1100111

/-- An instruction is assembled to an encoding of it. -/
theorem encode_encodes (i : Inst) : Encodes i.mnemonic i.encode := by
  cases i with
  | add d a b => exact ⟨(fieldsR ..).1, (fieldsR ..).2.2.1, (fieldsR ..).2.2.2.2.2⟩
  | lui d imm => exact (fieldsU ..).1
  | sw b addr | sb b addr => exact ⟨(fieldsS ..).1, (fieldsS ..).2.1⟩
  | addi d a imm | lw d addr | lbu d addr | jalr d addr => exact ⟨(fieldsI ..).1, (fieldsI ..).2.2.1⟩

/-- What an instruction does. -/
def exec (i : Inst) (s : Machine) : Machine := step byteMem i.mnemonic i.encode s

/-- The address of an access. -/
def Addr.eval (addr : Addr) (f : RegFile) : Word := f.x addr.base + addr.offset.signExtend 32

@[simp] theorem at0_eval (r : RegIdx) (f : RegFile) : (at0 r).eval f = f.x r := BitVec.add_zero _

/-- The state behind an instruction that writes `v` to `d`. -/
def write (s : Machine) (d : RegIdx) (v : Word) : Machine := { s with regs := s.regs.set d v, pc := s.pc + 4 }

/-- The state behind an instruction that stores `v` at `q`. -/
def put (s : Machine) (q : Word) (v : Byte) : Machine :=
  { s with mem := fun a => if a = q then v else s.mem a, pc := s.pc + 4 }

section Exec

variable (s : Machine) (d a b : RegIdx) (addr : Addr)

-- Not proved by `rfl`: a rewrite with such a lemma is checked by unfolding the states around it.
@[simp] theorem write_x (v : Word) (r : RegIdx) :
    (write s d v).regs.x r = if r = d ∧ d ≠ zero then v else s.regs.x r := by
  rw [write, RegFile.set_x]
  rfl

@[simp] theorem write_mem (v : Word) : (write s d v).mem = s.mem := by
  rw [write]

@[simp] theorem write_pc (v : Word) : (write s d v).pc = s.pc + 4 := by
  rw [write]

@[simp] theorem exec_add : exec (.add d a b) s = write s d (s.regs.x a + s.regs.x b) := by
  obtain ⟨-, hd, -, h1, h2, -⟩ := fieldsR 0b0000000 0b0110011 a b d 0b000
  show write s (rd _) (s.regs.x (rs1 _) + s.regs.x (rs2 _)) = _
  simp only [Inst.encode, hd, h1, h2]

@[simp] theorem exec_addi (imm : BitVec 12) : exec (.addi d a imm) s = write s d (s.regs.x a + imm.signExtend 32) := by
  obtain ⟨-, hd, -, h1, himm⟩ := fieldsI 0b0010011 a d 0b000 imm
  show write s (rd _) (s.regs.x (rs1 _) + immI _) = _
  simp only [Inst.encode, hd, h1, himm]

@[simp] theorem exec_lui (imm : BitVec 20) : exec (.lui d imm) s = write s d (imm ++ 0#12) := by
  obtain ⟨-, hd, himm⟩ := fieldsU 0b0110111 d imm
  show write s (rd _) (immU _) = _
  simp only [Inst.encode, hd, himm]

theorem exec_lw : exec (.lw d addr) s = write s d (loadBytes s.mem (addr.eval s.regs) .word) := by
  obtain ⟨-, hd, -, h1, himm⟩ := fieldsI 0b0000011 addr.base d 0b010 addr.offset
  show write s (rd _) (loadBytes s.mem (s.regs.x (rs1 _) + immI _) .word) = _
  simp only [Inst.encode, hd, h1, himm]
  rfl

@[simp] theorem exec_lw_at0 : exec (.lw d (at0 a)) s = write s d (loadBytes s.mem (s.regs.x a) .word) := by
  rw [exec_lw, at0_eval]

theorem exec_lbu : exec (.lbu d addr) s = write s d ((s.mem (addr.eval s.regs)).setWidth 32) := by
  obtain ⟨-, hd, -, h1, himm⟩ := fieldsI 0b0000011 addr.base d 0b100 addr.offset
  show write s (rd _) (loadBytes s.mem (s.regs.x (rs1 _) + immI _) .byte) = _
  simp only [Inst.encode, hd, h1, himm]
  rfl

@[simp] theorem exec_lbu_at0 : exec (.lbu d (at0 a)) s = write s d ((s.mem (s.regs.x a)).setWidth 32) := by
  rw [exec_lbu, at0_eval]

theorem exec_sw : exec (.sw b addr) s =
    { s with mem := storeBytes s.mem (addr.eval s.regs) .word (s.regs.x b), pc := s.pc + 4 } := by
  obtain ⟨-, -, h1, h2, himm⟩ := fieldsS 0b0100011 addr.base b 0b010 addr.offset
  show ({ s with mem := storeBytes s.mem (s.regs.x (rs1 _) + immS _) .word (s.regs.x (rs2 _)), pc := _ } : Machine) = _
  simp only [Inst.encode, h1, h2, himm]
  rfl

theorem exec_sb : exec (.sb b addr) s =
    { s with mem := storeBytes s.mem (addr.eval s.regs) .byte (s.regs.x b), pc := s.pc + 4 } := by
  obtain ⟨-, -, h1, h2, himm⟩ := fieldsS 0b0100011 addr.base b 0b000 addr.offset
  show ({ s with mem := storeBytes s.mem (s.regs.x (rs1 _) + immS _) .byte (s.regs.x (rs2 _)), pc := _ } : Machine) = _
  simp only [Inst.encode, h1, h2, himm]
  rfl

@[simp] theorem put_x (q : Word) (v : Byte) (r : RegIdx) : (put s q v).regs.x r = s.regs.x r := by
  rw [put]

@[simp] theorem put_mem (q : Word) (v : Byte) (q' : Word) :
    (put s q v).mem q' = if q' = q then v else s.mem q' := by
  rw [put]

@[simp] theorem exec_sb_at0 : exec (.sb b (at0 a)) s = put s (s.regs.x a) ((s.regs.x b).extractLsb' 0 8) := by
  rw [exec_sb, at0_eval, put]
  congr 1
  exact funext fun q => storeBytes_byte_apply ..

@[simp] theorem exec_sw_x (r : RegIdx) : (exec (.sw b addr) s).regs.x r = s.regs.x r := by
  rw [exec_sw]

@[simp] theorem exec_sb_x (r : RegIdx) : (exec (.sb b addr) s).regs.x r = s.regs.x r := by
  rw [exec_sb]

theorem exec_jalr : exec (.jalr d addr) s =
    { s with regs := s.regs.set d (s.pc + 4), pc := addr.eval s.regs &&& ~~~1#32 } := by
  obtain ⟨-, hd, -, h1, himm⟩ := fieldsI 0b1100111 addr.base d 0b000 addr.offset
  show ({ s with regs := s.regs.set (rd _) (s.pc + 4), pc := (s.regs.x (rs1 _) + immI _) &&& ~~~1#32 } : Machine) = _
  simp only [Inst.encode, hd, h1, himm]
  rfl

end Exec

/-! ## Code -/

abbrev run (c : Code) (s : Machine) : Machine := Line.run exec c s

section Run

variable (s : Machine) (i : Inst) (c c' : Code) (cs : List Code)

@[simp] theorem run_nil : run [] s = s := by
  rw [run, Line.run_nil]

@[simp] theorem run_cons : run (i :: c) s = run c (exec i s) := by
  rw [run, Line.run_cons]

@[simp] theorem run_append : run (c ++ c') s = run c' (run c s) := Line.run_append c c' s

@[simp] theorem run_flatten_nil : run (List.flatten []) s = s := by
  rw [List.flatten_nil, run_nil]

@[simp] theorem run_flatten_cons : run (List.flatten (c :: cs)) s = run cs.flatten (run c s) := by
  rw [List.flatten_cons, run_append]

end Run

/-- The instruction is no jump. -/
@[simp] def Inst.GoesOn : Inst → Prop
  | .add .. | .addi .. | .lui .. | .lw .. | .lbu .. | .sw .. | .sb .. => True
  | .jalr .. => False

/-- No instruction of the code is a jump. -/
def Straight (c : Code) : Prop := ∀ i ∈ c, i.GoesOn

section Straight

variable {i : Inst} {c c' : Code} {cs : List Code}

@[simp] theorem straight_nil : Straight [] := nofun

@[simp] theorem straight_cons : Straight (i :: c) ↔ i.GoesOn ∧ Straight c := List.forall_mem_cons

@[simp] theorem straight_append : Straight (c ++ c') ↔ Straight c ∧ Straight c' := List.forall_mem_append

@[simp] theorem straight_flatten_nil : Straight (List.flatten []) := nofun

@[simp] theorem straight_flatten_cons : Straight (List.flatten (c :: cs)) ↔ Straight c ∧ Straight cs.flatten := by
  rw [List.flatten_cons, straight_append]

theorem exec_pc (h : i.GoesOn) (s : Machine) : (exec i s).pc = s.pc + 4 := by
  cases i with
  | jalr d addr => exact h.elim
  | add | addi | lui | lw | lbu | sw | sb => rfl

/-- **Code without a jump goes on behind itself.** -/
theorem run_pc (h : Straight c) (s : Machine) : (run c s).pc = s.pc + BitVec.ofNat 32 (4 * c.length) := by
  induction c generalizing s with
  | nil => simp
  | cons i c ih =>
    obtain ⟨hi, hc⟩ := straight_cons.mp h
    have hlen : BitVec.ofNat 32 (4 * (c.length + 1)) = (4 : Word) + BitVec.ofNat 32 (4 * c.length) := by
      rw [Nat.mul_add, Nat.add_comm, BitVec.ofNat_add]
      rfl
    rw [run_cons, ih hc, exec_pc hi, List.length_cons, hlen, BitVec.add_assoc]

end Straight

/-! ## Code in memory -/

/-- The machine executes the instruction that it fetches. -/
theorem next_exec {i : Inst} {s : Machine} (h : fetch s = i.encode) : next s = some (exec i s) := by
  have hencodes : Encodes i.mnemonic (fetch s) := h ▸ encode_encodes i
  have hne : i.mnemonic ≠ .ebreak := by
    cases i <;> simp [Inst.mnemonic]
  rw [next_of_encodes hencodes hne, h]
  rfl

/-- The words of the code stand in memory from `a` on. -/
def Placed (code : Code) (mem : Word → Byte) (a : Word) : Prop :=
  ∀ k i, code[k]? = some i → loadBytes mem (a + BitVec.ofNat 32 (4 * k)) .word = i.encode

/-- The bytes they take. -/
def codeBytes (c : Code) (a : Word) : Set Word := {q | ∃ j < 4 * c.length, q = a + BitVec.ofNat 32 j}

/-- Code that is not written over stays, and so does what follows its first instruction. -/
theorem Placed.tail {i : Inst} {c : Code} {mem mem' : Word → Byte} {a : Word} (h : Placed (i :: c) mem a)
    (hkept : ∀ q ∈ codeBytes (i :: c) a, mem' q = mem q) : Placed c mem' (a + 4) := by
  intro k i' hi'
  have hk : k < c.length := (List.getElem?_eq_some_iff.mp hi').1
  have haddr : a + 4 + BitVec.ofNat 32 (4 * k) = a + BitVec.ofNat 32 (4 * (k + 1)) := by
    rw [BitVec.add_assoc, Nat.mul_add, Nat.add_comm (4 * k), BitVec.ofNat_add]
    rfl
  have hword := h (k + 1) i' hi'
  rw [← hword, haddr, loadBytes_word, loadBytes_word]
  refine Bytes.ofBytes_congr fun j hj => hkept _ ⟨4 * (k + 1) + j, ?_, ?_⟩
  · rw [List.length_cons]
    omega
  · rw [BitVec.ofNat_add, BitVec.add_assoc]

theorem codeBytes_tail (i : Inst) (c : Code) (a : Word) : codeBytes c (a + 4) ⊆ codeBytes (i :: c) a := by
  rintro q ⟨j, hj, rfl⟩
  refine ⟨4 + j, ?_, ?_⟩
  · rw [List.length_cons]
    omega
  · rw [BitVec.ofNat_add, ← BitVec.add_assoc]
    rfl

end Minirv
