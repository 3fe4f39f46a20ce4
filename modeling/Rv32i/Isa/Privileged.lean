import Mathlib.Logic.Relation
import Rv32i.Isa.Machine

/-!
# Trap code

The machine with the registers that a trap handler uses, and the instructions for them.

* `PrivInstr` — an instruction of handler code: computing and jumping, loads and stores of words, `csrrw`, `csrrs`, `mret`;
* `Hart.next` — the step of the machine; what `mret` does to `mstatus` depends on the modes a machine has and is a
  parameter;
* `Hart.next_loaded` — **a machine at an instruction of loaded handler code executes it**;
* `At` — where in the code a sequence of instructions is.
-/

namespace Rv32

/-! ## Instructions -/

inductive Csr
  | mstatus | mtvec | mepc | mcause
  deriving DecidableEq, Repr

def Csr.number : Csr → BitVec 12
  | .mstatus => 0x300
  | .mtvec => 0x305
  | .mepc => 0x341
  | .mcause => 0x342

def csrOf (n : BitVec 12) : Option Csr := [Csr.mstatus, .mtvec, .mepc, .mcause].find? fun c => c.number = n

theorem csrOf_number (c : Csr) : csrOf c.number = some c := by cases c <;> rfl

inductive PrivInstr
  | base (i : Instr)
  | lui (d : RegIdx) (c : BitVec 20)
  | lw (d r1 : RegIdx) (c : BitVec 12)
  | sw (r2 r1 : RegIdx) (c : BitVec 12)
  | csrrw (d : RegIdx) (c : Csr) (r1 : RegIdx)
  | csrrs (d : RegIdx) (c : Csr) (r1 : RegIdx)
  | mret

def systemOpcode : BitVec 7 := 0x73

def mretWord : Word := 0x30200073

namespace PrivInstr

def Valid : PrivInstr → Prop
  | base i => i.Valid
  | _ => True

instance (i : PrivInstr) : Decidable i.Valid := by cases i <;> unfold PrivInstr.Valid <;> infer_instance

def encode : PrivInstr → Word
  | base i => i.encode
  | lui d c => encodeU c d Mnemonic.lui.fixed.opcode
  | lw d r1 c => encodeI c r1 Mnemonic.lw.fixed.funct3 d Mnemonic.lw.fixed.opcode
  | sw r2 r1 c => encodeS c r2 r1 Mnemonic.sw.fixed.funct3 Mnemonic.sw.fixed.opcode
  | csrrw d c r1 => encodeI c.number r1 1 d systemOpcode
  | csrrs d c r1 => encodeI c.number r1 2 d systemOpcode
  | mret => mretWord

end PrivInstr

/-- The instruction of the system opcode that a word is, of those above. -/
def decodeSystem (w : Word) : Option PrivInstr :=
  if w = mretWord then some .mret
  else if opcode w = systemOpcode then
    match csrOf (w.extractLsb' 20 12) with
    | none => none
    | some c =>
      if funct3 w = 1 then some (.csrrw (rd w) c (rs1 w))
      else if funct3 w = 2 then some (.csrrs (rd w) c (rs1 w))
      else none
  else none

/-! ## The machine -/

structure Hart extends State (Word → Byte) where
  csr : Csr → Word

variable (leave : Word → Word)

/-- What an instruction does; `leave` is what `mret` makes of `mstatus`. -/
def PrivInstr.exec (i : PrivInstr) (s : Hart) : Hart :=
  match i with
  | .base i => { s with toState := i.exec s.toState }
  | .lui d c => { s with toState := s.toState.write d (c ++ 0#12) }
  | .lw d r1 c => { s with toState := s.toState.write d (loadBytes s.mem (s.regs.x r1 + c.signExtend 32) .word) }
  | .sw r2 r1 c =>
    { s with mem := storeBytes s.mem (s.regs.x r1 + c.signExtend 32) .word (s.regs.x r2), pc := s.pc + 4 }
  | .csrrw d c r1 => ⟨s.toState.write d (s.csr c), Function.update s.csr c (s.regs.x r1)⟩
  | .csrrs d c r1 =>
    ⟨s.toState.write d (s.csr c), if r1 = 0 then s.csr else Function.update s.csr c (s.csr c ||| s.regs.x r1)⟩
  | .mret => { s with pc := s.csr .mepc, csr := Function.update s.csr .mstatus (leave (s.csr .mstatus)) }

def Hart.next (s : Hart) : Option Hart :=
  match decodeSystem (fetch s.toState) with
  | some i => some (i.exec leave s)
  | none => (Rv32.next s.toState).map fun t => { s with toState := t }

def Hart.Reaches : Hart → Hart → Prop := Relation.ReflTransGen fun s s' => s.next leave = some s'

/-! ## Code in memory -/

/-- The words of the code are in memory from `base` on. -/
def CodeLoaded (prog : List PrivInstr) (base : Word) (mem : Word → Byte) : Prop :=
  ∀ i ins, prog[i]? = some ins → ins.Valid ∧ loadBytes mem (addr base i) .word = ins.encode

theorem decodeSystem_of_opcode {w : Word} (h : opcode w ≠ systemOpcode) : decodeSystem w = none := by
  unfold decodeSystem
  have hmret : w ≠ mretWord := by
    rintro rfl
    exact h rfl
  rw [if_neg hmret, if_neg h]

theorem opcode_ne_system {op : Mnemonic} {w : Word} (h : Encodes op w) (hne : op ≠ .ebreak) : opcode w ≠ systemOpcode := by
  cases op <;> first | exact absurd rfl hne | (unfold Encodes Mnemonic.fixed Fixed.Holds at h; simp_all [systemOpcode])

theorem decodeSystem_csr {w : Word} {c : Csr} {f3 : BitVec 3} (hop : opcode w = systemOpcode) (hf3 : funct3 w = f3)
    (hnum : w.extractLsb' 20 12 = c.number) (hne : f3 ≠ 0) :
    decodeSystem w = if f3 = 1 then some (.csrrw (rd w) c (rs1 w))
      else if f3 = 2 then some (.csrrs (rd w) c (rs1 w)) else none := by
  unfold decodeSystem
  have hmret : w ≠ mretWord := by
    rintro rfl
    exact hne (hf3.symm.trans rfl)
  rw [if_neg hmret, if_pos hop, hnum, csrOf_number]
  dsimp only
  rw [hf3]

/-- The whole immediate of a word in the I format. -/
theorem numberI (imm : BitVec 12) (r1 d : RegIdx) (f3 : BitVec 3) (o : BitVec 7) :
    (encodeI imm r1 f3 d o).extractLsb' 20 12 = imm := by
  have h : ∀ k l, (encodeI imm r1 f3 d o).extractLsb' k l =
      BitVec.extractLsb' (n := 12 + 5 + 3 + 5 + 7) k l (imm ++ r1 ++ f3 ++ d ++ o) := fun _ _ => rfl
  simp (disch := decide) only [h, BitVec.extractLsb'_append_eq_of_le]
  simp

/-- A word of the base machine, by its mnemonic. -/
theorem next_base {s : Hart} {op : Mnemonic} (h : Encodes op (fetch s.toState)) (hne : op ≠ .ebreak) :
    s.next leave = some { s with toState := step byteMem op (fetch s.toState) s.toState } := by
  unfold Hart.next
  rw [decodeSystem_of_opcode (opcode_ne_system h hne), next_of_encodes h hne]
  rfl

/-- **A machine at an instruction of loaded handler code executes it.** -/
theorem Hart.next_loaded {s : Hart} {prog : List PrivInstr} {base : Word} {i : ℕ} {ins : PrivInstr}
    (hload : CodeLoaded prog base s.mem) (hget : prog[i]? = some ins) (hpc : s.pc = addr base i) :
    s.next leave = some (ins.exec leave s) := by
  obtain ⟨hvalid, hword⟩ := hload i ins hget
  have hfetch : fetch s.toState = ins.encode := by
    unfold fetch
    rw [hpc, hword]
  cases ins with
  | base i =>
    have hfetch' : fetch s.toState = i.encode := hfetch
    rw [next_base leave (hfetch' ▸ i.encodes hvalid) (i.op_ne_ebreak hvalid), hfetch', i.step_encode hvalid]
    rfl
  | lui d c =>
    obtain ⟨h1, h2, h3⟩ := fieldsU Mnemonic.lui.fixed.opcode d c
    have henc : Encodes .lui (fetch s.toState) := hfetch ▸ h1
    rw [next_base leave henc (by simp), hfetch]
    unfold PrivInstr.encode PrivInstr.exec
    rw [step_result _ _ _ (.inl rfl), h2, result, h3]
  | lw d r1 c =>
    obtain ⟨h1, h2, h3, h4, h5⟩ := fieldsI Mnemonic.lw.fixed.opcode r1 d Mnemonic.lw.fixed.funct3 c
    have henc : Encodes .lw (fetch s.toState) := hfetch ▸ ⟨h1, h3⟩
    rw [next_base leave henc (by simp), hfetch]
    unfold PrivInstr.encode PrivInstr.exec step
    dsimp only [Mnemonic.kind]
    rw [h2, h4, h5]
    rfl
  | sw r2 r1 c =>
    obtain ⟨h1, h2, h3, h4, h5⟩ := fieldsS Mnemonic.sw.fixed.opcode r1 r2 Mnemonic.sw.fixed.funct3 c
    have henc : Encodes .sw (fetch s.toState) := hfetch ▸ ⟨h1, h2⟩
    rw [next_base leave henc (by simp), hfetch]
    unfold PrivInstr.encode PrivInstr.exec step
    dsimp only [Mnemonic.kind]
    rw [h3, h4, h5]
    rfl
  | csrrw d c r1 =>
    obtain ⟨h1, h2, h3, h4, -⟩ := fieldsI systemOpcode r1 d 1 c.number
    unfold Hart.next
    rw [hfetch]
    unfold PrivInstr.encode
    rw [decodeSystem_csr h1 h3 (numberI _ _ _ _ _) (by simp), if_pos rfl, h2, h4]
  | csrrs d c r1 =>
    obtain ⟨h1, h2, h3, h4, -⟩ := fieldsI systemOpcode r1 d 2 c.number
    unfold Hart.next
    rw [hfetch]
    unfold PrivInstr.encode
    rw [decodeSystem_csr h1 h3 (numberI _ _ _ _ _) (by simp), if_neg (by simp), if_pos rfl, h2, h4]
  | mret =>
    unfold Hart.next
    rw [hfetch]
    rfl

/-! ## Running code -/

section Running

variable {prog : List PrivInstr} {base : Word} {i : ℕ}

/-- The code from instruction `i` on starts with these. -/
def At (prog : List PrivInstr) (i : ℕ) (is : List PrivInstr) : Prop :=
  ∀ k ins, is[k]? = some ins → prog[i + k]? = some ins

theorem at_self (prog : List PrivInstr) : At prog 0 prog := fun k ins h => by rwa [Nat.zero_add]

theorem At.left {is is' : List PrivInstr} (h : At prog i (is ++ is')) : At prog i is := by
  intro k ins hk
  have hlt : k < is.length := (List.getElem?_eq_some_iff.mp hk).1
  exact h k ins (by rw [List.getElem?_append_left hlt, hk])

theorem At.right {is is' : List PrivInstr} (h : At prog i (is ++ is')) : At prog (i + is.length) is' := by
  intro k ins hk
  have hnext := h (is.length + k) ins (by rw [List.getElem?_append_right (Nat.le_add_right _ _), Nat.add_sub_cancel_left, hk])
  rwa [← Nat.add_assoc] at hnext

theorem At.head {ins : PrivInstr} {is : List PrivInstr} (h : At prog i (ins :: is)) : prog[i]? = some ins := h 0 ins rfl

theorem At.tail {ins : PrivInstr} {is : List PrivInstr} (h : At prog i (ins :: is)) : At prog (i + 1) is :=
  @At.right prog i [ins] is h

theorem Hart.reaches_step {s : Hart} {ins : PrivInstr} (hload : CodeLoaded prog base s.mem) (hget : prog[i]? = some ins)
    (hpc : s.pc = addr base i) : Hart.Reaches leave s (ins.exec leave s) :=
  .single (Hart.next_loaded leave hload hget hpc)

end Running

theorem codeLoaded_image {prog : List PrivInstr} (base : Word) (hlen : prog.length < 2 ^ 30)
    (hvalid : ∀ ins ∈ prog, ins.Valid) : CodeLoaded prog base (imageOf PrivInstr.encode prog base) := fun _ ins hget =>
  ⟨hvalid ins (List.mem_of_getElem? hget), loadBytes_imageOf PrivInstr.encode base hlen hget⟩

end Rv32
