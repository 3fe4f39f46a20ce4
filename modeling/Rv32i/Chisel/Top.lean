import Rv32i.Lib.Lockstep
import Rv32i.Chisel.Modules

/-!
# The Chisel core: `Top`

The wiring of `Top` as one clock cycle (`cycle`), and the proof that it makes the specified step on every
encoding of the fourteen instructions, over a word-addressed instruction memory and a word-addressed data
memory (`top_follows`, `top_run`).
-/

namespace Chisel

open Rv32

/-! ## Wiring -/

/-- The registers and memories of `Top`. -/
structure TopState where
  regPC : Word
  regs : Regs
  memInst : Mem
  memData : Mem

/-- The inputs of `TopIO`. -/
structure TopIn where
  instWriteEn : Bool
  instWriteAddr : Word
  instWriteData : Word
  dataWriteEn : Bool
  dataWriteAddr : Word
  dataWriteData : Word

/-- The outputs of `TopIO`. -/
structure TopOut where
  addr : Word
  inst : Word
  bundleCtrl : BundleControl
  ctrlBranchToPc : Bool
  ctrlJumpToPc : Bool
  resultALU : Word
  rs1 : Word
  rs2 : Word
  imm : Word
  resultBranch : Bool
  result : Word

def memInstIn (i : TopIn) (t : TopState) : MemInstIn where
  addr := t.regPC
  extWriteEn := i.instWriteEn
  extWriteAddr := i.instWriteAddr
  extWriteData := i.instWriteData

/-- The fetched word. -/
def inst (i : TopIn) (t : TopState) : Word := MemInst.inst t.memInst (memInstIn i t)

def aluIn (i : TopIn) (t : TopState) : AluIn where
  bundleAluControl := Controller.bundleAluControl (Decoder.bundleCtrl (inst i t))
  dataRead1 := Registers.dataRead t.regs (Decoder.bundleReg (inst i t)).rs1
  dataRead2 := Registers.dataRead t.regs (Decoder.bundleReg (inst i t)).rs2
  imm := Decoder.imm (inst i t)
  pc := t.regPC

def memDataIn (i : TopIn) (t : TopState) : MemDataIn where
  bundleMemDataControl := Controller.bundleMemDataControl (Decoder.bundleCtrl (inst i t))
  resultALU := Alu.resultAlu (aluIn i t)
  dataStore := (aluIn i t).dataRead2
  extWriteEn := i.dataWriteEn
  extWriteAddr := i.dataWriteAddr
  extWriteData := i.dataWriteData

def out (i : TopIn) (t : TopState) : TopOut :=
  let ctrl := Controller.bundleControlOut (Decoder.bundleCtrl (inst i t))
  { addr := t.regPC
    inst := inst i t
    bundleCtrl := Decoder.bundleCtrl (inst i t)
    ctrlBranchToPc := ctrl.ctrlBranch
    ctrlJumpToPc := ctrl.ctrlJump
    resultALU := Alu.resultAlu (aluIn i t)
    rs1 := (aluIn i t).dataRead1
    rs2 := (aluIn i t).dataRead2
    imm := Decoder.imm (inst i t)
    resultBranch := Alu.resultBranch (aluIn i t)
    result := MemData.result t.memData (memDataIn i t) }

/-- One clock cycle: every register and memory takes its next value at once. -/
def cycle (i : TopIn) (t : TopState) : TopState :=
  let o := out i t
  { regPC := PCReg.next t.regPC
      { ctrlJump := o.ctrlJumpToPc
        ctrlBranch := o.ctrlBranchToPc
        resultBranch := o.resultBranch
        addrTarget := o.result }
    regs := Registers.next t.regs
      { ctrlRegWrite := (Controller.bundleControlOut o.bundleCtrl).ctrlRegWrite
        dataWrite := o.result
        bundleReg := Decoder.bundleReg o.inst
        ctrlJump := o.ctrlJumpToPc
        pc := o.addr }
    memInst := MemInst.next t.memInst (memInstIn i t)
    memData := MemData.next t.memData (memDataIn i t) }

/-! ## Immediates -/

theorem getLsbD_fill (n : ℕ) (b : BitVec 1) (i : ℕ) : (fill n b).getLsbD i = (decide (i < n) && b.getLsbD 0) := by
  unfold fill
  rcases BitVec.eq_zero_or_eq_one b with rfl | rfl
  · rw [if_neg (by decide)]
    simp
  · rw [if_pos (by decide)]
    simp

/-- `Cat(Fill(k, msb of x), x)` is the sign extension of `x`. -/
theorem fill_append {n : ℕ} (k : ℕ) {x : BitVec n} {b : BitVec 1} (hb : b.getLsbD 0 = x.msb) :
    fill k b ++ x = x.signExtend (k + n) := by
  apply BitVec.eq_of_getLsbD_eq
  intro i hi
  rw [BitVec.getLsbD_append, BitVec.getLsbD_signExtend, getLsbD_fill, hb]
  by_cases h : i < n
  · simp [h, hi]
  · have h1 : i - n < k := by omega
    simp [h, hi, h1]

/-- Low bits appended to a sign extension. -/
theorem signExtend_append {n m : ℕ} (k : ℕ) (a : BitVec (n + 1)) (c : BitVec m) :
    a.signExtend k ++ c = (a ++ c).signExtend (k + m) := by
  apply BitVec.eq_of_getLsbD_eq
  intro i hi
  rw [BitVec.getLsbD_append, BitVec.getLsbD_signExtend, BitVec.getLsbD_signExtend, BitVec.getLsbD_append,
    BitVec.msb_append]
  by_cases h : i < m
  · have h1 : i < n + 1 + m := by omega
    simp [h, h1, hi]
  · have h1 : i - m < k := by omega
    have h2 : (i - m < n + 1) ↔ (i < n + 1 + m) := by omega
    by_cases h3 : i < n + 1 + m <;> simp [h, h1, h2, h3, hi]

theorem immGen_immI (w : Word) : ImmGen.immI w = Rv32.immI w :=
  fill_append 20 (by simp [BitVec.msb_eq_getLsbD_last])

theorem immGen_immS (w : Word) : ImmGen.immS w = Rv32.immS w := by
  have h : fill 20 (w.extractLsb' 31 1) ++ w.extractLsb' 25 7 = (w.extractLsb' 25 7).signExtend 27 :=
    fill_append 20 (by simp [BitVec.msb_eq_getLsbD_last])
  unfold ImmGen.immS
  rw [h]
  exact signExtend_append 27 _ _

theorem immGen_immB (w : Word) : ImmGen.immB w = Rv32.immB w := by
  have h : fill 19 (w.extractLsb' 31 1) ++ w.extractLsb' 31 1 = (w.extractLsb' 31 1).signExtend 20 :=
    fill_append 19 (by simp [BitVec.msb_eq_getLsbD_last])
  unfold ImmGen.immB
  rw [h, signExtend_append 20, signExtend_append 21, signExtend_append 27]
  exact signExtend_append 31 _ _

theorem immGen_immJ (w : Word) : ImmGen.immJ w = Rv32.immJ w := by
  have h : fill 11 (w.extractLsb' 31 1) ++ w.extractLsb' 31 1 = (w.extractLsb' 31 1).signExtend 12 :=
    fill_append 11 (by simp [BitVec.msb_eq_getLsbD_last])
  unfold ImmGen.immJ
  rw [h, signExtend_append 12, signExtend_append 20, signExtend_append 21]
  exact signExtend_append 31 _ _

/-! ## The specification it follows -/

/-- The instructions of the core. -/
def supported : List Mnemonic :=
  [.add, .sub, .and, .or, .sll, .srl, .addi, .ori, .lw, .sw, .jalr, .jal, .beq, .bne]

/-- Data memory by words: whatever the width, an access is to the word of its address. -/
def wordMem : DataMem Mem where
  load mem a _ := mem (wordAddr a)
  store mem a _ v := mem.write (wordAddr a) v

/-- The specified step over an instruction memory, on supported encodings only; the instruction memory
stays. -/
def specStep (p : Mem × State Mem) : Option (Mem × State Mem) :=
  let w := p.1 (wordAddr p.2.pc)
  (supported.find? fun op => Encodes op w).map fun op => (p.1, step wordMem op w p.2)

/-- The architectural state of the core; `x0` reads as 0. -/
def arch (t : TopState) : Mem × State Mem :=
  (t.memInst, { regs := ⟨Registers.dataRead t.regs, rfl⟩, pc := t.regPC, mem := t.memData })

/-- The fetched word is an encoding of one of the instructions of the core. -/
def Supported (w : Word) : Prop := ∃ op ∈ supported, Encodes op w

instance (w : Word) : Decidable (Supported w) := by
  unfold Supported; infer_instance

/-- The core runs on its own: no external write, and the fetched word is one of its instructions. -/
def Runs (i : TopIn) (t : TopState) : Prop :=
  i.instWriteEn = false ∧ i.dataWriteEn = false ∧ Supported (t.memInst (wordAddr t.regPC))

theorem find?_supported {op : Mnemonic} {w : Word} (hop : op ∈ supported) (h : Encodes op w) :
    (supported.find? fun op => Encodes op w) = some op := by
  cases hf : supported.find? fun op => Encodes op w with
  | none =>
    rw [List.find?_eq_none] at hf
    exact absurd (by simpa using h) (hf op hop)
  | some op' =>
    have : Encodes op' w := by simpa using List.find?_some hf
    rw [this.unique h]

/-! ## One cycle -/

variable {i : TopIn} {t : TopState}

theorem dataRead_write (regs : Regs) {r : RegIdx} (hr : r ≠ 0) (v : Word) :
    Registers.dataRead (fun q => if q = r then v else regs q) =
      ((⟨Registers.dataRead regs, rfl⟩ : RegFile).set r v).x := by
  funext q
  show (if q = 0 then 0 else if q = r then v else regs q) =
    if q = r ∧ r ≠ 0 then v else if q = 0 then 0 else regs q
  by_cases hq : q = 0
  · have hqr : ¬ (q = r ∧ r ≠ 0) := fun h => h.2 (h.1.symm.trans hq)
    rw [if_pos hq, if_neg hqr, if_pos hq]
  · by_cases hqr : q = r
    · rw [if_neg hq, if_pos hqr, if_pos (And.intro hqr hr)]
    · have hqr' : ¬ (q = r ∧ r ≠ 0) := fun h => hqr h.1
      rw [if_neg hq, if_neg hqr, if_neg hqr', if_neg hq]

/-- A write of the register module is a write to the architectural registers, if it is enabled. -/
theorem dataRead_next (regs : Regs) (io : RegistersIn) :
    Registers.dataRead (Registers.next regs io) =
      if io.ctrlRegWrite then
        ((⟨Registers.dataRead regs, rfl⟩ : RegFile).set io.bundleReg.rd
          (if io.ctrlJump then io.pc + 4 else io.dataWrite)).x
      else Registers.dataRead regs := by
  unfold Registers.next
  cases io.ctrlRegWrite with
  | false => rfl
  | true =>
    rw [Bool.true_and, if_pos rfl]
    by_cases hrd : io.bundleReg.rd = 0
    · rw [hrd, RegFile.set_zero]
      rfl
    · rw [if_pos (bne_iff_ne.mpr hrd), dataRead_write regs hrd]

/-- What the ALU sees under the wires `c` and the immediate `imm`, in architectural terms. -/
def aluArch (c : DecoderWires) (imm w : Word) (s : State Mem) : AluIn where
  bundleAluControl :=
    { ctrlALUSrc := c.ctrlALUSrc, ctrlJump := c.ctrlJump, ctrlJAL := c.ctrlJAL, ctrlOP := c.ctrlOP,
      ctrlBranch := c.ctrlBranch }
  dataRead1 := s.regs.x (rs1 w)
  dataRead2 := s.regs.x (rs2 w)
  imm := imm
  pc := s.pc

/-- What the wires `c` make the core do with the word `w`, in architectural terms. -/
def datapath (c : DecoderWires) (imm w : Word) (s : State Mem) : State Mem :=
  let a := Alu.resultAlu (aluArch c imm w s)
  let v := if c.ctrlLoad then s.mem (wordAddr a) else a
  { regs := if c.ctrlRegWrite then s.regs.set (rd w) (if c.ctrlJump then s.pc + 4 else v) else s.regs
    pc := if c.ctrlJump || (c.ctrlBranch && Alu.resultBranch (aluArch c imm w s)) then v else s.pc + 4
    mem := if c.ctrlStore then s.mem.write (wordAddr a) (s.regs.x (rs2 w)) else s.mem }

/-- With the external writes off, a cycle is the data path under the wires of the fetched word. -/
theorem arch_cycle (hi : i.instWriteEn = false) (hd : i.dataWriteEn = false) :
    arch (cycle i t) =
      (t.memInst, datapath (Decoder.wires (inst i t)) (Decoder.imm (inst i t)) (inst i t) (arch t).2) := by
  have hinst : MemInst.next t.memInst (memInstIn i t) = t.memInst := by
    unfold MemInst.next memInstIn
    rw [hi]
    rfl
  have hmem : MemData.next t.memData (memDataIn i t) =
      (datapath (Decoder.wires (inst i t)) (Decoder.imm (inst i t)) (inst i t) (arch t).2).mem := by
    unfold MemData.next memDataIn
    rw [hd]
    rfl
  have hregs : (arch (cycle i t)).2.regs =
      (datapath (Decoder.wires (inst i t)) (Decoder.imm (inst i t)) (inst i t) (arch t).2).regs := by
    apply RegFile.ext
    refine (dataRead_next _ _).trans ?_
    show (if (Decoder.wires (inst i t)).ctrlRegWrite then _ else _) =
      (if (Decoder.wires (inst i t)).ctrlRegWrite then _ else _ : RegFile).x
    cases (Decoder.wires (inst i t)).ctrlRegWrite <;> rfl
  show (MemInst.next t.memInst (memInstIn i t), State.mk (arch (cycle i t)).2.regs (cycle i t).regPC
    (MemData.next t.memData (memDataIn i t))) = _
  rw [hinst, hmem, hregs]
  rfl

/-! ## The decoder -/

/-- The wires that each instruction of the core needs. -/
def control : Mnemonic → DecoderWires
  | .add => { ctrlRegWrite := true }
  | .sub => { ctrlRegWrite := true, ctrlOP := opSub }
  | .and => { ctrlRegWrite := true, ctrlOP := opAnd }
  | .or => { ctrlRegWrite := true, ctrlOP := opOr }
  | .sll => { ctrlRegWrite := true, ctrlOP := opSll }
  | .srl => { ctrlRegWrite := true, ctrlOP := opSrl }
  | .addi => { ctrlRegWrite := true, ctrlALUSrc := true, immSel := immI }
  | .ori => { ctrlRegWrite := true, ctrlALUSrc := true, immSel := immI, ctrlOP := opOr }
  | .lw => { ctrlRegWrite := true, ctrlLoad := true, ctrlALUSrc := true, immSel := immI }
  | .sw => { ctrlStore := true, ctrlALUSrc := true, immSel := immS }
  | .jalr => { ctrlJump := true, ctrlRegWrite := true, ctrlALUSrc := true, immSel := immI }
  | .jal => { ctrlJump := true, ctrlJAL := true, ctrlRegWrite := true, ctrlALUSrc := true, immSel := immJ }
  | .beq => { ctrlBranch := true, immSel := immB, ctrlOP := opEq }
  | .bne => { ctrlBranch := true, immSel := immB, ctrlOP := opNeq }
  | _ => {}

/-- The only funct7 bit the decoder looks at. -/
theorem getLsbD_30 (w : Word) : w.getLsbD 30 = (funct7 w).getLsbD 5 := by
  unfold funct7
  rw [BitVec.getLsbD_extractLsb']
  rfl

/-- The decoder sets the wires that the encoded instruction needs. -/
theorem wires_eq {op : Mnemonic} {w : Word} (hop : op ∈ supported) (h : Encodes op w) :
    Decoder.wires w = control op := by
  have hwires : Decoder.wires w = Decoder.switch (opcode w) (funct3 w) ((funct7 w).getLsbD 5) := by
    rw [← getLsbD_30]
    rfl
  rw [hwires]
  cases op <;> first
    | exact absurd hop (by decide)
    | (obtain ⟨h1, h2, h3⟩ := h; rw [h1, h2, h3]; rfl)
    | (obtain ⟨h1, h2⟩ := h; rw [h1, h2]; rfl)
    | (have h1 : opcode w = 0b1101111 := h; rw [h1]; rfl)

/-! ## The data path -/

/-- The immediate of an instruction of the core. -/
def immOf (op : Mnemonic) (w : Word) : Word :=
  match op with
  | .addi | .ori | .lw | .jalr => Rv32.immI w
  | .sw => Rv32.immS w
  | .beq | .bne => Rv32.immB w
  | .jal => Rv32.immJ w
  | _ => 0

theorem imm_control {op : Mnemonic} (hop : op ∈ supported) (w : Word) :
    ImmGen.imm w (control op).immSel = immOf op w := by
  cases op <;> first
    | exact absurd hop (by decide)
    | skip
  case addi | ori | lw | jalr => exact immGen_immI w
  case sw => exact immGen_immS w
  case beq | bne => exact immGen_immB w
  case jal => exact immGen_immJ w
  all_goals rfl

/-- Under the wires of an instruction, the data path makes its step. -/
theorem datapath_eq {op : Mnemonic} (hop : op ∈ supported) (w : Word) (s : State Mem) :
    datapath (control op) (immOf op w) w s = step wordMem op w s := by
  cases op <;> first
    | exact absurd hop (by decide)
    | skip
  case bne =>
    have hne : (s.regs.x (rs1 w) != s.regs.x (rs2 w)) = taken .bne (s.regs.x (rs1 w)) (s.regs.x (rs2 w)) :=
      (decide_not ..).symm
    show ({ s with pc := if s.regs.x (rs1 w) != s.regs.x (rs2 w) then s.pc + Rv32.immB w else s.pc + 4 } :
      State Mem) = _
    rw [hne]
    rfl
  all_goals rfl

/-- **A cycle on a supported encoding is the specified step.** -/
theorem top_follows : Lockstep.Follows cycle Runs arch specStep := by
  rintro i t ⟨hi, hd, op, hop, henc⟩
  have hspec : specStep (arch t) = some (t.memInst, step wordMem op (inst i t) (arch t).2) := by
    show (supported.find? fun op => Encodes op (t.memInst (wordAddr t.regPC))).map _ = _
    rw [find?_supported hop henc]
    rfl
  have hwires : Decoder.wires (inst i t) = control op := wires_eq hop henc
  have himm : Decoder.imm (inst i t) = immOf op (inst i t) := by
    unfold Decoder.imm
    rw [hwires, imm_control hop]
  rw [hspec, arch_cycle hi hd, himm, hwires, datapath_eq hop]

theorem specStep_fst {p q : Mem × State Mem} (h : specStep p = some q) : q.1 = p.1 := by
  obtain ⟨op, -, rfl⟩ := Option.map_eq_some_iff.mp h
  rfl

/-- **The core runs as specified**: with the external writes off and every fetched word supported, the
core is after each cycle where the specification is, and the instruction memory has not changed. -/
theorem top_run {ins : List TopIn} {t : TopState}
    (hext : ∀ i ∈ ins, i.instWriteEn = false ∧ i.dataWriteEn = false)
    (hsup : ∀ k < ins.length, Supported ((Lockstep.run cycle (ins.take k) t).memInst
      (wordAddr (Lockstep.run cycle (ins.take k) t).regPC))) {k : ℕ} (hk : k ≤ ins.length) :
    Lockstep.iter specStep k (arch t) = some (arch (Lockstep.run cycle (ins.take k) t)) ∧
      (Lockstep.run cycle (ins.take k) t).memInst = t.memInst := by
  have halong : Lockstep.Along cycle Runs ins t := by
    refine Lockstep.Along.of_forall fun k hk => ?_
    obtain ⟨hi, hd⟩ := hext _ (List.get_mem ins ⟨k, hk⟩)
    exact ⟨hi, hd, hsup k hk⟩
  have hrun := top_follows.run_take halong hk
  exact ⟨hrun, Lockstep.iter_preserves (fun _ _ h => specStep_fst h) hrun⟩

/-- No external write. -/
def quiet : TopIn where
  instWriteEn := false
  instWriteAddr := 0
  instWriteData := 0
  dataWriteEn := false
  dataWriteAddr := 0
  dataWriteData := 0

/-- `addi x1, x0, 5`, then `sw x1, 0(x0)` at every other address. -/
def addiSw : TopState where
  regPC := 0
  regs := fun _ => 7
  memInst := fun a => if a = 0 then 0x00500093 else 0x00102023
  memData := fun _ => 0

theorem top_run_addiSw : Lockstep.iter specStep 2 (arch addiSw) =
      some (arch (Lockstep.run cycle ([quiet, quiet].take 2) addiSw)) ∧
    (Lockstep.run cycle ([quiet, quiet].take 2) addiSw).memInst = addiSw.memInst := by
  refine top_run (fun i hi => ?_) (by decide) (Nat.le_refl 2)
  have : i = quiet := by simpa using hi
  rw [this]
  exact ⟨rfl, rfl⟩

end Chisel
