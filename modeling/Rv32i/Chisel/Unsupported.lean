import Rv32i.Chisel.Top

/-!
# The Chisel core: words that are no instruction of it

* `takenFor w` — the instruction that the decoder takes a word for, if any: it looks at the opcode, at funct3 for
  three of them, and at bit 30 for one;
* `datapath_takenFor` — every word is executed as what it is taken for, or does nothing;
* `unsupported_harmless_iff` — which words that are no encoding of the fourteen instructions do nothing.
-/

namespace Chisel

open Rv32

/-- The instruction whose wires the decoder sets. -/
def takenFor (w : Word) : Option Mnemonic :=
  if opcode w = 0b0110011 then
    some (if funct3 w = 0b000 then if w.getLsbD 30 then .sub else .add
      else if funct3 w = 0b111 then .and
      else if funct3 w = 0b110 then .or
      else if funct3 w = 0b001 then .sll
      else if funct3 w = 0b101 then .srl
      else .add)
  else if opcode w = 0b0010011 then 
    some (if funct3 w = 0b000 then .addi else if funct3 w = 0b110 then .ori else .addi)
  else if opcode w = 0b0000011 then some .lw
  else if opcode w = 0b1100111 then some .jalr
  else if opcode w = 0b0100011 then some .sw
  else if opcode w = 0b1100011 then
    if funct3 w = 0b000 then some .beq else if funct3 w = 0b001 then some .bne else none
  else if opcode w = 0b1101111 then some .jal
  else none

/-- The wires of a branch without a comparison. -/
def branchOnly : DecoderWires := { ctrlBranch := true, immSel := immB }

theorem wires_takenFor (w : Word) :
    (∃ op ∈ supported, takenFor w = some op ∧ Decoder.wires w = control op) ∨
      (takenFor w = none ∧ (Decoder.wires w = branchOnly ∨ Decoder.wires w = {})) := by
  have hwires : Decoder.wires w = Decoder.switch (opcode w) (funct3 w) (w.getLsbD 30) := rfl
  rw [hwires]
  unfold takenFor Decoder.switch
  split_ifs <;> simp [supported, control, branchOnly]

/-- The state behind an instruction that does nothing. -/
def skip (s : State Mem) : State Mem := { s with pc := s.pc + 4 }

/-- **Every word is executed as the instruction it is taken for**, or skipped. -/
theorem datapath_takenFor (w : Word) (s : State Mem) :
    datapath (Decoder.wires w) (Decoder.imm w) w s = ((takenFor w).map fun op => step wordMem op w s).getD (skip s) := by
  have himm : Decoder.imm w = ImmGen.imm w (Decoder.wires w).immSel := rfl
  rw [himm]
  rcases wires_takenFor w with ⟨op, hop, htaken, hwires⟩ | ⟨htaken, hwires | hwires⟩
  · rw [htaken, hwires, imm_control hop]
    exact datapath_eq hop w s
  · rw [htaken, hwires]
    rfl
  · rw [htaken, hwires]
    rfl

/-! ## When an instruction does nothing -/

/-- A source register, seen from the destination: `x0`, the destination, or another one. -/
inductive Source
  | zero | dest | other
  deriving DecidableEq

def source (d r : RegIdx) : Source := if r = 0 then .zero else if r = d then .dest else .other

/-- The value of a source when the destination holds `x` and the other registers hold `y`. -/
def Source.value (x y : Word) : Source → Word
  | .zero => 0
  | .dest => x
  | .other => y

/-- The sources for which an operation gives the destination back, whatever the registers hold. -/
def givesBack : Mnemonic → Source → Source → Bool
  | .add, .dest, .zero | .add, .zero, .dest => true
  | .or, .dest, .zero | .or, .zero, .dest | .or, .dest, .dest => true
  | .and, .dest, .dest => true
  | .sub, .dest, .zero | .sll, .dest, .zero | .srl, .dest, .zero => true
  | _, _, _ => false

/-- The register operations of the core. -/
def registerOps : List Mnemonic := [.add, .sub, .and, .or, .sll, .srl]

/-- The destination holds `x`, every other register but `x0` holds `y`. -/
def twoValues (d : RegIdx) (x y : Word) : RegFile where
  x := fun q => if q = 0 then 0 else if q = d then x else y
  zero := rfl

theorem twoValues_x (d r : RegIdx) (x y : Word) : (twoValues d x y).x r = (source d r).value x y := by
  unfold twoValues source
  by_cases h0 : r = 0
  · simp only [h0, if_true, Source.value]
  · by_cases hd : r = d
    · simp only [hd, hd ▸ h0, if_false, if_true, Source.value]
    · simp only [h0, hd, if_false, Source.value]

/-- A few values tell which sources give the destination back. -/
theorem givesBack_of_values {op : Mnemonic} (hop : op ∈ registerOps) (a b : Source) (w pc : Word)
    (h : ∀ x y, result op w pc (a.value x y) (b.value x y) = x) : givesBack op a b = true := by
  have h1 := h 1 0
  have h2 := h 0 1
  have h3 := h 1 1
  have h4 := h 2 1
  simp only [registerOps, List.mem_cons, List.not_mem_nil, or_false] at hop
  rcases hop with rfl | rfl | rfl | rfl | rfl | rfl <;> cases a <;> cases b <;>
    simp [result, Source.value, givesBack] at h1 h2 h3 h4 ⊢

theorem result_of_givesBack {op : Mnemonic} {d a b : RegIdx} (h : givesBack op (source d a) (source d b) = true)
    (w pc : Word) (f : RegFile) : result op w pc (f.x a) (f.x b) = f.x d := by
  have hsrc : ∀ r, (source d r = .zero → f.x r = 0) ∧ (source d r = .dest → f.x r = f.x d) := by
    intro r
    unfold source
    by_cases h0 : r = 0
    · rw [h0, if_pos rfl, f.zero]
      exact ⟨fun _ => rfl, nofun⟩
    · rw [if_neg h0]
      by_cases hd : r = d
      · rw [if_pos hd, hd]
        exact ⟨nofun, fun _ => rfl⟩
      · rw [if_neg hd]
        exact ⟨nofun, nofun⟩
  have ha := hsrc a
  have hb := hsrc b
  revert h ha hb
  cases op <;> cases source d a <;> cases source d b <;> intro h ha hb <;> first
    | cases h; done
    | (simp at ha hb; simp [result, ha, hb])

/-- The registers are unchanged exactly if the destination is `x0` or gets its own value. -/
theorem set_eq_self_iff (f : RegFile) (r : RegIdx) (v : Word) : f.set r v = f ↔ r = 0 ∨ v = f.x r := by
  constructor
  · intro h
    by_cases hr : r = 0
    · exact .inl hr
    · right
      have hx : (f.set r v).x r = f.x r := by rw [h]
      rwa [set_self f hr] at hx
  · rintro (rfl | rfl)
    · exact RegFile.set_zero f v
    · apply RegFile.ext
      funext q
      rw [RegFile.set_x]
      by_cases hq : q = r ∧ r ≠ 0
      · rw [if_pos hq, hq.1]
      · rw [if_neg hq]

section Step

variable {w : Word} {op : Mnemonic}

theorem step_compute_iff (hk : op.kind = .compute) (s : State Mem) :
    step wordMem op w s = skip s ↔
      rd w = 0 ∨ result op w s.pc (s.regs.x (rs1 w)) (s.regs.x (rs2 w)) = s.regs.x (rd w) := by
  rw [← set_eq_self_iff]
  unfold step skip
  simp only [hk]
  constructor
  · intro h
    exact congrArg State.regs h
  · intro h
    rw [h]

/-- A register operation does nothing in any state exactly if it gives the destination back. -/
theorem step_registerOp_iff (hop : op ∈ registerOps) :
    (∀ s : State Mem, step wordMem op w s = skip s) ↔
      rd w = 0 ∨ givesBack op (source (rd w) (rs1 w)) (source (rd w) (rs2 w)) = true := by
  have hk : op.kind = .compute := by
    simp only [registerOps, List.mem_cons, List.not_mem_nil, or_false] at hop
    rcases hop with rfl | rfl | rfl | rfl | rfl | rfl <;> rfl
  constructor
  · intro h
    by_cases hrd : rd w = 0
    · exact .inl hrd
    · refine .inr (givesBack_of_values hop _ _ w 0 fun x y => ?_)
      have hs := ((step_compute_iff hk ⟨twoValues (rd w) x y, 0, fun _ => 0⟩).mp (h _)).resolve_left hrd
      simp only [twoValues_x] at hs
      have hd : (source (rd w) (rd w)).value x y = x := by
        unfold source
        rw [if_neg hrd, if_pos rfl]
        rfl
      exact hs.trans hd
  · intro h s
    exact (step_compute_iff hk s).mpr (h.imp_right fun h => result_of_givesBack h w s.pc s.regs)

theorem step_addi_iff : (∀ s : State Mem, step wordMem .addi w s = skip s) ↔
    rd w = 0 ∨ (rs1 w = rd w ∧ Rv32.immI w = 0) := by
  constructor
  · intro h
    by_cases hrd : rd w = 0
    · exact .inl hrd
    right
    have hval : ∀ x y, (source (rd w) (rs1 w)).value x y + Rv32.immI w = x := by
      intro x y
      have hs := ((step_compute_iff rfl ⟨twoValues (rd w) x y, 0, fun _ => 0⟩).mp (h _)).resolve_left hrd
      simp only [twoValues_x, result] at hs
      have hd : (source (rd w) (rd w)).value x y = x := by
        unfold source
        rw [if_neg hrd, if_pos rfl]
        rfl
      exact hs.trans hd
    have h0 := hval 0 0
    have h1 := hval 1 0
    unfold source at h0 h1
    by_cases h10 : rs1 w = 0
    · simp only [h10, if_true, Source.value] at h0 h1
      rw [h0] at h1
      cases h1
    · by_cases h1d : rs1 w = rd w
      · refine ⟨h1d, ?_⟩
        simp only [h1d, hrd, if_false, if_true, Source.value, zero_add] at h0
        exact h0
      · simp only [h10, h1d, if_false, Source.value] at h0 h1
        rw [h0] at h1
        cases h1
  · rintro h s
    refine (step_compute_iff rfl s).mpr (h.imp_right ?_)
    rintro ⟨h1, h2⟩
    show s.regs.x (rs1 w) + Rv32.immI w = _
    rw [h1, h2]
    exact BitVec.add_zero _

/-- Registers that are all zero. -/
def zeroRegs : RegFile := ⟨fun _ => 0, rfl⟩

theorem step_lw_iff : (∀ s : State Mem, step wordMem .lw w s = skip s) ↔ rd w = 0 := by
  constructor
  · intro h
    have hregs := congrArg State.regs (h ⟨zeroRegs, 0, fun _ => 1⟩)
    rcases (set_eq_self_iff _ _ _).mp hregs with hrd | hv
    · exact hrd
    · cases hv
  · intro hrd s
    show ({ s with regs := s.regs.set (rd w) _, pc := s.pc + 4 } : State Mem) = _
    rw [hrd, RegFile.set_zero]
    rfl

/-- A jump does not go on at every pc. -/
theorem step_jalr_ne : ¬ ∀ s : State Mem, step wordMem .jalr w s = skip s := by
  intro h
  have h0 : target .jalr w 0 0 = 0 + 4 := congrArg State.pc (h ⟨zeroRegs, 0, fun _ => 0⟩)
  have h1 : target .jalr w 1 0 = 1 + 4 := congrArg State.pc (h ⟨zeroRegs, 1, fun _ => 0⟩)
  have : target .jalr w 0 0 = target .jalr w 1 0 := rfl
  rw [h0, h1] at this
  cases this

/-- A store does not write what is there in every memory. -/
theorem step_sw_ne : ¬ ∀ s : State Mem, step wordMem .sw w s = skip s := by
  intro h
  have hmem := congrArg State.mem (h ⟨zeroRegs, 0, fun _ => 1⟩)
  have hword := congrFun hmem (wordAddr (zeroRegs.x (rs1 w) + Rv32.immS w))
  have hwrite : (step wordMem .sw w ⟨zeroRegs, 0, fun _ => 1⟩).mem (wordAddr (zeroRegs.x (rs1 w) + Rv32.immS w)) = 0 :=
    if_pos rfl
  rw [hwrite] at hword
  cases hword

end Step

/-! ## Unsupported words -/

/-- The registers and the data memory are as they were, and the pc has gone on. -/
def Unchanged (i : TopIn) (t : TopState) : Prop :=
  (cycle i t).regs = t.regs ∧ (cycle i t).memData = t.memData ∧ (cycle i t).regPC = t.regPC + 4

/-- The word does nothing: it is taken for no instruction; or for a load or a register operation to `x0`; or for a
register operation that gives the destination back. -/
def Harmless (w : Word) : Prop :=
  match takenFor w with
  | none => True
  | some .lw => rd w = 0
  | some .addi => rd w = 0 ∨ (rs1 w = rd w ∧ Rv32.immI w = 0)
  | some op => op ∈ registerOps ∧
      (rd w = 0 ∨ givesBack op (source (rd w) (rs1 w)) (source (rd w) (rs2 w)) = true)

/-- Four of the instructions are decoded by all the bits that their encoding fixes. -/
theorem encodes_of_takenFor {w : Word} {op : Mnemonic} (h : takenFor w = some op)
    (hop : op = .ori ∨ op = .jal ∨ op = .beq ∨ op = .bne) : Encodes op w := by
  unfold takenFor at h
  split_ifs at h <;> cases h <;> first
    | (rcases hop with h | h | h | h <;> cases h; done)
    | (show opcode w = _ ∧ funct3 w = _; constructor <;> assumption)
    | (show opcode w = _; assumption)

variable {i : TopIn} {t : TopState}

/-- The stored registers change exactly if what is read from them does. -/
theorem unchanged_iff (hi : i.instWriteEn = false) (hd : i.dataWriteEn = false) :
    Unchanged i t ↔ datapath (Decoder.wires (inst i t)) (Decoder.imm (inst i t)) (inst i t) (arch t).2 =
      skip (arch t).2 := by
  have hcycle : (arch (cycle i t)).2 =
      datapath (Decoder.wires (inst i t)) (Decoder.imm (inst i t)) (inst i t) (arch t).2 :=
    congrArg Prod.snd (arch_cycle hi hd)
  rw [← hcycle]
  have hzero : ∀ io, Registers.next t.regs io 0 = t.regs 0 := by
    intro io
    unfold Registers.next
    split
    · rename_i h
      have hne : io.bundleReg.rd ≠ 0 := by simpa using (Bool.and_eq_true_iff.mp h).2
      exact if_neg hne.symm
    · rfl
  constructor
  · rintro ⟨hregs, hmem, hpc⟩
    show State.mk ⟨Registers.dataRead (cycle i t).regs, rfl⟩ (cycle i t).regPC (cycle i t).memData = _
    simp only [hregs, hmem, hpc]
    rfl
  · intro h
    refine ⟨funext fun q => ?_, congrArg State.mem h, congrArg State.pc h⟩
    by_cases hq : q = 0
    · rw [hq]
      exact hzero _
    · have hx : Registers.dataRead (cycle i t).regs q = Registers.dataRead t.regs q :=
        congrArg (fun s : State Mem => s.regs.x q) h
      unfold Registers.dataRead at hx
      rwa [if_neg hq, if_neg hq] at hx

/-- A core that is about to execute `w` in the state `s`. -/
def about (w : Word) (s : State Mem) : TopState where
  regPC := s.pc
  regs := s.regs.x
  memInst := fun _ => w
  memData := s.mem

theorem arch_about (w : Word) (s : State Mem) : (arch (about w s)).2 = s := by
  have hregs : Registers.dataRead s.regs.x = s.regs.x := by
    funext q
    unfold Registers.dataRead
    by_cases hq : q = 0
    · rw [if_pos hq, hq, s.regs.zero]
    · rw [if_neg hq]
  unfold arch about
  simp only [hregs]

/-- **Which unsupported words do nothing, whatever the registers, the memory and the pc are.** -/
theorem unsupported_harmless_iff {w : Word} (hw : ¬ Supported w) :
    (∀ i t, i.instWriteEn = false → i.dataWriteEn = false → inst i t = w → Unchanged i t) ↔ Harmless w := by
  have hstates : (∀ i t, i.instWriteEn = false → i.dataWriteEn = false → inst i t = w → Unchanged i t) ↔
      ∀ s, ((takenFor w).map fun op => step wordMem op w s).getD (skip s) = skip s := by
    constructor
    · intro h s
      have hun := (unchanged_iff rfl rfl).mp (h quiet (about w s) rfl rfl rfl)
      rw [arch_about] at hun
      exact (datapath_takenFor w s).symm.trans hun
    · rintro h i t hi hd rfl
      exact (unchanged_iff hi hd).mpr ((datapath_takenFor _ _).trans (h _))
  rw [hstates]
  unfold Harmless
  rcases wires_takenFor w with ⟨op, hop, htaken, -⟩ | ⟨htaken, -⟩
  · have hdecoded : ¬ (op = .ori ∨ op = .jal ∨ op = .beq ∨ op = .bne) := fun h =>
      hw ⟨op, hop, encodes_of_takenFor htaken h⟩
    simp only [htaken, Option.map_some, Option.getD_some]
    cases op <;> first
      | exact absurd hop (by decide)
      | skip
    case ori | jal | beq | bne => exact absurd (by simp) hdecoded
    case lw => exact step_lw_iff
    case addi => exact step_addi_iff
    case jalr => simpa [registerOps] using step_jalr_ne
    case sw => simpa [registerOps] using step_sw_ne
    all_goals
      refine (step_registerOp_iff (by simp [registerOps])).trans ?_
      simp [registerOps]
  · rw [htaken]
    simp

/-- `xor x1, x1, x0` is executed as `add` and gives `x1` back. -/
theorem xor_zero_harmless : ¬ ∃ i t, i.instWriteEn = false ∧ i.dataWriteEn = false ∧ inst i t = 0x0000c0b3 ∧
    ¬ Unchanged i t := by
  rintro ⟨i, t, hi, hd, hinst, hnot⟩
  have htaken : takenFor 0x0000c0b3 = some .add := by decide
  have hharmless : Harmless 0x0000c0b3 := by
    unfold Harmless
    rw [htaken]
    decide
  exact hnot ((unsupported_harmless_iff (by decide)).mpr hharmless i t hi hd hinst)

/-- `xor x1, x1, x1` at every address, and 7 in every register. -/
def xorSevens : TopState where
  regPC := 0
  regs := fun _ => 7
  memInst := fun _ => 0x0010c0b3
  memData := fun _ => 0

/-- It is executed as `add`, which leaves 14 in `x1`. -/
theorem xor_changes : ¬ Supported (inst quiet xorSevens) ∧ (cycle quiet xorSevens).regs 1 = 14 ∧
    ¬ Unchanged quiet xorSevens := by
  refine ⟨by decide, by decide, fun h => ?_⟩
  exact absurd (congrFun h.1 1) (by decide)

end Chisel
