import Rv32i.Nemu.Table
import Rv32i.Chisel.Assembler
import Rv32i.Chisel.Top

/-!
# What the decoders read in the assembled words

* `Reads` — the decoder of the core and `decode_operand` of NEMU read given registers and a given immediate;
* `reads_of_fields` — they read what the specification's fields and immediates are;
* `encode_decode` — they read back what the assemblers wrote, and the same immediate in every word.
-/

namespace Chisel

open Rv32

/-- The immediate that the specification reads in a format. -/
def specImm : Nemu.OpType → Word → Word
  | .I => Rv32.immI | .S => Rv32.immS | .B => Rv32.immB | .J => Rv32.immJ | .U => Rv32.immU | _ => fun _ => 0

/-- `immSel` for a format. -/
def selOf : Nemu.OpType → BitVec 3
  | .I => immI | .S => immS | .B => immB | .J => immJ | _ => immX

/-- The four formats of the core. -/
def formats : List Nemu.OpType := [.I, .S, .B, .J]

theorem immGen_eq {type : Nemu.OpType} (h : type ∈ formats) (w : Word) :
    ImmGen.imm w (selOf type) = specImm type w := by
  simp only [formats, List.mem_cons, List.not_mem_nil, or_false] at h
  rcases h with rfl | rfl | rfl | rfl
  · exact immGen_immI w
  · exact immGen_immS w
  · exact immGen_immB w
  · exact immGen_immJ w

theorem decodeOperand_imm (type : Nemu.OpType) (s : Nemu.Decode) (cpu : Nemu.CPUState) :
    (Nemu.decodeOperand s cpu type).imm = specImm type s.inst := by
  rw [Nemu.decodeOperand_eq]
  cases type <;> rfl

/-- The opcodes for which the decoder of the core selects the immediate of a format. -/
def opcodesOf : Nemu.OpType → List (BitVec 7)
  | .I => [0b0010011, 0b0000011, 0b1100111] | .S => [0b0100011] | .B => [0b1100011] | .J => [0b1101111] | _ => []

theorem selOf_eq {type : Nemu.OpType} {w : Word} (h : opcode w ∈ opcodesOf type) :
    (Decoder.wires w).immSel = selOf type := by
  have hw : Decoder.wires w = Decoder.switch (opcode w) (w.extractLsb' 12 3) (w.getLsbD 30) := rfl
  rw [hw]
  cases type <;> simp only [opcodesOf, List.mem_cons, List.not_mem_nil, or_false] at h
  case I =>
    rcases h with h | h | h <;> rw [h] <;> rfl
  all_goals rw [h]; rfl

/-! ## Immediates that a format can hold -/

/-- A signed number of `n` bits. -/
def Fits (imm : Word) (n : ℕ) : Prop := -2 ^ (n - 1) ≤ imm.toInt ∧ imm.toInt < 2 ^ (n - 1)

instance (imm : Word) (n : ℕ) : Decidable (Fits imm n) := by
  unfold Fits; infer_instance

theorem Fits.signExtend {imm : Word} {n : ℕ} (h : Fits imm n) (hpos : 0 < n) (hn : n ≤ 32) :
    (imm.setWidth n).signExtend 32 = imm := by
  obtain ⟨k, rfl⟩ : ∃ k, n = k + 1 := ⟨n - 1, by omega⟩
  obtain ⟨hlo, hhi⟩ := h
  have hdvd : (2 ^ (k + 1) : ℕ) ∣ 2 ^ 32 := Nat.pow_dvd_pow 2 hn
  apply BitVec.eq_of_toInt_eq
  rw [BitVec.toInt_signExtend_of_le hn, BitVec.toInt_setWidth, ← Int.bmod_bmod_of_dvd hdvd,
    ← BitVec.toInt_eq_toNat_bmod]
  rw [Nat.add_sub_cancel] at hlo hhi
  apply Int.bmod_eq_of_le
  · push_cast [pow_succ]
    omega
  · push_cast [pow_succ]
    omega

/-- An even number is its bits from bit 1 on with a zero behind them. -/
theorem append_zero {imm : Word} (h : imm &&& 1 = 0) (n : ℕ) :
    imm.extractLsb' 1 n ++ 0#1 = imm.setWidth (n + 1) := by
  have h0 : imm.getLsbD 0 = false := by
    have := congrArg (fun v => v.getLsbD 0) h
    simpa using this
  apply BitVec.eq_of_getLsbD_eq
  intro i hi
  rw [BitVec.getLsbD_append, BitVec.getLsbD_setWidth, BitVec.getLsbD_extractLsb']
  cases i with
  | zero => simpa using h0
  | succ i => simp [Nat.add_comm 1 i, show i < n by omega]

/-! ## Words that are read back -/

/-- Both decoders read the registers that are given and the immediate: the core's, with the immediate generator
set to the format and also as it sets it itself for the opcodes it knows, and NEMU's, whose source operands are
the values of the source registers. -/
structure Reads (w : Word) (type : Nemu.OpType) (r1 r2 d : Option RegIdx) (imm : Word) : Prop where
  immGen : ImmGen.imm w (selOf type) = imm
  decoder : opcode w ∈ opcodesOf type → Decoder.imm w = imm
  decoderRs1 : ∀ r ∈ r1, (Decoder.bundleReg w).rs1 = r
  decoderRs2 : ∀ r ∈ r2, (Decoder.bundleReg w).rs2 = r
  decoderRd : ∀ r ∈ d, (Decoder.bundleReg w).rd = r
  operandImm : ∀ s cpu, s.inst = w → (Nemu.decodeOperand s cpu type).imm = imm
  operandSrc1 : ∀ s cpu, s.inst = w → ∀ r ∈ r1, (Nemu.decodeOperand s cpu type).src1 = cpu.gpr r
  operandSrc2 : ∀ s cpu, s.inst = w → ∀ r ∈ r2, (Nemu.decodeOperand s cpu type).src2 = cpu.gpr r
  operandRd : ∀ s cpu, s.inst = w → ∀ r ∈ d, (Nemu.decodeOperand s cpu type).rd = r

/-- The source registers that a format has. -/
def sources : Nemu.OpType → Bool × Bool
  | .I => (true, false) | .S => (true, true) | .B => (true, true) | _ => (false, false)

/-- It is enough that the fields and the immediate of the specification are the given ones. -/
theorem reads_of_fields {w : Word} {type : Nemu.OpType} {r1 r2 d : Option RegIdx} {imm : Word}
    (htype : type ∈ formats) (himm : specImm type w = imm) (h1 : ∀ r ∈ r1, (sources type).1 = true ∧ rs1 w = r)
    (h2 : ∀ r ∈ r2, (sources type).2 = true ∧ rs2 w = r) (hd : ∀ r ∈ d, rd w = r) : Reads w type r1 r2 d imm where
  immGen := (immGen_eq htype w).trans himm
  decoder := fun h => by
    show ImmGen.imm w (Decoder.wires w).immSel = imm
    rw [selOf_eq h, immGen_eq htype, himm]
  decoderRs1 := fun r hr => (h1 r hr).2
  decoderRs2 := fun r hr => (h2 r hr).2
  decoderRd := hd
  operandImm := fun s cpu hs => by rw [decodeOperand_imm, hs, himm]
  operandSrc1 := fun s cpu hs r hr => by
    obtain ⟨hsrc, rfl⟩ := h1 r hr
    rw [Nemu.decodeOperand_eq, hs]
    revert hsrc
    cases type <;> simp [sources]
  operandSrc2 := fun s cpu hs r hr => by
    obtain ⟨hsrc, rfl⟩ := h2 r hr
    rw [Nemu.decodeOperand_eq, hs]
    revert hsrc
    cases type <;> simp [sources]
  operandRd := fun s cpu hs r hr => by
    rw [Nemu.decodeOperand_eq, hs]
    exact hd r hr

section Assembled

variable (r1 r2 d : RegIdx) (imm f3 o : Word)

/-- A register number as an argument of an assembler. -/
abbrev arg (r : RegIdx) : Word := r.setWidth 32

theorem setWidth_arg (r : RegIdx) : (arg r).setWidth 5 = r := by
  rw [BitVec.setWidth_setWidth_of_le _ (by decide), BitVec.setWidth_eq]

theorem reads_encodeI (h : Fits imm 12) :
    Reads (Isa.encodeI imm (arg r1) f3 (arg d) o) .I (some r1) none (some d) imm := by
  rw [Isa.encodeI_eq, setWidth_arg, setWidth_arg]
  obtain ⟨-, hd, -, h1, himm⟩ := fieldsI (o.setWidth 7) r1 d (f3.setWidth 3) (imm.setWidth 12)
  refine reads_of_fields (by decide) (himm.trans (h.signExtend (by decide) (by decide))) ?_ (by simp) ?_
  · rintro r ⟨⟩
    exact ⟨rfl, h1⟩
  · rintro r ⟨⟩
    exact hd

theorem reads_encodeS (h : Fits imm 12) :
    Reads (Isa.encodeS imm (arg r2) (arg r1) f3 o) .S (some r1) (some r2) none imm := by
  rw [Isa.encodeS_eq, setWidth_arg, setWidth_arg]
  obtain ⟨-, -, h1, h2, himm⟩ := fieldsS (o.setWidth 7) r1 r2 (f3.setWidth 3) (imm.setWidth 12)
  refine reads_of_fields (by decide) (himm.trans (h.signExtend (by decide) (by decide))) ?_ ?_ (by simp)
  · rintro r ⟨⟩
    exact ⟨rfl, h1⟩
  · rintro r ⟨⟩
    exact ⟨rfl, h2⟩

theorem reads_encodeB (h : Fits imm 13) (heven : imm &&& 1 = 0) :
    ∃ w, Isa.encodeB imm (arg r2) (arg r1) f3 o = .ok w ∧ Reads w .B (some r1) (some r2) none imm := by
  refine ⟨_, Isa.encodeB_eq imm (arg r1) (arg r2) f3 o heven, ?_⟩
  rw [setWidth_arg, setWidth_arg]
  obtain ⟨-, -, h1, h2, himm⟩ := fieldsB (o.setWidth 7) r1 r2 (f3.setWidth 3) (imm.extractLsb' 1 12)
  rw [append_zero heven 12, h.signExtend (by decide) (by decide)] at himm
  refine reads_of_fields (by decide) himm ?_ ?_ (by simp)
  · rintro r ⟨⟩
    exact ⟨rfl, h1⟩
  · rintro r ⟨⟩
    exact ⟨rfl, h2⟩

theorem reads_encodeJ (h : Fits imm 21) (heven : imm &&& 1 = 0) :
    ∃ n, TinyRv32Asm.encodeJ imm (arg d) o = .ok n ∧ Reads (BitVec.ofNat 32 n) .J none none (some d) imm := by
  have hword := TinyRv32Asm.encodeJ_eq imm (arg d) o heven
  obtain ⟨n, hn⟩ : ∃ n, TinyRv32Asm.encodeJ imm (arg d) o = .ok n := by
    cases henc : TinyRv32Asm.encodeJ imm (arg d) o with
    | error e =>
      rw [henc] at hword
      cases hword
    | ok n => exact ⟨n, rfl⟩
  refine ⟨n, hn, ?_⟩
  rw [hn, setWidth_arg] at hword
  rw [Except.ok.inj hword]
  obtain ⟨-, hd, himm⟩ := fieldsJ (o.setWidth 7) d (imm.extractLsb' 1 20)
  rw [append_zero heven 20, h.signExtend (by decide) (by decide)] at himm
  refine reads_of_fields (by decide) himm (by simp) (by simp) ?_
  rintro r ⟨⟩
  exact hd

end Assembled

/-- **The decoders read back what the assemblers wrote**, for every register and every immediate that the format
can hold, and they read the same immediate in every word. -/
theorem encode_decode (r1 r2 d : RegIdx) (imm f3 o : Word) :
    (Fits imm 12 → Reads (Isa.encodeI imm (arg r1) f3 (arg d) o) .I (some r1) none (some d) imm) ∧
    (Fits imm 12 → Reads (Isa.encodeS imm (arg r2) (arg r1) f3 o) .S (some r1) (some r2) none imm) ∧
    (Fits imm 13 → imm.toInt % 2 = 0 →
      ∃ w, Isa.encodeB imm (arg r2) (arg r1) f3 o = .ok w ∧ Reads w .B (some r1) (some r2) none imm) ∧
    (Fits imm 21 → imm.toInt % 2 = 0 →
      ∃ n, TinyRv32Asm.encodeJ imm (arg d) o = .ok n ∧ Reads (BitVec.ofNat 32 n) .J none none (some d) imm) ∧
    ∀ type ∈ formats, ∀ s cpu, ImmGen.imm s.inst (selOf type) = (Nemu.decodeOperand s cpu type).imm := by
  have heven : imm.toInt % 2 = 0 → imm &&& 1 = 0 := fun h =>
    (tmod_eq_zero_iff imm).mp (Int.tmod_eq_zero_of_dvd (Int.dvd_of_emod_eq_zero h))
  refine ⟨reads_encodeI r1 d imm f3 o, reads_encodeS r1 r2 imm f3 o, fun h h0 => ?_, fun h h0 => ?_, ?_⟩
  · exact reads_encodeB r1 r2 imm f3 o h (heven h0)
  · exact reads_encodeJ d imm o h (heven h0)
  · intro type htype s cpu
    rw [immGen_eq htype, decodeOperand_imm]

/-- The most negative branch, `beq x1, x2, -4096`. -/
theorem encode_decode_far : ∃ w, Isa.encodeB (-4096) (arg 2) (arg 1) 0 0x63 = .ok w ∧
    Reads w .B (some 1) (some 2) none (-4096) :=
  (encode_decode 1 2 0 (-4096) 0 0x63).2.2.1 (by decide) (by decide)

end Chisel
