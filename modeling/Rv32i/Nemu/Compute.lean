import Rv32i.Nemu.Refine

/-!
# NEMU: the integer computational instructions

All but two of them compute the specified value (`refines_compute`).  The two are

* `slti`, which compares `(int32_t)src1 < imm` with an unsigned `imm`, so as unsigned numbers;
* `sltiu`, which compares with the low twelve bits of the immediate.

`compute_refines_iff` gives for every encoding the operands on which the step is still the specified one.
-/

namespace Nemu

open Rv32

/-! ## Shift amounts and flags -/

theorem toNat_and_31 (x : Word) : (x &&& 0x1f).toNat = x.toNat % 32 := by
  rw [BitVec.toNat_and]
  exact Nat.and_two_pow_sub_one_eq_mod x.toNat 5

/-- The five low bits of an I immediate are the shift amount. -/
theorem immI_mod_32 (w : Word) : (Rv32.immI w).toNat % 32 = (shamt w).toNat := by
  rw [← toNat_and_31]
  have : Rv32.immI w &&& 0x1f = (shamt w).setWidth 32 := by
    unfold Rv32.immI shamt
    apply BitVec.eq_of_getLsbD_eq
    intro i hi
    have h31 : (0x1f : Word).getLsbD i = decide (i < 5) := by
      interval_cases i <;> decide
    rw [BitVec.getLsbD_and, h31, BitVec.getLsbD_signExtend, BitVec.getLsbD_setWidth, BitVec.getLsbD_extractLsb',
      BitVec.getLsbD_extractLsb']
    by_cases h5 : i < 5
    · simp [h5, hi, show i < 12 by omega]
    · simp [h5]
  rw [this, BitVec.toNat_setWidth]
  have := (shamt w).isLt
  omega

theorem flag_eq_iff (a b : Bool) : flag a = flag b ↔ a = b := by
  cases a <;> cases b <;> decide

/-- The unsigned comparison agrees with the signed one exactly on operands of one sign. -/
theorem ult_eq_slt_iff (a b : Word) : a.ult b = a.slt b ↔ a.msb = b.msb := by
  rw [BitVec.slt_eq_ult]
  cases a.msb <;> cases b.msb <;> cases a.ult b <;> decide

/-- Comparing with the low bits of `b` agrees with comparing with `b` outside the window between them. -/
theorem ult_low_eq_ult_iff (a b : Word) : a.ult (b &&& 0xfff) = a.ult b ↔ a < b &&& 0xfff ∨ b ≤ a := by
  have hle : (b &&& 0xfff).toNat ≤ b.toNat := by
    rw [BitVec.toNat_and]
    exact Nat.and_le_left
  unfold BitVec.ult
  rw [BitVec.lt_def, BitVec.le_def, decide_eq_decide]
  omega

/-! ## Values -/

/-- The operands on which an instruction computes the specified value. -/
def ValueRight (op : Mnemonic) (w x1 : Word) : Prop :=
  match op with
  | .slti => x1.msb = (Rv32.immI w).msb
  | .sltiu => x1 < Rv32.immI w &&& 0xfff ∨ Rv32.immI w ≤ x1
  | _ => True

instance (op : Mnemonic) (w x1 : Word) : Decidable (ValueRight op w x1) := by
  unfold ValueRight; cases op <;> infer_instance

variable {op : Mnemonic} {s : Decode} {m : Machine}

/-- On such operands, or if `rd` is `x0`, the step is the specified one. -/
theorem refines_compute (h : Fetches op s m) (hkind : op.kind = .compute)
    (hvalue : rd (fetched m s.pc) = 0 ∨ ValueRight op (fetched m s.pc) (m.cpu.gpr (rs1 (fetched m s.pc)))) :
    Refines op s m h.zero := by
  cases op <;> first
    | cases hkind; done
    | rw [refines_wr rfl h (.inl rfl)]
      refine hvalue.imp_right fun hright => ?_
      simp only [operands_R, operands_I, operands_U, result]
  case slti => exact (flag_eq_iff _ _).mpr ((ult_eq_slt_iff _ _).mpr hright)
  case sltiu => exact (flag_eq_iff _ _).mpr ((ult_low_eq_ult_iff _ _).mpr hright)
  case sll | srl | sra | slli | srli | srai =>
    simp only [BitVec.shiftLeft_eq', BitVec.ushiftRight_eq', BitVec.sshiftRight_eq', toNat_and_31, immI_mod_32]
  all_goals rfl

/-- **When a computational instruction makes the specified step.**  The registers, the memory and the
next pc are the specified ones exactly when `rd` is `x0` or the operands are outside the two faults. -/
theorem compute_refines_iff (h : Fetches op s m) (hkind : op.kind = .compute) :
    Refines op s m h.zero ↔
      rd (fetched m s.pc) = 0 ∨ ValueRight op (fetched m s.pc) (m.cpu.gpr (rs1 (fetched m s.pc))) := by
  refine ⟨fun href => ?_, refines_compute h hkind⟩
  cases op <;> first
    | cases hkind; done
    | exact .inr trivial
    | rw [refines_wr rfl h (.inl rfl)] at href
      refine href.imp_right fun heq => ?_
      simp only [operands_I, result] at heq
  case slti => exact (ult_eq_slt_iff _ _).mp ((flag_eq_iff _ _).mp heq)
  case sltiu => exact (ult_low_eq_ult_iff _ _).mp ((flag_eq_iff _ _).mp heq)

/-- `sltiu x1, x2, -1` with `x2 = 7` is outside the faults: the low bits of the immediate exceed 7. -/
theorem sltiu_refines : Refines .sltiu atReset (oneInst 0xfff13093 7) rfl :=
  (compute_refines_iff ⟨rfl, by decide, rfl, by decide⟩ rfl).mpr (by decide)

/-- `slti x1, x2, -1` with `x2 = 1` writes 1, and `sltiu x1, x2, -1` with `x2 = 0x1000` writes 0. -/
theorem slti_sltiu_wrong : ¬ Refines .slti atReset (oneInst 0xfff12093 1) rfl ∧
    ¬ Refines .sltiu atReset (oneInst 0xfff13093 0x1000) rfl := by
  constructor
  · rw [refines_wr rfl ⟨rfl, by decide, rfl, by decide⟩ (.inl rfl)]
    decide
  · rw [refines_wr rfl ⟨rfl, by decide, rfl, by decide⟩ (.inl rfl)]
    decide

end Nemu
