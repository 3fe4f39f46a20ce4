import Rv32i.Nemu.Refine

/-!
# NEMU: jumps and branches

`jal` and the six branches go where the specification says, for every operand.  `jalr` does not clear
bit 0 of the target, so it makes the specified step exactly when `rs1 + imm` is even
(`control_refines_iff`).
-/

namespace Nemu

open Rv32

variable {op : Mnemonic} {s : Decode} {m : Machine}

/-- An execution that writes the return address and goes to `t` refines a jump exactly when `t` is the
specified target. -/
theorem refines_jump (h : Fetches op s m) (hkind : op.kind = .jump) {t : Word}
    (hexec : isaExecOnce s m =
      .ok ({ decoded s m with dnpc := t }, (m.setR (rd (fetched m s.pc)) (s.pc + 4)).setR 0 0)) :
    Refines op s m h.zero ↔ t = target op (fetched m s.pc) s.pc (m.cpu.gpr (rs1 (fetched m s.pc))) := by
  have hstep : step byteMem op (fetched m s.pc) (arch m s.pc h.zero) =
      { arch m s.pc h.zero with
        regs := (arch m s.pc h.zero).regs.set (rd (fetched m s.pc)) (s.pc + 4)
        pc := target op (fetched m s.pc) s.pc (m.cpu.gpr (rs1 (fetched m s.pc))) } := by
    unfold step
    rw [hkind]
    rfl
  unfold Refines
  rw [hstep]
  constructor
  · rintro ⟨s', m', hok, -, -, hpc, -⟩
    rw [hexec] at hok
    cases hok
    exact hpc
  · intro ht
    exact ⟨_, _, hexec, setR_zero_gpr h.zero _ _, rfl, ht, rfl⟩

/-- A branch body refines its step when its condition is the specified one. -/
theorem refines_branch (h : Fetches op s m) (hkind : op.kind = .branch) {p : String} {c : Word → Word → Bool}
    (hfind : namedTable.find? (fun e => e.name = some op) = some ⟨p, some op, .B, br c⟩)
    (hc : ∀ a b, c a b = taken op a b) : Refines op s m h.zero := by
  have hstep : step byteMem op (fetched m s.pc) (arch m s.pc h.zero) =
      { arch m s.pc h.zero with
        pc := if taken op (m.cpu.gpr (rs1 (fetched m s.pc))) (m.cpu.gpr (rs2 (fetched m s.pc)))
          then s.pc + Rv32.immB (fetched m s.pc) else s.pc + 4 } := by
    unfold step
    rw [hkind]
    rfl
  have hexec := isaExecOnce_eq hfind h
  rw [operands_B] at hexec
  unfold Refines
  rw [hstep]
  refine ⟨_, _, hexec, setR_zero_self h.zero, rfl, ?_, rfl⟩
  rw [← hc]
  rfl

/-- Clearing bit 0 leaves exactly the even words as they are. -/
theorem eq_clear_bit0_iff (a : Word) : a = a &&& ~~~1#32 ↔ a.getLsbD 0 = false := by
  constructor
  · intro h
    rw [h, BitVec.getLsbD_and]
    simp
  · intro h
    apply BitVec.eq_of_getLsbD_eq
    intro i hi
    rw [BitVec.getLsbD_and, BitVec.getLsbD_not, BitVec.getLsbD_one]
    by_cases h0 : i = 0
    · subst h0
      rw [h]
      rfl
    · simp only [hi, h0, decide_true, decide_false, Bool.and_false, Bool.not_false, Bool.and_true]

/-- The operands on which a jump goes where it should. -/
def TargetRight (op : Mnemonic) (w x1 : Word) : Prop :=
  op = .jalr → (x1 + Rv32.immI w).getLsbD 0 = false

instance (op : Mnemonic) (w x1 : Word) : Decidable (TargetRight op w x1) := by
  unfold TargetRight; infer_instance

/-- On such operands the step is the specified one. -/
theorem refines_control (h : Fetches op s m) (hkind : op.kind = .jump ∨ op.kind = .branch)
    (htarget : TargetRight op (fetched m s.pc) (m.cpu.gpr (rs1 (fetched m s.pc)))) : Refines op s m h.zero := by
  cases op <;> first
    | rcases hkind with hk | hk <;> cases hk; done
    | skip
  case jal =>
    have hexec := @isaExecOnce_eq .jal _ _ _ rfl h
    rw [operands_J] at hexec
    exact (refines_jump h rfl hexec).mpr rfl
  case jalr =>
    have hexec := @isaExecOnce_eq .jalr _ _ _ rfl h
    rw [operands_I] at hexec
    exact (refines_jump h rfl hexec).mpr ((eq_clear_bit0_iff _).mpr (htarget rfl))
  all_goals
    refine refines_branch h rfl rfl fun a b => ?_
    simp [taken, BitVec.slt, BitVec.sle, BitVec.ult, BitVec.ule, bne, beq_eq_decide]

/-- **When a jump or a branch makes the specified step**: always, but for a `jalr` to an odd sum. -/
theorem control_refines_iff (h : Fetches op s m) (hkind : op.kind = .jump ∨ op.kind = .branch) :
    Refines op s m h.zero ↔ TargetRight op (fetched m s.pc) (m.cpu.gpr (rs1 (fetched m s.pc))) := by
  refine ⟨fun href hop => ?_, refines_control h hkind⟩
  subst hop
  have hexec := @isaExecOnce_eq .jalr _ _ _ rfl h
  rw [operands_I] at hexec
  exact (eq_clear_bit0_iff _).mp ((refines_jump h rfl hexec).mp href)

/-- `jalr x1, 4(x1)` with an even `x1`: the base is read before the link register is written. -/
theorem jalr_refines : Refines .jalr atReset (oneInst 0x004080e7 0x80000010) rfl :=
  (control_refines_iff ⟨rfl, by decide, rfl, by decide⟩ (.inl rfl)).mpr (by decide)

/-- `jalr x1, 1(x1)` goes to an odd address. -/
theorem jalr_odd : ¬ Refines .jalr atReset (oneInst 0x001080e7 0x80000010) rfl := by
  have h : Fetches .jalr atReset (oneInst 0x001080e7 0x80000010) := ⟨rfl, by decide, rfl, by decide⟩
  have hexec := @isaExecOnce_eq .jalr _ _ _ rfl h
  rw [operands_I] at hexec
  rw [refines_jump h rfl hexec]
  decide

end Nemu
