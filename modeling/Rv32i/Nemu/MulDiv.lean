import Rv32i.Nemu.Refine

/-!
# NEMU: multiplication and division

`mul` and `mulh` compute the specified value.  The divisions are C divisions: they compute the specified
value wherever C defines them, and trap the host on a zero divisor and on `-2 ^ 31 / -1`, which the
specification does define (`muldiv_refines_iff`).
-/

namespace Nemu

open Rv32

/-! ## Values -/

/-- The high word of the wrapped unsigned product of the sign-extended operands is that of the signed
product: it fits 64 bits. -/
theorem mulh_eq (a b : Word) :
    ((sext a 32 * sext b 32) >>> 32).setWidth 32 = BitVec.ofInt 32 (a.toInt * b.toInt / 2 ^ 32) := by
  have hsext : ∀ x : Word, (sext x 32).toInt = x.toInt := by
    intro x
    unfold sext
    rw [BitVec.setWidth_eq, BitVec.toInt_signExtend_of_le (by decide)]
  have hprod : (sext a 32 * sext b 32).toInt = a.toInt * b.toInt := by
    rw [BitVec.toInt_mul, hsext, hsext]
    have ha := a.le_toInt
    have ha' := a.toInt_lt
    have hb := b.le_toInt
    have hb' := b.toInt_lt
    have habs : |a.toInt * b.toInt| ≤ 2 ^ 31 * 2 ^ 31 := by
      rw [abs_mul]
      exact mul_le_mul (abs_le.mpr ⟨by omega, by omega⟩) (abs_le.mpr ⟨by omega, by omega⟩) (abs_nonneg _)
        (by decide)
    have hlo := (abs_le.mp habs).1
    have hhi := (abs_le.mp habs).2
    generalize a.toInt * b.toInt = p at *
    apply Int.bmod_eq_of_le <;> omega
  -- the low 32 bits after the shift do not depend on what is shifted in
  have harith : ((sext a 32 * sext b 32) >>> 32).setWidth 32 =
      ((sext a 32 * sext b 32).sshiftRight 32).setWidth 32 := by
    apply BitVec.eq_of_getLsbD_eq
    intro i hi
    have h1 : ¬ 64 ≤ i := by omega
    have h2 : 32 + i < 64 := by omega
    simp only [BitVec.getLsbD_setWidth, BitVec.getLsbD_ushiftRight, BitVec.getLsbD_sshiftRight, h1, h2,
      decide_false, Bool.not_false, Bool.true_and, if_true]
  rw [harith, BitVec.sshiftRight_eq, hprod, Int.shiftRight_eq_div_pow]
  apply BitVec.eq_of_toInt_eq
  rw [BitVec.toInt_ofInt, ← BitVec.signExtend_eq_setWidth_of_le _ (by decide), BitVec.toInt_signExtend,
    BitVec.toInt_ofInt]
  exact Int.bmod_bmod_of_dvd (by decide)

/-- Where C defines the signed quotient, it is the specified one. -/
theorem sdiv_eq {a b : Word} (h : sdivUndef a b = false) (w pc : Word) : a.sdiv b = result .div w pc a b := by
  have hu : ¬ (b = 0 ∨ (a = intMin ∧ b = -1)) := by simpa [sdivUndef] using h
  rw [not_or] at hu
  have hval : result .div w pc a b = BitVec.ofInt 32 (a.toInt.tdiv b.toInt) :=
    (if_neg hu.1).trans (if_neg hu.2)
  rw [hval]
  apply BitVec.eq_of_toInt_eq
  rw [BitVec.toInt_sdiv, BitVec.toInt_ofInt]

theorem srem_eq {a b : Word} (h : sdivUndef a b = false) (w pc : Word) : a.srem b = result .rem w pc a b := by
  have hu : ¬ (b = 0 ∨ (a = intMin ∧ b = -1)) := by simpa [sdivUndef] using h
  rw [not_or] at hu
  have hval : result .rem w pc a b = BitVec.ofInt 32 (a.toInt.tmod b.toInt) :=
    (if_neg hu.1).trans (if_neg hu.2)
  rw [hval, ← BitVec.toInt_srem, BitVec.ofInt_toInt]

theorem udiv_eq {a b : Word} (h : udivUndef a b = false) (w pc : Word) : a.udiv b = result .divu w pc a b := by
  have hu : ¬ b = 0 := by simpa [udivUndef] using h
  have hval : result .divu w pc a b = BitVec.ofNat 32 (a.toNat / b.toNat) := if_neg hu
  rw [hval, ← BitVec.toNat_udiv, BitVec.ofNat_toNat, BitVec.setWidth_eq]
  rfl

theorem umod_eq {a b : Word} (h : udivUndef a b = false) (w pc : Word) : a.umod b = result .remu w pc a b := by
  have hu : ¬ b = 0 := by simpa [udivUndef] using h
  have hval : result .remu w pc a b = BitVec.ofNat 32 (a.toNat % b.toNat) := if_neg hu
  rw [hval, ← BitVec.toNat_umod, BitVec.ofNat_toNat, BitVec.setWidth_eq]
  rfl

/-! ## Execution -/

variable {op : Mnemonic} {s : Decode} {m : Machine}

/-- A division body refines its step exactly where C defines the division. -/
theorem refines_wrDiv {p : String} {undef : Word → Word → Bool} {f : Word → Word → Word}
    (hfind : namedTable.find? (fun e => e.name = some op) = some ⟨p, some op, .R, wrDiv undef f⟩)
    (h : Fetches op s m) (hkind : op.kind = .muldiv)
    (hval : ∀ a b, undef a b = false → ∀ w pc, f a b = result op w pc a b) :
    Refines op s m h.zero ↔
      undef (m.cpu.gpr (rs1 (fetched m s.pc))) (m.cpu.gpr (rs2 (fetched m s.pc))) = false := by
  have hexec := isaExecOnce_eq hfind h
  rw [operands_R] at hexec
  cases hu : undef (m.cpu.gpr (rs1 (fetched m s.pc))) (m.cpu.gpr (rs2 (fetched m s.pc))) with
  | true =>
    -- the host traps: nothing is returned
    have htrap : isaExecOnce s m = .error .trap := by
      rw [hexec]
      simp only [wrDiv, hu, if_true]
      rfl
    refine iff_of_false ?_ (by simp)
    rintro ⟨s', m', hok, -⟩
    rw [htrap] at hok
    cases hok
  | false =>
    have hwr : isaExecOnce s m = .ok (decoded s m, (m.setR (rd (fetched m s.pc))
        (f (m.cpu.gpr (rs1 (fetched m s.pc))) (m.cpu.gpr (rs2 (fetched m s.pc))))).setR 0 0) := by
      rw [hexec]
      simp only [wrDiv, hu]
      rfl
    rw [refines_iff_of_wr h (.inr hkind) hwr]
    exact iff_of_true (.inr (hval _ _ hu _ _)) rfl

/-- The operands on which C defines the arithmetic of the instruction. -/
def ArithDefined (op : Mnemonic) (x1 x2 : Word) : Prop :=
  match op with
  | .div | .rem => x2 ≠ 0 ∧ ¬ (x1 = intMin ∧ x2 = -1)
  | .divu | .remu => x2 ≠ 0
  | _ => True

instance (op : Mnemonic) (x1 x2 : Word) : Decidable (ArithDefined op x1 x2) := by
  unfold ArithDefined; cases op <;> infer_instance

theorem sdivUndef_eq_false_iff (a b : Word) : sdivUndef a b = false ↔ b ≠ 0 ∧ ¬ (a = intMin ∧ b = -1) := by
  unfold sdivUndef
  rw [decide_eq_false_iff_not, not_or]

/-- On such operands the step is the specified one. -/
theorem refines_muldiv (h : Fetches op s m) (hkind : op.kind = .muldiv)
    (hdef : ArithDefined op (m.cpu.gpr (rs1 (fetched m s.pc))) (m.cpu.gpr (rs2 (fetched m s.pc)))) :
    Refines op s m h.zero := by
  cases op <;> first
    | cases hkind; done
    | skip
  case mul => exact (refines_wr rfl h (.inr rfl)).mpr (.inr (by rw [operands_R]; rfl))
  case mulh => exact (refines_wr rfl h (.inr rfl)).mpr (.inr (by rw [operands_R]; exact mulh_eq _ _))
  case div => exact (refines_wrDiv rfl h rfl fun a b hu => sdiv_eq hu).mpr ((sdivUndef_eq_false_iff _ _).mpr hdef)
  case rem => exact (refines_wrDiv rfl h rfl fun a b hu => srem_eq hu).mpr ((sdivUndef_eq_false_iff _ _).mpr hdef)
  case divu => exact (refines_wrDiv rfl h rfl fun a b hu => udiv_eq hu).mpr (decide_eq_false hdef)
  case remu => exact (refines_wrDiv rfl h rfl fun a b hu => umod_eq hu).mpr (decide_eq_false hdef)

/-- **When a multiplication or division makes the specified step**: exactly when the divisor is not
zero and the signed quotient does not overflow. -/
theorem muldiv_refines_iff (h : Fetches op s m) (hkind : op.kind = .muldiv) :
    Refines op s m h.zero ↔
      ArithDefined op (m.cpu.gpr (rs1 (fetched m s.pc))) (m.cpu.gpr (rs2 (fetched m s.pc))) := by
  refine ⟨fun href => ?_, refines_muldiv h hkind⟩
  cases op <;> first
    | cases hkind; done
    | exact trivial
    | skip
  case div => exact (sdivUndef_eq_false_iff _ _).mp ((refines_wrDiv rfl h rfl fun a b hu => sdiv_eq hu).mp href)
  case rem => exact (sdivUndef_eq_false_iff _ _).mp ((refines_wrDiv rfl h rfl fun a b hu => srem_eq hu).mp href)
  case divu => exact of_decide_eq_false ((refines_wrDiv rfl h rfl fun a b hu => udiv_eq hu).mp href)
  case remu => exact of_decide_eq_false ((refines_wrDiv rfl h rfl fun a b hu => umod_eq hu).mp href)

/-- `rem x1, x2, x3` of equal non-zero operands. -/
theorem rem_refines : Refines .rem atReset (oneInst 0x023160b3 7) rfl :=
  (muldiv_refines_iff ⟨rfl, by decide, rfl, by decide⟩ rfl).mpr (by decide)

/-- `div x1, x2, x0` traps the host where the quotient is specified as all ones. -/
theorem div_zero_traps : ¬ Refines .div atReset (oneInst 0x020140b3 7) rfl := by
  rw [refines_wrDiv rfl ⟨rfl, by decide, rfl, by decide⟩ rfl fun a b hu => sdiv_eq hu]
  decide

end Nemu
