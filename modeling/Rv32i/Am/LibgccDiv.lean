import Rv32i.Isa.Asm

/-!
# libgcc: division without the M extension

`am/src/riscv/npc/libgcc/div.S` for a register width of 32, where `__udivdi3`, `__umoddi3`, `__divdi3` and `__moddi3` are
the names of `__udivsi3`, `__umodsi3`, `__divsi3` and `__modsi3`.

* `align_loop` — `.L1` shifts the divisor up to the dividend;
* `subtract_loop` — `.L3` subtracts it on the way down;
* `udivsi3_returns` — **`__udivsi3` returns** with the quotient and the remainder;
* `division_returns` — **the four routines compute what `divu`, `remu`, `div` and `rem` compute**.
-/

namespace Am.Libgcc

open Rv32

inductive Label
  | udivsi3 | umodsi3 | divsi3 | modsi3
  | L1 | L2 | L3 | L4 | L5 | L10 | L11 | L12 | L30 | L31 | L32
  deriving DecidableEq

def divLines : List (Line Label) :=
  [.label .divsi3,
    bltz a0 .L10,
    bltz a1 .L11,
  .label .udivsi3,
    mv a2 a1,
    mv a1 a0,
    li a0 (-1),
    beqz a2 .L5,
    li a3 1,
    .branch .bgeu a2 a1 .L2,
  .label .L1,
    blez a2 .L2,
    .instr (.shift .slli a2 a2 1),
    .instr (.shift .slli a3 a3 1),
    bgtu a1 a2 .L1,
  .label .L2,
    li a0 0,
  .label .L3,
    .branch .bltu a1 a2 .L4,
    .instr (.reg .sub a1 a1 a2),
    .instr (.reg .or a0 a0 a3),
  .label .L4,
    .instr (.shift .srli a3 a3 1),
    .instr (.shift .srli a2 a2 1),
    bnez a3 .L3,
  .label .L5,
    ret,
  .label .umodsi3,
    mv t0 ra,
    call .udivsi3,
    mv a0 a1,
    jr t0,
  .label .L10,
    neg a0 a0,
    bgtz a1 .L12,
    neg a1 a1,
    j .udivsi3,
  .label .L11,
    neg a1 a1,
  .label .L12,
    mv t0 ra,
    call .udivsi3,
    neg a0 a0,
    jr t0,
  .label .modsi3,
    mv t0 ra,
    bltz a1 .L31,
    bltz a0 .L32,
  .label .L30,
    call .udivsi3,
    mv a0 a1,
    jr t0,
  .label .L31,
    neg a1 a1,
    bgez a0 .L30,
  .label .L32,
    neg a0 a0,
    call .udivsi3,
    neg a0 a1,
    jr t0]

def divS : List Instr := assemble divLines

/-! ## Signed division by unsigned division -/

theorem divu_eq (n d : Word) : regResult .divu n d = if d = 0 then -1 else n / d := by
  show (if d = 0 then -1 else BitVec.ofNat 32 (n.toNat / d.toNat)) = _
  split
  · rfl
  · rw [← BitVec.toNat_udiv, BitVec.ofNat_toNat, BitVec.setWidth_eq]

theorem remu_eq (n d : Word) : regResult .remu n d = if d = 0 then n else n % d := by
  show (if d = 0 then n else BitVec.ofNat 32 (n.toNat % d.toNat)) = _
  split
  · rfl
  · rw [← BitVec.toNat_umod, BitVec.ofNat_toNat, BitVec.setWidth_eq]

theorem div_eq (n d : Word) : regResult .div n d = if d = 0 then -1 else n.sdiv d := by
  show (if d = 0 then -1 else if n = intMin ∧ d = -1 then intMin else BitVec.ofInt 32 (n.toInt.tdiv d.toInt)) = _
  split
  · rfl
  · split
    · next h =>
      rw [h.1, h.2]
      rfl
    · apply BitVec.eq_of_toInt_eq
      rw [BitVec.toInt_sdiv, BitVec.toInt_ofInt]

theorem rem_eq (n d : Word) : regResult .rem n d = if d = 0 then n else n.srem d := by
  show (if d = 0 then n else if n = intMin ∧ d = -1 then 0 else BitVec.ofInt 32 (n.toInt.tmod d.toInt)) = _
  split
  · rfl
  · split
    · next h =>
      rw [h.1, h.2]
      rfl
    · rw [← BitVec.toInt_srem, BitVec.ofInt_toInt]

theorem msb_iff (x : Word) : x.msb = true ↔ x.toInt < 0 := by
  rw [BitVec.msb_eq_toInt, decide_eq_true_iff]

/-- The quotient from that of the absolute values; a zero divisor counts as positive with a dividend that is not negative
and as negative with one that is. -/
theorem div_by_divu (n d : Word) : regResult .div n d =
    if n.toInt < 0 then if 0 < d.toInt then -regResult .divu (-n) d else regResult .divu (-n) (-d)
    else if d.toInt < 0 then -regResult .divu n (-d) else regResult .divu n d := by
  by_cases hd : d = 0
  · subst hd
    have h0 : ¬ (0 : Word).toInt < 0 := by decide
    have h0' : ¬ 0 < (0 : Word).toInt := by decide
    rw [if_neg h0, if_neg h0']
    split <;> rfl
  have hd' : -d ≠ 0 := fun h => hd (BitVec.neg_eq_zero_iff.mp h)
  have hpos : 0 < d.toInt ↔ ¬ d.toInt < 0 := by
    have hne : d.toInt ≠ 0 := fun h => hd (BitVec.eq_of_toInt_eq h)
    omega
  rw [div_eq, divu_eq, divu_eq, divu_eq, divu_eq, if_neg hd, if_neg hd, if_neg hd', if_neg hd, if_neg hd']
  unfold BitVec.sdiv
  simp only [hpos, ← msb_iff]
  cases n.msb <;> cases d.msb <;> rfl

theorem rem_by_remu (n d : Word) : regResult .rem n d =
    if n.toInt < 0 then -regResult .remu (-n) (if d.toInt < 0 then -d else d)
    else regResult .remu n (if d.toInt < 0 then -d else d) := by
  by_cases hd : d = 0
  · subst hd
    have h0 : ¬ (0 : Word).toInt < 0 := by decide
    rw [if_neg h0]
    split
    · show n = - -n
      rw [BitVec.neg_neg]
    · rfl
  have habs : (if d.toInt < 0 then -d else d) ≠ 0 := by
    split
    · exact fun h => hd (BitVec.neg_eq_zero_iff.mp h)
    · exact hd
  rw [rem_eq, remu_eq, remu_eq, if_neg hd, if_neg habs, if_neg habs]
  unfold BitVec.srem
  simp only [← msb_iff]
  cases n.msb <;> cases d.msb <;> rfl

/-- The registers the routines may change. -/
def scratch : List RegIdx := [ra, t0, a0, a1, a2, a3]

section Division

variable {base : Word} {mem : Word → Byte}

/-- What `.L5` returns with: the quotient in `a0` and the remainder in `a1`. -/
structure Divided (n d : ℕ) (f f' : RegFile) : Prop where
  quotient : (f'.x a0).toNat = n / d
  remainder : (f'.x a1).toNat = n % d
  keeps : Keeps [a0, a1, a2, a3] f f'

/-- `.L3`: the divisor is subtracted if it can be. -/
def subtracted (f : RegFile) : RegFile :=
  if f.x a1 < f.x a2 then f else (f.set a1 (f.x a1 - f.x a2)).set a0 (f.x a0 ||| f.x a3)

/-- `.L4`: the divisor and its bit of the quotient are shifted down. -/
def halved (f : RegFile) : RegFile := (f.set a3 (f.x a3 >>> 1)).set a2 (f.x a2 >>> 1)

theorem run_subtracted (hload : Loaded divS base mem) (f : RegFile) :
    Reaches (Inside divS base mem) ⟨f, addr base 13, mem⟩ ⟨subtracted f, addr base 16, mem⟩ := by
  unfold subtracted
  by_cases hlt : f.x a1 < f.x a2
  · rw [if_pos hlt]
    exact run_taken hload (i := 13) (t := 16) rfl (by omega) (by omega) (decide_eq_true hlt) (.refl _)
  · rw [if_neg hlt]
    refine run_untaken hload (i := 13) (t := 16) rfl (by omega) (by omega) (decide_eq_false hlt) ?_
    refine run_reg hload (i := 14) rfl (run_reg hload (i := 15) rfl ?_)
    rw [set_ne f (show a0 ≠ a1 by decide), set_ne f (show a3 ≠ a1 by decide)]
    exact .refl _

theorem run_halved (hload : Loaded divS base mem) (f : RegFile) :
    Reaches (Inside divS base mem) ⟨f, addr base 16, mem⟩
      ⟨halved f, addr base (if f.x a3 >>> 1 = 0 then 19 else 13), mem⟩ := by
  have h3 : (halved f).x a3 = f.x a3 >>> 1 := by
    unfold halved
    rw [set_ne _ (by decide), set_self _ (by decide)]
  have hblock : Reaches (Inside divS base mem) ⟨f, addr base 16, mem⟩ ⟨halved f, addr base 18, mem⟩ := by
    refine run_shift hload (i := 16) rfl (run_shift hload (i := 17) rfl ?_)
    rw [set_ne f (show a2 ≠ a3 by decide)]
    exact .refl _
  refine hblock.trans ?_
  by_cases hzero : f.x a3 >>> 1 = 0
  · refine run_untaken hload (i := 18) (t := 13) rfl (by omega) (by omega) ?_ ?_
    · rw [h3, hzero, x_zero]
      rfl
    · rw [if_pos hzero]
      exact .refl _
  · refine run_taken hload (i := 18) (t := 13) rfl (by omega) (by omega) ?_ ?_
    · rw [h3, x_zero]
      exact decide_eq_true hzero
    · rw [if_neg hzero]
      exact .refl _

/-- The registers of the loop with the divisor shifted by `k`: so far the quotient is `m` times `2 ^ k`. -/
structure Subtracting (n d k m : ℕ) (f : RegFile) : Prop where
  bit : (f.x a3).toNat = 2 ^ k
  divisor : (f.x a2).toNat = d * 2 ^ k
  quotient : (f.x a0).toNat = m * 2 ^ k
  value : n = (f.x a1).toNat + d * (m * 2 ^ k)

/-- A subtraction brings the remainder below the shifted divisor. -/
theorem Subtracting.subtracted {n d k m : ℕ} {f : RegFile} (h : Subtracting n d k (2 * m) f)
    (hlt : (f.x a1).toNat < 2 * (d * 2 ^ k)) :
    ∃ m', Subtracting n d k m' (subtracted f) ∧ ((subtracted f).x a1).toNat < d * 2 ^ k ∧
      Keeps [a0, a1, a2, a3] f (subtracted f) := by
  unfold Libgcc.subtracted
  by_cases hcmp : f.x a1 < f.x a2
  · rw [if_pos hcmp]
    rw [BitVec.lt_def, h.divisor] at hcmp
    exact ⟨2 * m, h, hcmp, .refl _ _⟩
  · rw [if_neg hcmp]
    rw [BitVec.lt_def, h.divisor] at hcmp
    have h0 : ((f.set a1 (f.x a1 - f.x a2)).set a0 (f.x a0 ||| f.x a3)).x a0 = f.x a0 ||| f.x a3 := set_self _ (by decide) _
    have h1 : ((f.set a1 (f.x a1 - f.x a2)).set a0 (f.x a0 ||| f.x a3)).x a1 = f.x a1 - f.x a2 := by
      rw [set_ne _ (by decide), set_self _ (by decide)]
    have h2 : ((f.set a1 (f.x a1 - f.x a2)).set a0 (f.x a0 ||| f.x a3)).x a2 = f.x a2 := by
      rw [set_ne _ (by decide), set_ne _ (by decide)]
    have h3 : ((f.set a1 (f.x a1 - f.x a2)).set a0 (f.x a0 ||| f.x a3)).x a3 = f.x a3 := by
      rw [set_ne _ (by decide), set_ne _ (by decide)]
    -- the new bit of the quotient is below those that are set
    have hor : (f.x a0 ||| f.x a3).toNat = (2 * m + 1) * 2 ^ k := by
      have hbelow : 2 ^ k < 2 ^ (k + 1) := Nat.pow_lt_pow_right (by omega) (by omega)
      rw [BitVec.toNat_or, h.quotient, h.bit, show 2 * m * 2 ^ k = 2 ^ (k + 1) * m by ring,
        ← Nat.two_pow_add_eq_or_of_lt hbelow]
      ring
    have hsub : (f.x a1 - f.x a2).toNat = (f.x a1).toNat - d * 2 ^ k := by
      rw [BitVec.toNat_sub_of_le (by rw [BitVec.le_def, h.divisor]; omega), h.divisor]
    have hval := h.value
    refine ⟨2 * m + 1, ⟨by rw [h3, h.bit], by rw [h2, h.divisor], by rw [h0, hor], ?_⟩, by rw [h1, hsub]; omega,
      (Keeps.refl _ f).set (by decide) _ |>.set (by decide) _⟩
    rw [h1, hsub, show d * ((2 * m + 1) * 2 ^ k) = d * (2 * m * 2 ^ k) + d * 2 ^ k by ring]
    omega

theorem halved_values (f : RegFile) : (halved f).x a0 = f.x a0 ∧ (halved f).x a1 = f.x a1 ∧
    ((halved f).x a2).toNat = (f.x a2).toNat / 2 ∧ ((halved f).x a3).toNat = (f.x a3).toNat / 2 ∧
    Keeps [a0, a1, a2, a3] f (halved f) := by
  unfold halved
  refine ⟨?_, ?_, ?_, ?_, (Keeps.refl _ f).set (by decide) _ |>.set (by decide) _⟩
  · rw [set_ne _ (by decide), set_ne _ (by decide)]
  · rw [set_ne _ (by decide), set_ne _ (by decide)]
  · rw [set_self _ (by decide), BitVec.toNat_ushiftRight]
    rfl
  · rw [set_ne _ (by decide), set_self _ (by decide), BitVec.toNat_ushiftRight]
    rfl

/-- `.L3`, `k + 1` times. -/
theorem subtract_loop (hload : Loaded divS base mem) {n d : ℕ} (hd : 0 < d) (k : ℕ) :
    ∀ (f : RegFile) (m : ℕ), Subtracting n d k (2 * m) f → (f.x a1).toNat < 2 * (d * 2 ^ k) →
      ∃ f', Reaches (Inside divS base mem) ⟨f, addr base 13, mem⟩ ⟨f', addr base 19, mem⟩ ∧ Divided n d f f' := by
  induction k with
  | zero =>
    intro f m h hlt
    obtain ⟨m', hsub, hlt', hkeep⟩ := h.subtracted hlt
    obtain ⟨h0, h1, -, -, hkeep'⟩ := halved_values (subtracted f)
    have hrun := (run_subtracted hload f).trans (run_halved hload (subtracted f))
    have hzero : (subtracted f).x a3 >>> 1 = 0 := by
      have := hsub.bit
      bv_omega
    rw [if_pos hzero] at hrun
    have hval := hsub.value
    have hquot := hsub.quotient
    rw [pow_zero, mul_one] at hval hlt' hquot
    refine ⟨_, hrun, ?_, ?_, hkeep.trans hkeep'⟩
    · rw [h0, hquot, hval, Nat.add_mul_div_left _ _ hd, Nat.div_eq_of_lt hlt', Nat.zero_add]
    · rw [h1, hval, Nat.add_mul_mod_self_left, Nat.mod_eq_of_lt hlt']
  | succ k ih =>
    intro f m h hlt
    obtain ⟨m', hsub, hlt', hkeep⟩ := h.subtracted hlt
    obtain ⟨h0, h1, h2, h3, hkeep'⟩ := halved_values (subtracted f)
    have hrun := (run_subtracted hload f).trans (run_halved hload (subtracted f))
    have hpos := Nat.two_pow_pos k
    have hbit := hsub.bit
    rw [pow_succ] at hbit
    have hzero : (subtracted f).x a3 >>> 1 ≠ 0 := by
      intro h
      have hshift := congrArg BitVec.toNat h
      rw [BitVec.toNat_ushiftRight, Nat.shiftRight_eq_div_pow, hbit] at hshift
      change 2 ^ k * 2 / 2 ^ 1 = 0 at hshift
      omega
    rw [if_neg hzero] at hrun
    have hnext : Subtracting n d k (2 * m') (halved (subtracted f)) := by
      constructor
      · rw [h3, hbit]
        omega
      · rw [h2, hsub.divisor, pow_succ, ← mul_assoc, Nat.mul_div_cancel _ (by omega)]
      · rw [h0, hsub.quotient, pow_succ]
        ring
      · rw [h1, show d * (2 * m' * 2 ^ k) = d * (m' * 2 ^ (k + 1)) by ring]
        exact hsub.value
    obtain ⟨f', hrun', hdiv⟩ := ih _ m' hnext (by rw [h1, show 2 * (d * 2 ^ k) = d * 2 ^ (k + 1) by ring]; exact hlt')
    exact ⟨f', hrun.trans hrun', hdiv.quotient, hdiv.remainder, (hkeep.trans hkeep').trans hdiv.keeps⟩

/-- The registers at `.L1` and `.L2`: the divisor shifted by `k`, and its bit of the quotient. -/
structure Aligning (n d k : ℕ) (f : RegFile) : Prop where
  bit : (f.x a3).toNat = 2 ^ k
  divisor : (f.x a2).toNat = d * 2 ^ k
  dividend : (f.x a1).toNat = n

/-- `.L1` from where the divisor has at most `j` places to go: it leaves when the next shift would pass the dividend. -/
theorem align_loop (hload : Loaded divS base mem) {n d : ℕ} (hn : n < 2 ^ 32) (hd : 0 < d) (j : ℕ) :
    ∀ (f : RegFile) (k : ℕ), Aligning n d k f → 2 ^ 31 ≤ d * 2 ^ (k + j) →
      ∃ f' k', Reaches (Inside divS base mem) ⟨f, addr base 8, mem⟩ ⟨f', addr base 12, mem⟩ ∧
        Aligning n d k' f' ∧ n < 2 * (d * 2 ^ k') ∧ Keeps [a0, a1, a2, a3] f f' := by
  have hexit : ∀ (f : RegFile) (k : ℕ), Aligning n d k f → 2 ^ 31 ≤ (f.x a2).toNat →
      ∃ f' k', Reaches (Inside divS base mem) ⟨f, addr base 8, mem⟩ ⟨f', addr base 12, mem⟩ ∧
        Aligning n d k' f' ∧ n < 2 * (d * 2 ^ k') ∧ Keeps [a0, a1, a2, a3] f f' := by
    intro f k h hbig
    have htaken : taken .bge (f.x zero) (f.x a2) = true := by
      rw [x_zero]
      apply decide_eq_true
      rw [show (0 : Word).toInt = 0 from rfl, BitVec.toInt_eq_toNat_cond, if_neg (by omega)]
      omega
    refine ⟨f, k, run_taken hload (i := 8) (t := 12) rfl (by omega) (by omega) htaken (.refl _), h, ?_, .refl _ _⟩
    rw [h.divisor] at hbig
    omega
  induction j with
  | zero =>
    intro f k h hbound
    exact hexit f k h (by rw [h.divisor]; exact hbound)
  | succ j ih =>
    intro f k h hbound
    by_cases hbig : 2 ^ 31 ≤ (f.x a2).toNat
    · exact hexit f k h hbig
    have hpos : 0 < (f.x a2).toNat := by
      rw [h.divisor]
      positivity
    have htaken : taken .bge (f.x zero) (f.x a2) = false := by
      rw [x_zero]
      apply decide_eq_false
      rw [show (0 : Word).toInt = 0 from rfl, BitVec.toInt_eq_toNat_cond, if_pos (by omega)]
      omega
    -- both are shifted, and the branch compares with the dividend
    let g := (f.set a2 (f.x a2 <<< 1)).set a3 (f.x a3 <<< 1)
    have h1 : g.x a1 = f.x a1 := by
      rw [set_ne _ (by decide), set_ne _ (by decide)]
    have h2 : g.x a2 = f.x a2 <<< 1 := by
      rw [set_ne _ (by decide), set_self _ (by decide)]
    have h3 : g.x a3 = f.x a3 <<< 1 := set_self _ (by decide) _
    have hkeep : Keeps [a0, a1, a2, a3] f g := (Keeps.refl _ f).set (by decide) _ |>.set (by decide) _
    have hblock : Reaches (Inside divS base mem) ⟨f, addr base 8, mem⟩ ⟨g, addr base 11, mem⟩ := by
      refine run_untaken hload (i := 8) (t := 12) rfl (by omega) (by omega) htaken ?_
      refine run_shift hload (i := 9) rfl (run_shift hload (i := 10) rfl ?_)
      rw [set_ne f (show a3 ≠ a2 by decide)]
      exact .refl _
    have hbit : 2 ^ k ≤ d * 2 ^ k := Nat.le_mul_of_pos_left _ hd
    have halign : Aligning n d (k + 1) g := by
      constructor
      · rw [h3, BitVec.toNat_shiftLeft, Nat.shiftLeft_eq, h.bit, pow_succ]
        rw [h.divisor] at hbig
        omega
      · rw [h2, BitVec.toNat_shiftLeft, Nat.shiftLeft_eq, Nat.mod_eq_of_lt (by omega), h.divisor, pow_succ]
        ring
      · rw [h1, h.dividend]
    by_cases hcmp : g.x a2 < g.x a1
    · obtain ⟨f', k', hrun, hrest, hlt, hkeep'⟩ := ih g (k + 1) halign (by rw [show k + 1 + j = k + (j + 1) by omega]; exact hbound)
      exact ⟨f', k', hblock.trans (run_taken hload (i := 11) (t := 8) rfl (by omega) (by omega) (decide_eq_true hcmp) hrun),
        hrest, hlt, hkeep.trans hkeep'⟩
    · refine ⟨g, k + 1, hblock.trans (run_untaken hload (i := 11) (t := 8) rfl (by omega) (by omega)
        (decide_eq_false hcmp) (.refl _)), halign, ?_, hkeep⟩
      rw [BitVec.lt_def, halign.divisor, halign.dividend] at hcmp
      have : 0 < d * 2 ^ (k + 1) := by positivity
      omega

/-- From `.L2` to the return. -/
theorem run_from_L2 (hload : Loaded divS base mem) {n d k : ℕ} (hd : 0 < d) {f : RegFile}
    (h : Aligning n d k f) (hlt : n < 2 * (d * 2 ^ k)) :
    ∃ f', Reaches (Inside divS base mem) ⟨f, addr base 12, mem⟩ ⟨f', addr base 19, mem⟩ ∧ Divided n d f f' := by
  have h1 : (f.set a0 0).x a1 = f.x a1 := set_ne _ (by decide) _
  have hsub : Subtracting n d k (2 * 0) (f.set a0 0) := by
    refine ⟨?_, ?_, ?_, ?_⟩
    · rw [set_ne _ (by decide), h.bit]
    · rw [set_ne _ (by decide), h.divisor]
    · rw [set_self _ (by decide)]
      simp
    · rw [h1, h.dividend]
      ring
  obtain ⟨f', hrun, hdiv⟩ := subtract_loop hload hd k _ 0 hsub (by rw [h1, h.dividend]; exact hlt)
  have hli : regResult .addi (f.x zero) ((0 : BitVec 12).signExtend 32) = 0 := li_eq f 0
  refine ⟨f', run_imm hload (i := 12) rfl (by rw [hli]; exact hrun), hdiv.quotient, hdiv.remainder, ?_⟩
  exact ((Keeps.refl _ f).set (by decide) _).trans hdiv.keeps

/-- From the entry to the return of a division by a number that is not zero. -/
theorem run_nonzero (hload : Loaded divS base mem) {f : RegFile} (hd : f.x a2 ≠ 0) :
    ∃ f', Reaches (Inside divS base mem) ⟨f, addr base 6, mem⟩ ⟨f', addr base 19, mem⟩ ∧
      Divided (f.x a1).toNat (f.x a2).toNat f f' := by
  have hpos : 0 < (f.x a2).toNat := Nat.pos_of_ne_zero fun h => hd (BitVec.eq_of_toNat_eq h)
  have h1 : (f.set a3 1).x a1 = f.x a1 := set_ne _ (by decide) _
  have h2 : (f.set a3 1).x a2 = f.x a2 := set_ne _ (by decide) _
  have hkeep : Keeps [a0, a1, a2, a3] f (f.set a3 1) := (Keeps.refl _ f).set (by decide) _
  have halign : Aligning (f.x a1).toNat (f.x a2).toNat 0 (f.set a3 1) := by
    refine ⟨?_, ?_, ?_⟩
    · rw [set_self _ (by decide)]
      rfl
    · rw [h2, pow_zero, mul_one]
    · rw [h1]
  have hli : regResult .addi (f.x zero) ((1 : BitVec 12).signExtend 32) = 1 := li_eq f 1
  have hblock : Reaches (Inside divS base mem) ⟨f, addr base 6, mem⟩ ⟨f.set a3 1, addr base 7, mem⟩ := by
    refine run_imm hload (i := 6) rfl ?_
    rw [hli]
    exact .refl _
  by_cases hcmp : f.x a1 ≤ f.x a2
  · have htaken : taken .bgeu ((f.set a3 1).x a2) ((f.set a3 1).x a1) = true := by
      rw [h1, h2]
      exact decide_eq_true hcmp
    rw [BitVec.le_def] at hcmp
    obtain ⟨f', hrun, hdiv⟩ := run_from_L2 hload hpos halign (by rw [pow_zero]; omega)
    exact ⟨f', hblock.trans (run_taken hload (i := 7) (t := 12) rfl (by omega) (by omega) htaken hrun),
      hdiv.quotient, hdiv.remainder, hkeep.trans hdiv.keeps⟩
  · have htaken : taken .bgeu ((f.set a3 1).x a2) ((f.set a3 1).x a1) = false := by
      rw [h1, h2]
      exact decide_eq_false hcmp
    obtain ⟨g, k, hrun, halign', hlt, hkeep'⟩ :=
      align_loop hload (f.x a1).isLt hpos 31 _ 0 halign (Nat.le_mul_of_pos_left _ hpos)
    obtain ⟨f', hrun', hdiv⟩ := run_from_L2 hload hpos halign' hlt
    exact ⟨f', hblock.trans (run_untaken hload (i := 7) (t := 12) rfl (by omega) (by omega) htaken (hrun.trans hrun')),
      hdiv.quotient, hdiv.remainder, (hkeep.trans hkeep').trans hdiv.keeps⟩

/-- **`__udivsi3` returns**: quotient and remainder are in `a0` and `a1`, and only `a0` to `a3` have changed. -/
theorem udivsi3_returns (hload : Loaded divS base mem) (f : RegFile) (heven : (f.x ra).getLsbD 0 = false) :
    ∃ f', Reaches (Inside divS base mem) ⟨f, addr base 2, mem⟩ ⟨f', f.x ra, mem⟩ ∧
      f'.x a0 = regResult .divu (f.x a0) (f.x a1) ∧ f'.x a1 = regResult .remu (f.x a0) (f.x a1) ∧
      Keeps [a0, a1, a2, a3] f f' := by
  let g := ((f.set a2 (f.x a1)).set a1 (f.x a0)).set a0 (-1)
  have h0 : g.x a0 = -1 := set_self _ (by decide) _
  have h1 : g.x a1 = f.x a0 := by
    rw [set_ne _ (by decide), set_self _ (by decide)]
  have h2 : g.x a2 = f.x a1 := by
    rw [set_ne _ (by decide), set_ne _ (by decide), set_self _ (by decide)]
  have hkeep : Keeps [a0, a1, a2, a3] f g :=
    (((Keeps.refl _ f).set (by decide) _).set (by decide) _).set (by decide) _
  have hblock : Reaches (Inside divS base mem) ⟨f, addr base 2, mem⟩ ⟨g, addr base 5, mem⟩ := by
    refine run_imm hload (i := 2) rfl (run_imm hload (i := 3) rfl (run_imm hload (i := 4) rfl ?_))
    rw [mv_eq, mv_eq, li_eq, set_ne f (show a0 ≠ a2 by decide)]
    exact .refl _
  -- the return, from `.L5`
  have hret : ∀ f', Keeps [a0, a1, a2, a3] f f' →
      Reaches (Inside divS base mem) ⟨f', addr base 19, mem⟩ ⟨f', f.x ra, mem⟩ := by
    intro f' hkeep'
    have hra : f'.x ra = f.x ra := hkeep' ra (by decide)
    have hjr := run_jr (i := 19) (r := ra) hload rfl (f := f') (by rw [hra]; exact heven)
    rw [hra] at hjr
    exact hjr
  by_cases hzero : f.x a1 = 0
  · refine ⟨g, hblock.trans (run_taken hload (i := 5) (t := 19) rfl (by omega) (by omega) ?_ (hret g hkeep)), ?_, ?_, hkeep⟩
    · rw [h2, hzero, x_zero]
      rfl
    · rw [h0, hzero]
      rfl
    · rw [h1, hzero]
      rfl
  · obtain ⟨f', hrun, hdiv⟩ := run_nonzero hload (f := g) (by rw [h2]; exact hzero)
    have hkeep' := hkeep.trans hdiv.keeps
    have hquot := hdiv.quotient
    have hrem := hdiv.remainder
    rw [h1, h2] at hquot hrem
    refine ⟨f', hblock.trans (run_untaken hload (i := 5) (t := 19) rfl (by omega) (by omega) ?_ (hrun.trans (hret f' hkeep'))),
      ?_, ?_, hkeep'⟩
    · rw [h2, x_zero]
      exact decide_eq_false hzero
    · have hval : regResult .divu (f.x a0) (f.x a1) = BitVec.ofNat 32 ((f.x a0).toNat / (f.x a1).toNat) := if_neg hzero
      rw [hval, ← hquot, BitVec.ofNat_toNat, BitVec.setWidth_eq]
    · have hval : regResult .remu (f.x a0) (f.x a1) = BitVec.ofNat 32 ((f.x a0).toNat % (f.x a1).toNat) := if_neg hzero
      rw [hval, ← hrem, BitVec.ofNat_toNat, BitVec.setWidth_eq]

/-- A call of `__udivsi3` from inside the program. -/
theorem run_call (hload : Loaded divS base mem) (hbase : base.getLsbD 0 = false) {i : ℕ} (hi : i < 512)
    (hget : divS[i]? = some (.jal ra (offsetTo 20 i 2))) (f : RegFile) :
    ∃ f', Reaches (Inside divS base mem) ⟨f, addr base i, mem⟩ ⟨f', addr base (i + 1), mem⟩ ∧
      f'.x a0 = regResult .divu (f.x a0) (f.x a1) ∧ f'.x a1 = regResult .remu (f.x a0) (f.x a1) ∧
      Keeps [ra, a0, a1, a2, a3] f f' := by
  have hra : (f.set ra (addr base (i + 1))).x ra = addr base (i + 1) := set_self _ (by decide) _
  obtain ⟨f', hrun, h0, h1, hkeep⟩ := udivsi3_returns hload (f.set ra (addr base (i + 1)))
    (by rw [hra]; exact addr_even hbase _)
  rw [hra] at hrun
  rw [set_ne _ (by decide), set_ne _ (by decide)] at h0 h1
  exact ⟨f', run_jal hload hget (by omega) hi hrun, h0, h1,
    ((Keeps.refl _ f).set (by decide) _).trans (hkeep.mono (by decide))⟩

/-- The end of a routine: `a0` is set from what the call left, and `t0` holds the return address. -/
theorem run_finish {r : Word} {f g : RegFile} (hload : Loaded divS base mem) {i : ℕ} (v : Word)
    (ht0 : g.x t0 = r) (heven : r.getLsbD 0 = false) (hkeep : Keeps scratch f g)
    (hblock : Reaches (Inside divS base mem) ⟨g, addr base i, mem⟩ ⟨g.set a0 v, addr base (i + 1), mem⟩)
    (hget : divS[i + 1]? = some (.jalr zero t0 0)) :
    ∃ f', Reaches (Inside divS base mem) ⟨g, addr base i, mem⟩ ⟨f', r, mem⟩ ∧ f'.x a0 = v ∧
      Keeps scratch f f' := by
  have hr : (g.set a0 v).x t0 = r := (set_ne _ (by decide) _).trans ht0
  have hjr := run_jr (i := i + 1) (r := t0) hload hget (f := g.set a0 v) (by rw [hr]; exact heven)
  rw [hr] at hjr
  exact ⟨_, hblock.trans hjr, set_self _ (by decide) _, hkeep.set (by decide) _⟩

theorem umodsi3_returns (hload : Loaded divS base mem) (hbase : base.getLsbD 0 = false) :
    Returns divS base mem scratch 20 (regResult .remu) := by
  intro f heven
  obtain ⟨g, hrun, -, h1, hkeep⟩ := run_call hload hbase (i := 21) (by omega) rfl (f.set t0 (f.x ra))
  have ht0 : g.x t0 = f.x ra := (hkeep t0 (by decide)).trans (set_self _ (by decide) _)
  have hkeep' : Keeps scratch f g :=
    ((Keeps.refl _ f).set (by decide) _).trans (hkeep.mono (by decide))
  rw [set_ne _ (by decide), set_ne _ (by decide)] at h1
  obtain ⟨f', hrun', hval, hkeep''⟩ := run_finish hload (i := 22) (g.x a1) ht0 heven hkeep'
    (run_imm hload (i := 22) rfl (by rw [mv_eq]; exact .refl _)) rfl
  refine ⟨f', run_imm hload (i := 20) rfl ?_, hval.trans h1, hkeep''⟩
  rw [mv_eq]
  exact hrun.trans hrun'

/-- From `.L12`: the quotient of `a0` and `a1`, negated. -/
theorem run_L12 (hload : Loaded divS base mem) (hbase : base.getLsbD 0 = false) {f g : RegFile} (hra : g.x ra = f.x ra)
    (heven : (f.x ra).getLsbD 0 = false) (hkeep : Keeps scratch f g) :
    ∃ f', Reaches (Inside divS base mem) ⟨g, addr base 29, mem⟩ ⟨f', f.x ra, mem⟩ ∧
      f'.x a0 = -regResult .divu (g.x a0) (g.x a1) ∧ Keeps scratch f f' := by
  obtain ⟨g', hrun, h0, -, hkeep'⟩ := run_call hload hbase (i := 30) (by omega) rfl (g.set t0 (f.x ra))
  have ht0 : g'.x t0 = f.x ra := (hkeep' t0 (by decide)).trans (set_self _ (by decide) _)
  have hkeep'' : Keeps scratch f g' := (hkeep.set (by decide) _).trans (hkeep'.mono (by decide))
  rw [set_ne _ (by decide), set_ne _ (by decide)] at h0
  obtain ⟨f', hrun', hval, hkeep⟩ := run_finish hload (i := 31) (-g'.x a0) ht0 heven hkeep''
    (run_reg hload (i := 31) rfl (by rw [neg_eq]; exact .refl _)) rfl
  refine ⟨f', run_imm hload (i := 29) rfl ?_, by rw [hval, h0], hkeep⟩
  rw [mv_eq, hra]
  exact hrun.trans hrun'

theorem divsi3_returns (hload : Loaded divS base mem) (hbase : base.getLsbD 0 = false) :
    Returns divS base mem scratch 0 (regResult .div) := by
  intro f heven
  rw [div_by_divu]
  have hkeep := Keeps.refl scratch f
  by_cases hn : (f.x a0).toInt < 0
  · have hneg : Reaches (Inside divS base mem) ⟨f, addr base 0, mem⟩ ⟨f.set a0 (-f.x a0), addr base 25, mem⟩ := by
      refine run_taken hload (i := 0) (t := 24) rfl (by omega) (by omega) ?_ (run_reg hload (i := 24) rfl ?_)
      · rw [x_zero]
        exact decide_eq_true hn
      · rw [neg_eq]
        exact .refl _
    have h1 : (f.set a0 (-f.x a0)).x a1 = f.x a1 := set_ne _ (by decide) _
    rw [if_pos hn]
    by_cases hd : 0 < (f.x a1).toInt
    · rw [if_pos hd]
      obtain ⟨f', hrun, hval, hkeep'⟩ := run_L12 hload hbase (f := f) (g := f.set a0 (-f.x a0)) (set_ne _ (by decide) _)
        heven (hkeep.set (by decide) _)
      rw [set_self _ (by decide), h1] at hval
      refine ⟨f', hneg.trans (run_taken hload (i := 25) (t := 29) rfl (by omega) (by omega) ?_ hrun), hval, hkeep'⟩
      rw [x_zero, h1]
      exact decide_eq_true hd
    · rw [if_neg hd]
      obtain ⟨f', hrun, h0, -, hkeep'⟩ := udivsi3_returns hload ((f.set a0 (-f.x a0)).set a1 (-f.x a1))
        (by rw [set_ne _ (by decide), set_ne _ (by decide)]; exact heven)
      rw [set_ne _ (by decide), set_ne _ (by decide)] at hrun
      rw [set_ne _ (by decide), set_self _ (by decide), set_self _ (by decide)] at h0
      refine ⟨f', hneg.trans (run_untaken hload (i := 25) (t := 29) rfl (by omega) (by omega) ?_
        (run_reg hload (i := 26) rfl (run_jal hload (i := 27) (t := 2) rfl (by omega) (by omega) ?_))), h0,
        ((hkeep.set (by decide) _).set (by decide) _).trans (hkeep'.mono (by decide))⟩
      · rw [x_zero, h1]
        exact decide_eq_false hd
      · rw [neg_eq, h1, show zero = 0 from rfl, RegFile.set_zero]
        exact hrun
  · rw [if_neg hn]
    have hpos : taken .blt (f.x a0) (f.x zero) = false := by
      rw [x_zero]
      exact decide_eq_false hn
    by_cases hd : (f.x a1).toInt < 0
    · rw [if_pos hd]
      obtain ⟨f', hrun, hval, hkeep'⟩ := run_L12 hload hbase (f := f) (g := f.set a1 (-f.x a1)) (set_ne _ (by decide) _)
        heven (hkeep.set (by decide) _)
      rw [set_self _ (by decide), set_ne _ (by decide)] at hval
      refine ⟨f', run_untaken hload (i := 0) (t := 24) rfl (by omega) (by omega) hpos
        (run_taken hload (i := 1) (t := 28) rfl (by omega) (by omega) ?_ (run_reg hload (i := 28) rfl ?_)), hval, hkeep'⟩
      · rw [x_zero]
        exact decide_eq_true hd
      · rw [neg_eq]
        exact hrun
    · rw [if_neg hd]
      obtain ⟨f', hrun, h0, -, hkeep'⟩ := udivsi3_returns hload f heven
      refine ⟨f', run_untaken hload (i := 0) (t := 24) rfl (by omega) (by omega) hpos
        (run_untaken hload (i := 1) (t := 28) rfl (by omega) (by omega) ?_ hrun), h0, hkeep'.mono (by decide)⟩
      rw [x_zero]
      exact decide_eq_false hd

/-- From `.L30`: the remainder of `a0` and `a1`. -/
theorem run_L30 (hload : Loaded divS base mem) (hbase : base.getLsbD 0 = false) {f g : RegFile} (ht0 : g.x t0 = f.x ra)
    (heven : (f.x ra).getLsbD 0 = false) (hkeep : Keeps scratch f g) :
    ∃ f', Reaches (Inside divS base mem) ⟨g, addr base 36, mem⟩ ⟨f', f.x ra, mem⟩ ∧
      f'.x a0 = regResult .remu (g.x a0) (g.x a1) ∧ Keeps scratch f f' := by
  obtain ⟨g', hrun, -, h1, hkeep'⟩ := run_call hload hbase (i := 36) (by omega) rfl g
  obtain ⟨f', hrun', hval, hkeep''⟩ := run_finish hload (i := 37) (g'.x a1) ((hkeep' t0 (by decide)).trans ht0) heven
    (hkeep.trans (hkeep'.mono (by decide))) (run_imm hload (i := 37) rfl (by rw [mv_eq]; exact .refl _)) rfl
  exact ⟨f', hrun.trans hrun', hval.trans h1, hkeep''⟩

/-- From `.L32`: the remainder of the negated `a0` and `a1`, negated. -/
theorem run_L32 (hload : Loaded divS base mem) (hbase : base.getLsbD 0 = false) {f g : RegFile} (ht0 : g.x t0 = f.x ra)
    (heven : (f.x ra).getLsbD 0 = false) (hkeep : Keeps scratch f g) :
    ∃ f', Reaches (Inside divS base mem) ⟨g, addr base 41, mem⟩ ⟨f', f.x ra, mem⟩ ∧
      f'.x a0 = -regResult .remu (-g.x a0) (g.x a1) ∧ Keeps scratch f f' := by
  obtain ⟨g', hrun, -, h1, hkeep'⟩ := run_call hload hbase (i := 42) (by omega) rfl (g.set a0 (-g.x a0))
  rw [set_self _ (by decide), set_ne _ (by decide)] at h1
  have ht0' : g'.x t0 = f.x ra := (hkeep' t0 (by decide)).trans ((set_ne _ (by decide) _).trans ht0)
  obtain ⟨f', hrun', hval, hkeep''⟩ := run_finish hload (i := 43) (-g'.x a1) ht0' heven
    ((hkeep.set (by decide) _).trans (hkeep'.mono (by decide)))
    (run_reg hload (i := 43) rfl (by rw [neg_eq]; exact .refl _)) rfl
  refine ⟨f', run_reg hload (i := 41) rfl ?_, by rw [hval, h1], hkeep''⟩
  rw [neg_eq]
  exact hrun.trans hrun'

theorem modsi3_returns (hload : Loaded divS base mem) (hbase : base.getLsbD 0 = false) :
    Returns divS base mem scratch 33 (regResult .rem) := by
  intro f heven
  rw [rem_by_remu]
  have hkeep : Keeps scratch f (f.set t0 (f.x ra)) := (Keeps.refl _ f).set (by decide) _
  have ht0 : (f.set t0 (f.x ra)).x t0 = f.x ra := set_self _ (by decide) _
  have h0 : (f.set t0 (f.x ra)).x a0 = f.x a0 := set_ne _ (by decide) _
  have h1 : (f.set t0 (f.x ra)).x a1 = f.x a1 := set_ne _ (by decide) _
  have hmv : Reaches (Inside divS base mem) ⟨f, addr base 33, mem⟩ ⟨f.set t0 (f.x ra), addr base 34, mem⟩ :=
    run_imm hload (i := 33) rfl (by rw [mv_eq]; exact .refl _)
  by_cases hd : (f.x a1).toInt < 0
  · rw [if_pos hd]
    have hneg : Reaches (Inside divS base mem) ⟨f.set t0 (f.x ra), addr base 34, mem⟩
        ⟨(f.set t0 (f.x ra)).set a1 (-f.x a1), addr base 40, mem⟩ := by
      refine run_taken hload (i := 34) (t := 39) rfl (by omega) (by omega) ?_ (run_reg hload (i := 39) rfl ?_)
      · rw [x_zero, h1]
        exact decide_eq_true hd
      · rw [neg_eq, h1]
        exact .refl _
    have h0' : ((f.set t0 (f.x ra)).set a1 (-f.x a1)).x a0 = f.x a0 := (set_ne _ (by decide) _).trans h0
    have h1' : ((f.set t0 (f.x ra)).set a1 (-f.x a1)).x a1 = -f.x a1 := set_self _ (by decide) _
    have ht0' : ((f.set t0 (f.x ra)).set a1 (-f.x a1)).x t0 = f.x ra := (set_ne _ (by decide) _).trans ht0
    by_cases hn : (f.x a0).toInt < 0
    · rw [if_pos hn]
      obtain ⟨f', hrun, hval, hkeep'⟩ := run_L32 hload hbase ht0' heven (hkeep.set (by decide) _)
      rw [h0', h1'] at hval
      refine ⟨f', hmv.trans (hneg.trans (run_untaken hload (i := 40) (t := 36) rfl (by omega) (by omega) ?_ hrun)), hval, hkeep'⟩
      rw [x_zero, h0']
      exact decide_eq_false (Int.not_le.mpr hn)
    · rw [if_neg hn]
      obtain ⟨f', hrun, hval, hkeep'⟩ := run_L30 hload hbase ht0' heven (hkeep.set (by decide) _)
      rw [h0', h1'] at hval
      refine ⟨f', hmv.trans (hneg.trans (run_taken hload (i := 40) (t := 36) rfl (by omega) (by omega) ?_ hrun)), hval, hkeep'⟩
      rw [x_zero, h0']
      exact decide_eq_true (Int.not_lt.mp hn)
  · rw [if_neg hd]
    have hpos : taken .blt ((f.set t0 (f.x ra)).x a1) ((f.set t0 (f.x ra)).x zero) = false := by
      rw [x_zero, h1]
      exact decide_eq_false hd
    by_cases hn : (f.x a0).toInt < 0
    · rw [if_pos hn]
      obtain ⟨f', hrun, hval, hkeep'⟩ := run_L32 hload hbase ht0 heven hkeep
      rw [h0, h1] at hval
      refine ⟨f', hmv.trans (run_untaken hload (i := 34) (t := 39) rfl (by omega) (by omega) hpos
        (run_taken hload (i := 35) (t := 41) rfl (by omega) (by omega) ?_ hrun)), hval, hkeep'⟩
      rw [x_zero, h0]
      exact decide_eq_true hn
    · rw [if_neg hn]
      obtain ⟨f', hrun, hval, hkeep'⟩ := run_L30 hload hbase ht0 heven hkeep
      rw [h0, h1] at hval
      refine ⟨f', hmv.trans (run_untaken hload (i := 34) (t := 39) rfl (by omega) (by omega) hpos
        (run_untaken hload (i := 35) (t := 41) rfl (by omega) (by omega) ?_ hrun)), hval, hkeep'⟩
      rw [x_zero, h0]
      exact decide_eq_false hn

/-- The instruction at which a routine begins. -/
def entry (l : Label) : ℕ := labelPos l divLines

theorem udivsi3_returns_quotient (hload : Loaded divS base mem) :
    Returns divS base mem scratch (entry .udivsi3) (regResult .divu) := by
  intro f heven
  obtain ⟨f', hrun, h0, -, hkeep⟩ := udivsi3_returns hload f heven
  exact ⟨f', hrun, h0, hkeep.mono (by decide)⟩

/-- **Division without the M extension**: wherever the routines are loaded, and whatever the arguments, each returns to
its caller with what the instruction of the extension computes, and has changed nothing but the registers it may use. -/
theorem division_returns (hload : Loaded divS base mem) (hbase : base.getLsbD 0 = false) :
    Returns divS base mem scratch (entry .udivsi3) (regResult .divu) ∧
      Returns divS base mem scratch (entry .umodsi3) (regResult .remu) ∧
      Returns divS base mem scratch (entry .divsi3) (regResult .div) ∧
      Returns divS base mem scratch (entry .modsi3) (regResult .rem) :=
  ⟨udivsi3_returns_quotient hload, umodsi3_returns hload hbase, divsi3_returns hload hbase, modsi3_returns hload hbase⟩

end Division

/-- The routines at the start of memory. -/
theorem division_returns_image :
    Returns divS 0x80000000 (image divS 0x80000000) scratch (entry .udivsi3) (regResult .divu) ∧
      Returns divS 0x80000000 (image divS 0x80000000) scratch (entry .umodsi3) (regResult .remu) ∧
      Returns divS 0x80000000 (image divS 0x80000000) scratch (entry .divsi3) (regResult .div) ∧
      Returns divS 0x80000000 (image divS 0x80000000) scratch (entry .modsi3) (regResult .rem) :=
  division_returns (image_loaded _ (by decide) (by decide)) rfl

end Am.Libgcc
