import Rv32i.Isa.Asm
import Rv32i.Lib.Halves

/-!
# libgcc: multiplication without the M extension

`muldi3.S`, `multi3.c` and `ashldi3.c` of `am/src/riscv/npc/libgcc` for a register width of 32: the product of words in
assembly, the product of double words in C on top of it, and the shift of a double word.

* `mul_loop` — `.L1` of `__mulsi3` adds the shifted multiplicand for each bit of the multiplier;
* `mulsi3_returns` — **`__mulsi3` returns the product** and keeps `ra` and the `t` registers, as `__muluw3` expects;
* `multi_loop` — the loop of `__multi3` adds with a carry from the low half to the high half;
* `multi3_eq` — **`__multi3` is the product** of double words;
* `ashldi3_eq` — **`__ashldi3` is the shift**, for the amounts for which C defines it.
-/

namespace Am.Libgcc

open Rv32

/-! ## `__mulsi3` -/

inductive MulLabel
  | mulsi3 | L1 | L2
  deriving DecidableEq

def mulLines : List (Line MulLabel) :=
  [.label .mulsi3,
    mv a2 a0,
    li a0 0,
  .label .L1,
    .instr (.imm .andi a3 a1 1),
    beqz a3 .L2,
    .instr (.reg .add a0 a0 a2),
  .label .L2,
    .instr (.shift .srli a1 a1 1),
    .instr (.shift .slli a2 a2 1),
    bnez a1 .L1,
    ret]

def mulS : List Instr := assemble mulLines

theorem and_one_eq_zero (y : Word) : y &&& 1 = 0 ↔ y.getLsbD 0 = false := by
  have hand : (y &&& 1).toNat = y.toNat % 2 := by
    rw [BitVec.toNat_and]
    exact Nat.and_one_is_mod _
  rw [← BitVec.toNat_inj, hand, ← BitVec.testBit_toNat, Nat.testBit_zero, decide_eq_false_iff_not]
  show y.toNat % 2 = 0 ↔ _
  omega

/-- The lowest bit of the multiplier, for one summand, and the rest. -/
theorem mul_split (x y : Word) : y * x = (if y &&& 1 = 0 then 0 else x) + (y >>> 1) * (x <<< 1) := by
  rw [Halves.mul_split x y]
  congr 1
  by_cases h : y &&& 1 = 0
  · rw [if_pos h, if_neg (by rw [(and_one_eq_zero y).mp h]; decide)]
  · rw [if_neg h, if_pos (by rw [and_one_eq_zero, Bool.not_eq_false] at h; exact h)]

section Product

variable {base : Word} {mem : Word → Byte}

/-- The registers after a round from `.L1`. -/
def mulRound (f : RegFile) : RegFile :=
  let g := if f.x a1 &&& 1 = 0 then f.set a3 (f.x a1 &&& 1)
    else (f.set a3 (f.x a1 &&& 1)).set a0 (f.x a0 + f.x a2)
  (g.set a1 (f.x a1 >>> 1)).set a2 (f.x a2 <<< 1)

theorem run_mulRound (hload : Loaded mulS base mem) (f : RegFile) :
    Reaches (Inside mulS base mem) ⟨f, addr base 2, mem⟩ ⟨mulRound f, addr base 7, mem⟩ := by
  have htail : ∀ g : RegFile, Reaches (Inside mulS base mem) ⟨g, addr base 5, mem⟩
      ⟨(g.set a1 (g.x a1 >>> 1)).set a2 (g.x a2 <<< 1), addr base 7, mem⟩ := by
    intro g
    refine run_shift hload (i := 5) rfl (run_shift hload (i := 6) rfl ?_)
    rw [set_ne g (show a2 ≠ a1 by decide)]
    exact .refl _
  refine run_imm hload (i := 2) rfl ?_
  rw [show regResult .andi (f.x a1) ((1 : BitVec 12).signExtend 32) = f.x a1 &&& 1 from rfl]
  have h3 : (f.set a3 (f.x a1 &&& 1)).x a3 = f.x a1 &&& 1 := set_self _ (by decide) _
  unfold mulRound
  by_cases hbit : f.x a1 &&& 1 = 0
  · rw [if_pos hbit]
    refine run_taken hload (i := 3) (t := 5) rfl (by omega) (by omega) ?_ ?_
    · rw [h3, x_zero]
      exact decide_eq_true hbit
    · have hrun := htail (f.set a3 (f.x a1 &&& 1))
      rw [set_ne _ (show a1 ≠ a3 by decide), set_ne _ (show a2 ≠ a3 by decide)] at hrun
      exact hrun
  · rw [if_neg hbit]
    refine run_untaken hload (i := 3) (t := 5) rfl (by omega) (by omega) ?_ (run_reg hload (i := 4) rfl ?_)
    · rw [h3, x_zero]
      exact decide_eq_false hbit
    · rw [set_ne _ (show a0 ≠ a3 by decide), set_ne _ (show a2 ≠ a3 by decide)]
      have hrun := htail ((f.set a3 (f.x a1 &&& 1)).set a0 (f.x a0 + f.x a2))
      rw [set_ne _ (show a1 ≠ a0 by decide), set_ne _ (show a2 ≠ a0 by decide), set_ne _ (show a1 ≠ a3 by decide),
        set_ne _ (show a2 ≠ a3 by decide)] at hrun
      exact hrun

theorem mulRound_values (f : RegFile) :
    (mulRound f).x a0 = f.x a0 + (if f.x a1 &&& 1 = 0 then 0 else f.x a2) ∧ (mulRound f).x a1 = f.x a1 >>> 1 ∧
      (mulRound f).x a2 = f.x a2 <<< 1 ∧ Keeps [a0, a1, a2, a3] f (mulRound f) := by
  unfold mulRound
  by_cases hbit : f.x a1 &&& 1 = 0
  · rw [if_pos hbit, if_pos hbit]
    refine ⟨?_, ?_, set_self _ (by decide) _, ?_⟩
    · rw [set_ne _ (by decide), set_ne _ (by decide), set_ne _ (by decide)]
      exact (BitVec.add_zero _).symm
    · rw [set_ne _ (by decide), set_self _ (by decide)]
    · exact (((Keeps.refl _ f).set (by decide) _).set (by decide) _).set (by decide) _
  · rw [if_neg hbit, if_neg hbit]
    refine ⟨?_, ?_, set_self _ (by decide) _, ?_⟩
    · rw [set_ne _ (by decide), set_ne _ (by decide), set_self _ (by decide)]
    · rw [set_ne _ (by decide), set_self _ (by decide)]
    · exact ((((Keeps.refl _ f).set (by decide) _).set (by decide) _).set (by decide) _).set (by decide) _

/-- `.L1`: what is in `a0` and what is still to be added stay the same sum. -/
theorem mul_loop (hload : Loaded mulS base mem) (k : ℕ) : ∀ f : RegFile, (f.x a1).toNat < 2 ^ (k + 1) →
    ∃ f', Reaches (Inside mulS base mem) ⟨f, addr base 2, mem⟩ ⟨f', addr base 8, mem⟩ ∧
      f'.x a0 = f.x a0 + f.x a1 * f.x a2 ∧ Keeps [a0, a1, a2, a3] f f' := by
  have hexit : ∀ f : RegFile, f.x a1 >>> 1 = 0 →
      ∃ f', Reaches (Inside mulS base mem) ⟨f, addr base 2, mem⟩ ⟨f', addr base 8, mem⟩ ∧
        f'.x a0 = f.x a0 + f.x a1 * f.x a2 ∧ Keeps [a0, a1, a2, a3] f f' := by
    intro f hzero
    obtain ⟨h0, h1, -, hkeep⟩ := mulRound_values f
    refine ⟨mulRound f, (run_mulRound hload f).trans (run_untaken hload (i := 7) (t := 2) rfl (by omega) (by omega) ?_
      (.refl _)), ?_, hkeep⟩
    · rw [h1, hzero, x_zero]
      rfl
    · rw [h0, mul_split (f.x a2) (f.x a1), hzero, zero_mul, add_zero]
  induction k with
  | zero =>
    intro f hlt
    have hlt' : (f.x a1).toNat < 2 := hlt
    exact hexit f (by bv_omega)
  | succ k ih =>
    intro f hlt
    by_cases hzero : f.x a1 >>> 1 = 0
    · exact hexit f hzero
    obtain ⟨h0, h1, h2, hkeep⟩ := mulRound_values f
    have hhalf : ((mulRound f).x a1).toNat < 2 ^ (k + 1) := by
      rw [pow_succ _ (k + 1)] at hlt
      rw [h1, BitVec.toNat_ushiftRight, Nat.shiftRight_eq_div_pow]
      omega
    obtain ⟨f', hrun, hval, hkeep'⟩ := ih _ hhalf
    refine ⟨f', (run_mulRound hload f).trans (run_taken hload (i := 7) (t := 2) rfl (by omega) (by omega) ?_ hrun), ?_,
      hkeep.trans hkeep'⟩
    · rw [h1, x_zero]
      exact decide_eq_true hzero
    · rw [hval, h0, h1, h2, mul_split (f.x a2) (f.x a1), add_assoc]

/-- **`__mulsi3` returns the product**, and has changed `a0` to `a3` only. -/
theorem mulsi3_returns (hload : Loaded mulS base mem) :
    Returns mulS base mem [a0, a1, a2, a3] (labelPos .mulsi3 mulLines) (regResult .mul) := by
  intro f heven
  let g := (f.set a2 (f.x a0)).set a0 0
  have h0 : g.x a0 = 0 := set_self _ (by decide) _
  have h1 : g.x a1 = f.x a1 := by
    rw [set_ne _ (by decide), set_ne _ (by decide)]
  have h2 : g.x a2 = f.x a0 := by
    rw [set_ne _ (by decide), set_self _ (by decide)]
  have hkeep : Keeps [a0, a1, a2, a3] f g := ((Keeps.refl _ f).set (by decide) _).set (by decide) _
  obtain ⟨f', hrun, hval, hkeep'⟩ := mul_loop hload 31 g (g.x a1).isLt
  have hra : f'.x ra = f.x ra := (hkeep.trans hkeep') ra (by decide)
  have hjr := run_jr (i := 8) (r := ra) hload rfl (f := f') (by rw [hra]; exact heven)
  rw [hra] at hjr
  refine ⟨f', run_imm hload (i := 0) rfl (run_imm hload (i := 1) rfl ?_), ?_, hkeep.trans hkeep'⟩
  · rw [mv_eq, li_eq]
    exact hrun.trans hjr
  · rw [hval, h0, h1, h2, zero_add]
    exact mul_comm _ _

end Product

/-- The routine at the start of memory. -/
theorem mulsi3_returns_image :
    Returns mulS 0x80000000 (image mulS 0x80000000) [a0, a1, a2, a3] (labelPos .mulsi3 mulLines) (regResult .mul) :=
  mulsi3_returns (image_loaded _ (by decide) (by decide))

/-! ## `__multi3` -/

/-- `__muluw3`, a call of `__mulsi3`. -/
def muluw3 (x y : Word) : Word := x * y

/-- The variables of the loop. -/
structure Multi where
  uLow : Word
  vLow : Word
  wLow : Word
  wHigh : Word
  wHighTmp : Word

/-- The body of the loop. -/
def Multi.round (s : Multi) : Multi :=
  let newWLow := s.wLow + s.uLow
  let wHighTmp2x := s.wHighTmp <<< 1
  let wHighTmp := s.wHighTmp + s.wHigh
  let odd := s.vLow &&& 1 ≠ 0
  let carry : Word := if newWLow < s.wLow then 1 else 0
  let wLow := if odd then newWLow else s.wLow
  let wHigh := if odd then carry + wHighTmp else s.wHigh
  let uLowMsb := s.uLow >>> 31
  { uLow := s.uLow <<< 1
    vLow := s.vLow >>> 1
    wLow
    wHigh
    wHighTmp := uLowMsb ||| wHighTmp2x }

/-- The rounds, which end when no bit of the multiplier is left. -/
def Multi.loop (s : Multi) : Multi :=
  if s.round.vLow = 0 then s.round else s.round.loop
  termination_by s.vLow.toNat
  decreasing_by
    rename_i hne
    have hne' : s.vLow >>> 1 ≠ 0 := hne
    show (s.vLow >>> 1).toNat < s.vLow.toNat
    bv_omega

def multi3 (u v : BitVec 64) : BitVec 64 :=
  let uLow := u.extractLsb' 0 32
  let uHigh := u.extractLsb' 32 32
  let vLow := v.extractLsb' 0 32
  let vHigh := v.extractLsb' 32 32
  let s := Multi.loop { uLow, vLow, wLow := 0, wHigh := 0, wHighTmp := 0 }
  let high := if uHigh ≠ 0 then s.wHigh + muluw3 vLow uHigh else s.wHigh
  let high := if vHigh ≠ 0 then high + muluw3 uLow vHigh else high
  high ++ s.wLow

/-- The sum so far, and the multiplicand as it is shifted. -/
def Multi.sum (s : Multi) : BitVec 64 := s.wHigh ++ s.wLow
def Multi.multiplicand (s : Multi) : BitVec 64 := s.wHighTmp ++ s.uLow

/-- A sum by halves, with the carry. -/
theorem append_add (h l h' l' : Word) :
    (h ++ l : BitVec 64) + (h' ++ l' : BitVec 64) = ((if l + l' < l then 1 else 0) + (h' + h)) ++ (l + l') := by
  have hl := l.isLt
  have hl' := l'.isLt
  apply BitVec.eq_of_toNat_eq
  have hsum : ∀ x y : Word, (x ++ y : BitVec 64).toNat = x.toNat * 2 ^ 32 + y.toNat := Halves.append_toNat
  rw [BitVec.toNat_add, hsum, hsum, hsum]
  by_cases hcarry : l + l' < l
  · rw [if_pos hcarry]
    rw [BitVec.lt_def, BitVec.toNat_add] at hcarry
    rw [BitVec.toNat_add, BitVec.toNat_add, BitVec.toNat_add, show (1 : Word).toNat = 1 from rfl]
    omega
  · rw [if_neg hcarry]
    rw [BitVec.lt_def, BitVec.toNat_add] at hcarry
    rw [BitVec.toNat_add, BitVec.toNat_add, BitVec.toNat_add, show (0 : Word).toNat = 0 from rfl]
    omega

/-- **A round adds the multiplicand for an odd multiplier, and doubles it.** -/
theorem multi_round (s : Multi) :
    s.round.sum = s.sum + (if s.vLow &&& 1 = 0 then 0 else s.multiplicand) ∧
      s.round.multiplicand = s.multiplicand <<< 1 ∧ s.round.vLow = s.vLow >>> 1 := by
  refine ⟨?_, ?_, rfl⟩
  · by_cases hodd : s.vLow &&& 1 = 0
    · rw [if_pos hodd, add_zero]
      unfold Multi.sum Multi.round
      simp only [hodd, ne_eq, not_true_eq_false, if_false]
    · rw [if_neg hodd]
      unfold Multi.sum Multi.multiplicand
      rw [append_add]
      unfold Multi.round
      simp only [hodd, ne_eq, not_false_eq_true, if_true]
  · unfold Multi.multiplicand
    have hshift := Halves.append_shiftLeft s.wHighTmp s.uLow (show 1 ≤ 32 by omega)
    rw [BitVec.or_comm] at hshift
    exact hshift.symm

theorem multi_split (v : Word) (x : BitVec 64) :
    v.setWidth 64 * x = (if v &&& 1 = 0 then 0 else x) + (v >>> 1).setWidth 64 * (x <<< 1) := by
  have hbit : (v.setWidth 64).getLsbD 0 = v.getLsbD 0 := by simp
  have hhalf : v.setWidth 64 >>> 1 = (v >>> 1).setWidth 64 := by
    apply BitVec.eq_of_toNat_eq
    rw [BitVec.toNat_ushiftRight, BitVec.toNat_setWidth_of_le (by omega), BitVec.toNat_setWidth_of_le (by omega),
      BitVec.toNat_ushiftRight]
  rw [Halves.mul_split x (v.setWidth 64), hbit, hhalf]
  congr 1
  by_cases h : v &&& 1 = 0
  · rw [if_pos h, if_neg (by rw [(and_one_eq_zero v).mp h]; decide)]
  · rw [if_neg h, if_pos (by rw [and_one_eq_zero, Bool.not_eq_false] at h; exact h)]

/-- The loop: what has been added and what is still to be added stay the same sum. -/
theorem multi_loop (s : Multi) : s.loop.sum = s.sum + s.vLow.setWidth 64 * s.multiplicand := by
  induction s using Multi.loop.induct with
  | case1 s hzero =>
    obtain ⟨hsum, -, hv⟩ := multi_round s
    rw [hv] at hzero
    unfold Multi.loop
    have hrest : (s.vLow >>> 1).setWidth 64 * (s.multiplicand <<< 1) = 0 := by
      rw [hzero]
      exact BitVec.zero_mul
    rw [hv, if_pos hzero, hsum, multi_split, hrest, add_zero]
  | case2 s hne ih =>
    obtain ⟨hsum, hmul, hv⟩ := multi_round s
    unfold Multi.loop
    rw [if_neg hne, ih, hsum, hmul, hv, multi_split s.vLow, add_assoc]

/-- The loop on the low halves alone. -/
theorem multi_loop_low (x y : Word) : (Multi.loop ⟨x, y, 0, 0, 0⟩).sum.toNat = x.toNat * y.toNat := by
  have hlt : x.toNat * y.toNat < 2 ^ 32 * 2 ^ 32 := Nat.mul_lt_mul'' x.isLt y.isLt
  have hzero : (Multi.mk x y 0 0 0).sum = 0 := show (0 ++ 0 : BitVec (32 + 32)) = 0 by decide
  have hmul : (Multi.mk x y 0 0 0).multiplicand = x.setWidth 64 := by
    apply BitVec.eq_of_toNat_eq
    rw [BitVec.toNat_setWidth_of_le (by omega)]
    exact (Halves.append_toNat 0 x).trans (by rw [show (0 : Word).toNat = 0 from rfl, zero_mul, zero_add])
  rw [multi_loop, hzero, hmul, zero_add, BitVec.toNat_mul, BitVec.toNat_setWidth_of_le (by omega),
    BitVec.toNat_setWidth_of_le (by omega), mul_comm]
  exact Nat.mod_eq_of_lt hlt

theorem extract_toNat (x : BitVec 64) :
    x.toNat = (x.extractLsb' 32 32).toNat * 2 ^ 32 + (x.extractLsb' 0 32).toNat := by
  rw [BitVec.extractLsb'_toNat, BitVec.extractLsb'_toNat, Nat.shiftRight_eq_div_pow, Nat.shiftRight_zero]
  have hlt := x.isLt
  omega

/-- The words of the result: the guards leave out products that are zero. -/
theorem multi3_words (u v : BitVec 64) :
    multi3 u v = ((Multi.loop ⟨u.extractLsb' 0 32, v.extractLsb' 0 32, 0, 0, 0⟩).wHigh +
        v.extractLsb' 0 32 * u.extractLsb' 32 32 + u.extractLsb' 0 32 * v.extractLsb' 32 32) ++
      (Multi.loop ⟨u.extractLsb' 0 32, v.extractLsb' 0 32, 0, 0, 0⟩).wLow := by
  have hguard : ∀ high x y : Word, (if y ≠ 0 then high + x * y else high) = high + x * y := by
    intro high x y
    by_cases hy : y = 0
    · rw [if_neg (not_not.mpr hy), hy, mul_zero, add_zero]
    · rw [if_pos hy]
  unfold multi3 muluw3
  simp only [hguard]

/-- The words of a product: the high halves meet above the double word. -/
theorem words_mul {uHigh uLow vHigh vLow wHigh wLow : ℕ} (hlow : wLow < 2 ^ 32)
    (hw : wHigh * 2 ^ 32 + wLow = uLow * vLow) :
    ((wHigh + vLow * uHigh % 2 ^ 32) % 2 ^ 32 + uLow * vHigh % 2 ^ 32) % 2 ^ 32 * 2 ^ 32 + wLow =
      (uHigh * 2 ^ 32 + uLow) * (vHigh * 2 ^ 32 + vLow) % 2 ^ 64 := by
  have hprod : (uHigh * 2 ^ 32 + uLow) * (vHigh * 2 ^ 32 + vLow) =
      2 ^ 64 * (uHigh * vHigh) + ((wHigh + vLow * uHigh + uLow * vHigh) * 2 ^ 32 + wLow) := by
    calc (uHigh * 2 ^ 32 + uLow) * (vHigh * 2 ^ 32 + vLow)
      _ = 2 ^ 64 * (uHigh * vHigh) + (vLow * uHigh + uLow * vHigh) * 2 ^ 32 + uLow * vLow := by ring
      _ = 2 ^ 64 * (uHigh * vHigh) + (vLow * uHigh + uLow * vHigh) * 2 ^ 32 + (wHigh * 2 ^ 32 + wLow) := by rw [hw]
      _ = 2 ^ 64 * (uHigh * vHigh) + ((wHigh + vLow * uHigh + uLow * vHigh) * 2 ^ 32 + wLow) := by ring
  have hhigh : ((wHigh + vLow * uHigh % 2 ^ 32) % 2 ^ 32 + uLow * vHigh % 2 ^ 32) % 2 ^ 32 =
      (wHigh + vLow * uHigh + uLow * vHigh) % 2 ^ 32 := by
    rw [Nat.add_mod_mod, Nat.add_mod_mod, Nat.mod_add_mod]
  have hword : ∀ n : ℕ, (n * 2 ^ 32 + wLow) % 2 ^ 64 = n % 2 ^ 32 * 2 ^ 32 + wLow := by
    intro n
    omega
  rw [hprod, Nat.mul_add_mod, hword, hhigh]

/-- **`__multi3` is the product**. -/
theorem multi3_eq (u v : BitVec 64) : multi3 u v = u * v := by
  have happ : ∀ x y : Word, (x ++ y : BitVec 64).toNat = x.toNat * 2 ^ 32 + y.toNat := Halves.append_toNat
  let s := Multi.loop ⟨u.extractLsb' 0 32, v.extractLsb' 0 32, 0, 0, 0⟩
  have hloop : s.wHigh.toNat * 2 ^ 32 + s.wLow.toNat = (u.extractLsb' 0 32).toNat * (v.extractLsb' 0 32).toNat :=
    (happ _ _).symm.trans (multi_loop_low _ _)
  apply BitVec.eq_of_toNat_eq
  rw [multi3_words, happ, BitVec.toNat_add, BitVec.toNat_add, BitVec.toNat_mul, BitVec.toNat_mul, BitVec.toNat_mul,
    extract_toNat u, extract_toNat v]
  exact words_mul (BitVec.isLt _) hloop

/-! ## `__ashldi3` -/

/-- `x << k` and `x >> k`, undefined for an amount that is negative or at least the width. -/
def shl (x : Word) (k : ℤ) : Option Word := if 0 ≤ k ∧ k < 32 then some (x <<< k.toNat) else none
def shr (x : Word) (k : ℤ) : Option Word := if 0 ≤ k ∧ k < 32 then some (x >>> k.toNat) else none

def ashldi3 (u : BitVec 64) (b : ℤ) : Option (BitVec 64) := do
  if b = 0 then
    return u
  let low : Word := u.extractLsb' 0 32
  let high : Word := u.extractLsb' 32 32
  let bm := 32 - b
  if bm ≤ 0 then
    return (← shl low (-bm)) ++ (0 : Word)
  let carries ← shr low bm
  return ((← shl high b) ||| carries) ++ (← shl low b)

/-- **`__ashldi3` is the shift**, and undefined where the amount is no amount of a double word. -/
theorem ashldi3_eq (u : BitVec 64) (b : ℤ) :
    ashldi3 u b = if 0 ≤ b ∧ b < 64 then some (u <<< b.toNat) else none := by
  have hu : u = u.extractLsb' 32 32 ++ u.extractLsb' 0 32 := by
    apply BitVec.eq_of_toNat_eq
    exact (extract_toNat u).trans (Halves.append_toNat _ _).symm
  unfold ashldi3 shl shr
  by_cases h0 : b = 0
  · subst h0
    simp
  rw [if_neg h0]
  by_cases hbm : 32 - b ≤ 0
  · -- the low half moves into the high one
    obtain ⟨s, rfl⟩ : ∃ s : ℕ, b = ((32 + s : ℕ) : ℤ) := ⟨(b - 32).toNat, by omega⟩
    have hamount : -(32 - ((32 + s : ℕ) : ℤ)) = (s : ℤ) := by push_cast; ring
    simp only [hbm, if_true, hamount, Int.toNat_natCast]
    by_cases hs : s < 32
    · rw [if_pos ⟨by omega, by omega⟩, if_pos ⟨by omega, by omega⟩]
      conv_rhs => rw [hu]
      exact congrArg some (Halves.append_shiftLeft_add _ _ s).symm
    · rw [if_neg (by omega), if_neg (by omega)]
      rfl
  · simp only [hbm, if_false]
    by_cases hneg : 0 ≤ b
    · obtain ⟨s, rfl⟩ : ∃ s : ℕ, b = (s : ℤ) := ⟨b.toNat, by omega⟩
      have hamount : (32 - (s : ℤ)).toNat = 32 - s := by omega
      rw [if_pos ⟨by omega, by omega⟩, if_pos ⟨by omega, by omega⟩, if_pos ⟨by omega, by omega⟩,
        if_pos ⟨by omega, by omega⟩, hamount, Int.toNat_natCast]
      conv_rhs => rw [hu]
      exact congrArg some (Halves.append_shiftLeft _ _ (show s ≤ 32 by omega)).symm
    · rw [if_neg (show ¬ (0 ≤ 32 - b ∧ 32 - b < 32) by omega), if_neg (show ¬ (0 ≤ b ∧ b < 64) by omega)]
      rfl

end Am.Libgcc
