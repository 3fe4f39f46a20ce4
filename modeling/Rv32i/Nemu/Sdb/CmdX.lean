import Rv32i.Nemu.Ended

/-!
# NEMU: `cmd_x`

The loop of `cmd_x` checks only where it starts, and counts with an unsigned `i` up to `4*len`.  `cmdX_shows_iff`: for
which counts and values it lists the words it is asked for.
-/

namespace Nemu

open Rv32

/-! ## What should be printed -/

/-- The `j`-th word from an address on, with its address. -/
def wordAt (m : Machine) (paddr : Word) (j : ℕ) : Word × Word :=
  (paddr + BitVec.ofNat 32 (4 * j), loadBytes (guestMem m.pmem) (paddr + BitVec.ofNat 32 (4 * j)) .word)

/-- The integer that a text shows. -/
def textValue (s : List Char) : ℤ :=
  let (neg, s) := takeSign (s.dropWhile fun c => c = ' ' ∨ ('\t' ≤ c ∧ c ≤ '\r'))
  let n : ℤ := number 10 (s.takeWhile isDigit)
  if neg then -n else n

/-! ## The loop -/

variable {m : Machine} {paddr bound : Word} {fuel frames : ℕ}

/-- The loop returns just if every address up to the bound is in `pmem`, and lists their words. -/
theorem cmdXPrints_ok_iff {j k : ℕ} (hk : bound.toNat = 4 * k) (hj : j ≤ k) {out : List (Word × Word)} :
    cmdXPrints m paddr bound fuel (BitVec.ofNat 32 (4 * j)) = .ok out ↔
      k - j < fuel ∧ (∀ i, j ≤ i → i < k → inPmem (paddr + BitVec.ofNat 32 (4 * i)) = true) ∧
        out = (List.range' j (k - j)).map (wordAt m paddr) := by
  have hlt := bound.isLt
  induction fuel generalizing j out with
  | zero =>
    refine iff_of_false ?_ fun h => Nat.not_lt_zero _ h.1
    intro h
    cases h
  | succ fuel ih =>
    unfold cmdXPrints
    have hround : BitVec.ofNat 32 (4 * j) < bound ↔ j < k := by
      rw [BitVec.lt_def, BitVec.toNat_ofNat, hk]
      omega
    by_cases hjk : j < k
    · have hnext : BitVec.ofNat 32 (4 * j) + 4 = BitVec.ofNat 32 (4 * (j + 1)) := (BitVec.ofNat_add ..).symm
      have hrange : (List.range' j (k - j)).map (wordAt m paddr) =
          wordAt m paddr j :: (List.range' (j + 1) (k - (j + 1))).map (wordAt m paddr) := by
        rw [show k - j = k - (j + 1) + 1 by omega, List.range'_succ, List.map_cons]
      rw [if_pos (hround.mpr hjk), hnext, hrange]
      by_cases hin : inPmem (paddr + BitVec.ofNat 32 (4 * j)) = true
      · have hread := @paddrRead_eq m.pmem _ .word hin
        rw [show Width.word.bytes = 4 from rfl] at hread
        rw [hread]
        constructor
        · intro h
          obtain ⟨v, hv, h⟩ := bind_ok h
          cases hv
          obtain ⟨rest, hrest, h⟩ := bind_ok h
          cases h
          obtain ⟨hfuel, hall, rfl⟩ := (ih (by omega)).mp hrest
          refine ⟨by omega, fun i hji hik => ?_, rfl⟩
          rcases Nat.eq_or_lt_of_le hji with rfl | hlt
          · exact hin
          · exact hall i hlt hik
        · rintro ⟨hfuel, hall, rfl⟩
          have hrest := (@ih (j + 1) (by omega) _).mpr ⟨by omega, fun i hji hik => hall i (by omega) hik, rfl⟩
          simp only [bind, Except.bind, hrest]
          rfl
      · refine iff_of_false ?_ fun h => hin (h.2.1 j (Nat.le_refl j) hjk)
        unfold paddrRead
        rw [if_neg hin]
        intro h
        cases h
    · obtain rfl : j = k := by omega
      rw [if_neg (fun h => hjk (hround.mp h)), Nat.sub_self]
      constructor
      · intro h
        cases h
        exact ⟨Nat.succ_pos _, fun i hji hij => by omega, rfl⟩
      · rintro ⟨-, -, rfl⟩
        rfl

/-- The number of rounds. -/
theorem bound_toNat (len : Word) : (4 * len).toNat = 4 * (len.toNat % 2 ^ 30) := by
  rw [BitVec.toNat_mul, show (4 : Word).toNat = 4 from rfl]
  omega

/-- The words from an address in `pmem` on start in it just if the last one does. -/
theorem all_inPmem_iff {k : ℕ} (hin : inPmem paddr = true) (hk : k < 2 ^ 30) :
    (∀ i < k, inPmem (paddr + BitVec.ofNat 32 (4 * i)) = true) ↔
      k = 0 ∨ (guestToHost paddr).toNat + 4 * (k - 1) < configMsize.toNat := by
  obtain ⟨o, ho⟩ : ∃ o, o = guestToHost paddr := ⟨_, rfl⟩
  have hstart : o.toNat < configMsize.toNat := by
    rw [ho]
    exact BitVec.lt_def.mp (decide_eq_true_iff.mp hin)
  have hsize : configMsize.toNat = 2 ^ 27 := rfl
  simp only [inPmem_add_iff, ← ho, BitVec.toNat_add, BitVec.toNat_ofNat]
  constructor
  · intro h
    by_contra hnot
    -- the first word that starts behind `pmem`
    have := h ((2 ^ 27 - o.toNat + 3) / 4) (by omega)
    omega
  · intro h i hi
    omega

/-! ## The command -/

/-- The entries that the count asks for fit: there are none, or the count is positive and the last word starts
in `pmem`. -/
def CountFits (n : List Char) (paddr : Word) : Prop :=
  (atoi n).toNat % 2 ^ 30 = 0 ∨
    (0 < textValue n ∧ (guestToHost paddr).toNat + 4 * ((atoi n).toNat % 2 ^ 30 - 1) < configMsize.toNat)

instance (n : List Char) (paddr : Word) : Decidable (CountFits n paddr) := by
  unfold CountFits; infer_instance

/-- The command returns with the guest as it was, and what it prints are words from the value of the expression on,
at addresses in `pmem` and not more than the count. -/
def XShows (frames : ℕ) (args : Option (List Char)) (σ : Emulator) : Prop :=
  ∃ fuel out σ', cmdXOut fuel frames args σ = .ok (out, σ') ∧ σ'.guest = σ.guest ∧
    ∀ n e v d, strtok (args.getD []) = some (n, e) → e ≠ [] →
      expr frames σ.machine e σ.exprState = .ok (v, true, d) →
      ∃ k : ℕ, out = (List.range k).map (wordAt σ.machine v) ∧ (k : ℤ) ≤ max 0 (textValue n) ∧
        ∀ j < k, inPmem (v + BitVec.ofNat 32 (4 * j)) = true

/-- There are too few arguments; or `expr` returns, and rejects the expression, or gives an address outside `pmem`,
or one from which the entries fit. -/
def XFits (frames : ℕ) (args : Option (List Char)) (σ : Emulator) : Prop :=
  ∀ n e, strtok (args.getD []) = some (n, e) → e ≠ [] →
    ∃ v success d, expr frames σ.machine e σ.exprState = .ok (v, success, d) ∧
      (success = true → inPmem v = true → CountFits n v)

/-- A positive count is not below the number of rounds. -/
theorem rounds_le {n : List Char} (h : 0 < textValue n) : (((atoi n).toNat % 2 ^ 30 : ℕ) : ℤ) ≤ textValue n := by
  unfold textValue at h ⊢
  unfold atoi
  obtain ⟨⟨neg, s⟩, hs⟩ : ∃ p, p = takeSign (n.dropWhile fun c => c = ' ' ∨ ('\t' ≤ c ∧ c ≤ '\r')) := ⟨_, rfl⟩
  rw [← hs] at h ⊢
  simp only at h ⊢
  cases neg with
  | true =>
    rw [if_pos rfl] at h
    omega
  | false =>
    rw [if_neg Bool.false_ne_true] at h ⊢
    rw [if_neg Bool.false_ne_true, BitVec.toNat_ofInt]
    omega

/-- What the command does with an expression that has a value in `pmem`. -/
theorem cmdXOut_of_expr {args : Option (List Char)} {σ : Emulator} {n e : List Char} {v : Word} {d : ExprState}
    (hargs : strtok (args.getD []) = some (n, e)) (he : e ≠ [])
    (hexpr : expr frames σ.machine e σ.exprState = .ok (v, true, d)) (hin : inPmem v = true) :
    cmdXOut fuel frames args σ =
      (cmdXPrints σ.machine v (4 * atoi n) fuel 0).map fun out => (out, { σ with exprState := d }) := by
  obtain ⟨c, cs, rfl⟩ := List.exists_cons_of_ne_nil he
  unfold cmdXOut
  rw [hargs]
  simp only [hexpr, bind, Except.bind, hin, if_true, Bool.true_eq_false, if_false]
  cases cmdXPrints σ.machine v (4 * atoi n) fuel 0 <;> rfl

theorem cmdXPrints_zero_iff {n : List Char} {v : Word} {out : List (Word × Word)} :
    cmdXPrints m v (4 * atoi n) fuel 0 = .ok out ↔ (atoi n).toNat % 2 ^ 30 < fuel ∧
      (∀ i < (atoi n).toNat % 2 ^ 30, inPmem (v + BitVec.ofNat 32 (4 * i)) = true) ∧
      out = (List.range ((atoi n).toNat % 2 ^ 30)).map (wordAt m v) := by
  have h := @cmdXPrints_ok_iff m v _ fuel 0 _ (bound_toNat (atoi n)) (Nat.zero_le _) out
  rw [Nat.sub_zero, ← List.range_eq_range'] at h
  simp only [Nat.zero_le, true_implies] at h
  exact h

/-- Where `cmd_x` returns with some number of rounds, it returns. -/
theorem cmdX_of_out {args : Option (List Char)} {σ σ' : Emulator} {out : List (Word × Word)}
    (h : cmdXOut fuel frames args σ = .ok (out, σ')) : cmdX frames args σ = .ok (0, σ') := by
  suffices hout : cmdXOut (2 ^ 30) frames args σ = .ok (out, σ') by
    unfold cmdX
    rw [hout]
    rfl
  rcases hargs : strtok (args.getD []) with _ | ⟨n, e⟩
  · unfold cmdXOut at h ⊢
    rwa [hargs] at h ⊢
  · by_cases he : e = []
    · unfold cmdXOut at h ⊢
      rwa [hargs, he] at h ⊢
    · by_cases hin : ∃ v d, expr frames σ.machine e σ.exprState = .ok (v, true, d) ∧ inPmem v = true
      · obtain ⟨v, d, hexpr, hin⟩ := hin
        rw [cmdXOut_of_expr hargs he hexpr hin] at h ⊢
        cases hprints : cmdXPrints σ.machine v (4 * atoi n) fuel 0 with
        | error f =>
          rw [hprints] at h
          cases h
        | ok printed =>
          obtain ⟨-, hall, hout⟩ := cmdXPrints_zero_iff.mp hprints
          rw [hprints] at h
          rw [cmdXPrints_zero_iff.mpr ⟨Nat.mod_lt _ (Nat.two_pow_pos 30), hall, hout⟩]
          exact h
      · -- the loop is not reached
        obtain ⟨c, cs, rfl⟩ := List.exists_cons_of_ne_nil he
        unfold cmdXOut at h ⊢
        rw [hargs] at h ⊢
        obtain ⟨⟨v, success, d⟩, hexpr, h⟩ := bind_ok h
        simp only [hexpr, bind, Except.bind]
        cases success with
        | false => exact h
        | true =>
          have hout : ¬ inPmem v = true := fun hv => hin ⟨v, d, hexpr, hv⟩
          simp only [hout, Bool.true_eq_false, if_false] at h ⊢
          exact h

theorem XShows.fits {args : Option (List Char)} {σ : Emulator} (h : XShows frames args σ) : XFits frames args σ := by
  obtain ⟨fuel, out, σ', hout, -, hlist⟩ := h
  intro n e hargs he
  have hret : ∃ r, expr frames σ.machine e σ.exprState = .ok r := by
    obtain ⟨c, cs, rfl⟩ := List.exists_cons_of_ne_nil he
    unfold cmdXOut at hout
    rw [hargs] at hout
    obtain ⟨r, hr, -⟩ := bind_ok hout
    exact ⟨r, hr⟩
  obtain ⟨⟨v, success, d⟩, hexpr⟩ := hret
  refine ⟨v, success, d, hexpr, ?_⟩
  rintro rfl hin
  rw [cmdXOut_of_expr hargs he hexpr hin] at hout
  cases hprints : cmdXPrints σ.machine v (4 * atoi n) fuel 0 with
  | error f =>
    rw [hprints] at hout
    cases hout
  | ok out' =>
    rw [hprints] at hout
    cases hout
    obtain ⟨-, hall, rfl⟩ := cmdXPrints_zero_iff.mp hprints
    have hlast := (all_inPmem_iff hin (Nat.mod_lt _ (by decide))).mp hall
    obtain ⟨k, hk, hle, -⟩ := hlist n e v d hargs he hexpr
    have hlen := congrArg List.length hk
    rw [List.length_map, List.length_map, List.length_range, List.length_range] at hlen
    unfold CountFits
    omega

/-- **For which counts and values `cmd_x` lists the words it is asked for.** -/
theorem cmdX_shows_iff (frames : ℕ) (args : Option (List Char)) (σ : Emulator) :
    XShows frames args σ ↔ XFits frames args σ := by
  refine ⟨XShows.fits, fun hfits => ?_⟩
  cases hargs : strtok (args.getD []) with
  | none =>
    refine ⟨0, [], σ, ?_, rfl, ?_⟩
    · unfold cmdXOut
      rw [hargs]
    · intro n e v d h
      rw [hargs] at h
      cases h
  | some r =>
    obtain ⟨n, e⟩ := r
    by_cases he : e = []
    · subst he
      refine ⟨0, [], σ, ?_, rfl, ?_⟩
      · unfold cmdXOut
        rw [hargs]
      · intro n' e' v d h hne
        rw [hargs] at h
        cases h
        exact absurd rfl hne
    · obtain ⟨v, success, d, hexpr, hfit⟩ := hfits n e hargs he
      by_cases hshow : success = true ∧ inPmem v = true
      · obtain ⟨rfl, hin⟩ := hshow
        have hcount := hfit rfl hin
        have hall := (all_inPmem_iff hin (Nat.mod_lt _ (by decide))).mpr (hcount.imp_right And.right)
        have hprints := (@cmdXPrints_zero_iff σ.machine ((atoi n).toNat % 2 ^ 30 + 1) n v _).mpr
          ⟨Nat.lt_succ_self _, hall, rfl⟩
        refine ⟨(atoi n).toNat % 2 ^ 30 + 1, (List.range ((atoi n).toNat % 2 ^ 30)).map (wordAt σ.machine v),
          { σ with exprState := d }, ?_, rfl, ?_⟩
        · rw [cmdXOut_of_expr hargs he hexpr hin, hprints]
          rfl
        · intro n' e' v' d' hargs' _ hexpr'
          rw [hargs] at hargs'
          cases hargs'
          rw [hexpr] at hexpr'
          cases hexpr'
          refine ⟨_, rfl, ?_, hall⟩
          rcases hcount with hzero | ⟨hpos, -⟩
          · rw [hzero]
            exact le_max_left _ _
          · exact (rounds_le hpos).trans (le_max_right _ _)
      · -- nothing is printed
        refine ⟨0, [], { σ with exprState := d }, ?_, rfl, ?_⟩
        · obtain ⟨c, cs, rfl⟩ := List.exists_cons_of_ne_nil he
          unfold cmdXOut
          rw [hargs]
          simp only [hexpr, bind, Except.bind]
          cases success with
          | false => rfl
          | true =>
            have hin : ¬ inPmem v = true := fun hin => hshow ⟨rfl, hin⟩
            simp only [hin, Bool.true_eq_false, if_false]
            rfl
        · intro n' e' v' d' _ _ _
          exact ⟨0, rfl, le_max_left _ _, fun j hj => absurd hj (Nat.not_lt_zero j)⟩

/-- The arguments of `x 2 0x87fffffc`. -/
def pastEnd : List Char := ['2', ' ', '0', 'x', '8', '7', 'f', 'f', 'f', 'f', 'f', 'c']

/-- The second word is behind `pmem`: the emulator panics. -/
theorem cmdX_panics :
    cmdX 32 (some pastEnd) (Emulator.init (oneInst 0 0)) = .error .panic ∧
      ¬ XShows 32 (some pastEnd) (Emulator.init (oneInst 0 0)) := by
  refine ⟨by rfl, fun h => ?_⟩
  have hexpr : ∃ d, expr 32 (Emulator.init (oneInst 0 0)).machine (pastEnd.drop 2)
      (Emulator.init (oneInst 0 0)).exprState = .ok (0x87fffffc, true, d) := ⟨_, rfl⟩
  obtain ⟨d, hd⟩ := hexpr
  obtain ⟨v, success, d', hv, hfit⟩ := h.fits ['2'] (pastEnd.drop 2) rfl (by decide)
  rw [hd] at hv
  cases hv
  exact absurd (hfit rfl (by decide)) (by decide)

end Nemu
