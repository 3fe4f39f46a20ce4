import Mathlib.Tactic.Ring
import Rv32i.Lib.Bytes

/-!
# Shifts of a word by its bytes

A shift of a 32-bit word is made up of shifts of its four bytes.

* `left`, `right`, `rightArith` — the shifted byte: as it is, and as the highest byte of a word;
* `shiftLeft_bytes` — the shift to the left is the sum of the shifted bytes at their places;
* `ushiftRight_bytes`, `sshiftRight_bytes` — the shifts to the right: the highest byte, and what `lower` collects of
  the other three;
* `lower_eq_setByte` — `lower` put together byte by byte, where no addition carries.
-/

namespace Bytes

/-! ## Bits and bytes -/

theorem getLsbD_byte (v : BitVec 32) (j i : ℕ) : (byte v j).getLsbD i = (decide (i < 8) && v.getLsbD (8 * j + i)) :=
  BitVec.getLsbD_extractLsb' ..

theorem byte_or (v w : BitVec 32) (j : ℕ) : byte (v ||| w) j = byte v j ||| byte w j := by
  apply BitVec.eq_of_getLsbD_eq
  intro i hi
  rw [BitVec.getLsbD_or, getLsbD_byte, getLsbD_byte, getLsbD_byte, BitVec.getLsbD_or, Bool.and_or_distrib_left]

theorem byte_ushiftRight (v : BitVec 32) (k j : ℕ) : byte (v >>> (8 * k)) j = byte v (k + j) := by
  apply BitVec.eq_of_getLsbD_eq
  intro i hi
  rw [getLsbD_byte, getLsbD_byte, BitVec.getLsbD_ushiftRight]
  congr 2
  ring

/-- There are four bytes. -/
theorem byte_eq_zero (v : BitVec 32) {j : ℕ} (hj : 4 ≤ j) : byte v j = 0 := by
  apply BitVec.eq_of_getLsbD_eq
  intro i hi
  rw [getLsbD_byte, BitVec.getLsbD_of_ge v _ (by omega)]
  simp

theorem byte_setWidth_pos (b : BitVec 8) {j : ℕ} (hj : 0 < j) : byte (b.setWidth 32) j = 0 := by
  apply BitVec.eq_of_getLsbD_eq
  intro i hi
  rw [getLsbD_byte, BitVec.getLsbD_setWidth, BitVec.getLsbD_of_ge b _ (by omega)]
  simp

/-- A word is the sum of its bytes at their places. -/
theorem eq_add_bytes (v : BitVec 32) : (byte v 3).setWidth 32 <<< 24 + (byte v 2).setWidth 32 <<< 16 +
    (byte v 1).setWidth 32 <<< 8 + (byte v 0).setWidth 32 = v := by
  have hv := v.isLt
  apply BitVec.eq_of_toNat_eq
  simp only [BitVec.toNat_add, BitVec.toNat_shiftLeft, BitVec.toNat_setWidth, byte_toNat, Nat.shiftLeft_eq]
  omega

/-! ## To the left -/

/-- A byte shifted to the left. -/
def left (b : BitVec 8) (a : ℕ) : BitVec 32 := b.setWidth 32 <<< a

/-- **The shift to the left** of a word from those of its bytes. -/
theorem shiftLeft_bytes (v : BitVec 32) (a : ℕ) : left (byte v 3) a <<< 24 + left (byte v 2) a <<< 16 +
    left (byte v 1) a <<< 8 + left (byte v 0) a = v <<< a := by
  conv_rhs => rw [← eq_add_bytes v]
  unfold left
  simp only [BitVec.shiftLeft_eq_mul_twoPow]
  ring

/-! ## To the right -/

/-- A byte, as the highest of a word, shifted to the right. -/
def right (b : BitVec 8) (a : ℕ) : BitVec 32 := (b.setWidth 32 <<< 24) >>> a

/-- The same with the sign. -/
def rightArith (b : BitVec 8) (a : ℕ) : BitVec 32 := (b.setWidth 32 <<< 24).sshiftRight a

theorem getLsbD_high (b : BitVec 8) (i : ℕ) :
    (b.setWidth 32 <<< 24).getLsbD i = (decide (24 ≤ i ∧ i < 32) && b.getLsbD (i - 24)) := by
  rw [BitVec.getLsbD_shiftLeft, BitVec.getLsbD_setWidth]
  by_cases h : 24 ≤ i ∧ i < 32
  · simp [h, show i - 24 < 32 by omega]
  · rw [decide_eq_false h, Bool.false_and]
    by_cases hi : i < 32
    · simp [show i < 24 by omega]
    · simp [hi]

theorem getLsbD_right (b : BitVec 8) (a i : ℕ) :
    (right b a).getLsbD i = (decide (24 ≤ a + i ∧ a + i < 32) && b.getLsbD (a + i - 24)) := by
  rw [right, BitVec.getLsbD_ushiftRight, getLsbD_high]

/-- Different bytes of shifted bytes have no bit in common. -/
theorem byte_right_disjoint (b b' : BitVec 8) (a : ℕ) {j j' : ℕ} (hj : j ≠ j') :
    byte (right b a) j &&& byte (right b' a) j' = 0 := by
  apply BitVec.eq_of_getLsbD_eq
  intro i hi
  rw [BitVec.getLsbD_and, getLsbD_byte, getLsbD_byte, getLsbD_right, getLsbD_right]
  by_cases h : 24 ≤ a + (8 * j + i) ∧ a + (8 * j + i) < 32
  · simp [show ¬ (24 ≤ a + (8 * j' + i) ∧ a + (8 * j' + i) < 32) by omega]
  · simp [h]

/-- What the three lower bytes contribute to a shift to the right. -/
def lower (v : BitVec 32) (a : ℕ) : BitVec 32 :=
  right (byte v 2) a >>> (8 * 1) ||| right (byte v 1) a >>> (8 * 2) ||| right (byte v 0) a >>> (8 * 3)

/-- The contribution of byte `k`. -/
theorem getLsbD_piece (v : BitVec 32) (a i : ℕ) {k : ℕ} (hk : k < 4) : (right (byte v k) a >>> (8 * (3 - k))).getLsbD i =
    (decide (8 * k ≤ a + i ∧ a + i < 8 * k + 8) && v.getLsbD (a + i)) := by
  rw [BitVec.getLsbD_ushiftRight, getLsbD_right, getLsbD_byte]
  by_cases h : 8 * k ≤ a + i ∧ a + i < 8 * k + 8
  · rw [decide_eq_true h, decide_eq_true (by omega), decide_eq_true (by omega), Bool.true_and, Bool.true_and,
      Bool.true_and]
    congr 1
    omega
  · rw [decide_eq_false h, decide_eq_false (by omega), Bool.false_and, Bool.false_and]

theorem getLsbD_lower (v : BitVec 32) (a i : ℕ) : (lower v a).getLsbD i = (decide (a + i < 24) && v.getLsbD (a + i)) := by
  have h2 := getLsbD_piece v a i (show 2 < 4 by omega)
  have h1 := getLsbD_piece v a i (show 1 < 4 by omega)
  have h0 := getLsbD_piece v a i (show 0 < 4 by omega)
  rw [lower, BitVec.getLsbD_or, BitVec.getLsbD_or, h2, h1, h0]
  by_cases ha : a + i < 24
  · rcases (by omega : a + i < 8 ∨ 8 ≤ a + i ∧ a + i < 16 ∨ 16 ≤ a + i) with h | h | h
    · simp [ha, h, show ¬ 8 ≤ a + i by omega, show ¬ 16 ≤ a + i by omega]
    · simp [ha, h, show ¬ a + i < 8 by omega, show ¬ 16 ≤ a + i by omega]
    · simp [ha, h, show ¬ a + i < 8 by omega, show ¬ a + i < 16 by omega]
  · simp [ha, show ¬ a + i < 8 by omega, show ¬ a + i < 16 by omega]

/-- A word whose bits from `24 - a` on are those of the shifted word completes `lower`, without a carry. -/
theorem lower_add (v w y : BitVec 32) (a : ℕ)
    (hy : ∀ i < 32, y.getLsbD i = if a + i < 24 then false else w.getLsbD i)
    (hw : ∀ i < 32, a + i < 24 → w.getLsbD i = v.getLsbD (a + i)) : lower v a + y = w := by
  have hand : lower v a &&& y = 0 := by
    apply BitVec.eq_of_getLsbD_eq
    intro i hi
    rw [BitVec.getLsbD_and, getLsbD_lower, hy i hi]
    by_cases h : a + i < 24
    · simp [h]
    · simp [h]
  rw [BitVec.add_eq_or_of_and_eq_zero _ _ hand]
  apply BitVec.eq_of_getLsbD_eq
  intro i hi
  rw [BitVec.getLsbD_or, getLsbD_lower, hy i hi]
  by_cases h : a + i < 24
  · simp [h, hw i hi h]
  · simp [h]

/-- **The shift to the right** of a word from those of its bytes. -/
theorem ushiftRight_bytes (v : BitVec 32) (a : ℕ) : lower v a + right (byte v 3) a = v >>> a := by
  refine lower_add v _ _ a (fun i hi => ?_) fun i hi h => by rw [BitVec.getLsbD_ushiftRight]
  have h3 := getLsbD_piece v a i (show 3 < 4 by omega)
  rw [show 8 * (3 - 3) = 0 from rfl, BitVec.ushiftRight_zero] at h3
  rw [h3, BitVec.getLsbD_ushiftRight]
  by_cases h : a + i < 24
  · simp [h]
  · by_cases h' : a + i < 32
    · simp [h, h', show 24 ≤ a + i by omega]
    · simp [h, h', BitVec.getLsbD_of_ge v _ (Nat.le_of_not_lt h')]

/-- **The arithmetic shift to the right** takes the highest byte with its sign. -/
theorem sshiftRight_bytes (v : BitVec 32) (a : ℕ) : lower v a + rightArith (byte v 3) a = v.sshiftRight a := by
  have hhigh : ∀ i, 24 ≤ i → i < 32 → ((byte v 3).setWidth 32 <<< 24).getLsbD i = v.getLsbD i := by
    intro i h24 h32
    rw [getLsbD_high, getLsbD_byte, decide_eq_true ⟨h24, h32⟩, decide_eq_true (by omega), Bool.true_and, Bool.true_and]
    congr 1
    omega
  refine lower_add v _ _ a (fun i hi => ?_) fun i hi h => ?_
  · rw [rightArith, BitVec.getLsbD_sshiftRight, BitVec.getLsbD_sshiftRight, BitVec.msb_eq_getLsbD_last,
      BitVec.msb_eq_getLsbD_last, hhigh 31 (by omega) (by omega)]
    by_cases h : a + i < 24
    · rw [if_pos h, if_pos (by omega), getLsbD_high, decide_eq_false (by omega), decide_eq_false (by omega),
        Bool.false_and, Bool.and_false]
    · by_cases h' : a + i < 32
      · rw [if_neg h, if_pos h', if_pos h', hhigh _ (by omega) h']
      · rw [if_neg h, if_neg h', if_neg h']
  · rw [BitVec.getLsbD_sshiftRight, if_pos (by omega), decide_eq_false (by omega), Bool.not_false, Bool.true_and]

/-! ## Byte by byte -/

theorem setWidth_add_of_disjoint {b b' : BitVec 8} (h : b &&& b' = 0) :
    b.setWidth 32 + b'.setWidth 32 = (b ||| b').setWidth 32 := by
  rw [BitVec.add_eq_or_of_and_eq_zero, BitVec.setWidth_or]
  rw [← BitVec.setWidth_and, h]
  rfl

/-- **`lower` from the bytes of the shifted bytes**: they are added up at the places where they arrive. -/
theorem lower_eq_setByte (v : BitVec 32) (a : ℕ) :
    setByte (setByte ((byte (right (byte v 2) a) 1).setWidth 32 + (byte (right (byte v 1) a) 2).setWidth 32 +
        (byte (right (byte v 0) a) 3).setWidth 32) 1
      (byte ((byte (right (byte v 2) a) 2).setWidth 32 + (byte (right (byte v 1) a) 3).setWidth 32) 0)) 2
      (byte (right (byte v 2) a) 3) = lower v a := by
  obtain ⟨y2, h2⟩ : ∃ y, y = right (byte v 2) a := ⟨_, rfl⟩
  obtain ⟨y1, h1⟩ : ∃ y, y = right (byte v 1) a := ⟨_, rfl⟩
  obtain ⟨y0, h0⟩ : ∃ y, y = right (byte v 0) a := ⟨_, rfl⟩
  have h21 : byte y2 1 &&& byte y1 2 = 0 := by rw [h2, h1, byte_right_disjoint _ _ _ (by omega)]
  have h20 : byte y2 1 &&& byte y0 3 = 0 := by rw [h2, h0, byte_right_disjoint _ _ _ (by omega)]
  have h10 : byte y1 2 &&& byte y0 3 = 0 := by rw [h1, h0, byte_right_disjoint _ _ _ (by omega)]
  have h21' : byte y2 2 &&& byte y1 3 = 0 := by rw [h2, h1, byte_right_disjoint _ _ _ (by omega)]
  have h210 : (byte y2 1 ||| byte y1 2) &&& byte y0 3 = 0 := by
    rw [BitVec.and_comm, BitVec.and_or_distrib_left, BitVec.and_comm, h20, BitVec.and_comm, h10]
    rfl
  rw [lower, ← h2, ← h1, ← h0, setWidth_add_of_disjoint h21, setWidth_add_of_disjoint h210,
    setWidth_add_of_disjoint h21']
  apply eq_of_byte_eq
  intro j hj
  rw [byte_setByte _ _ _ hj, byte_setByte _ _ _ hj, byte_or, byte_or, byte_ushiftRight, byte_ushiftRight,
    byte_ushiftRight]
  interval_cases j
  · simp [byte_or, byte_setWidth]
  · simp [byte_or, byte_setWidth, byte_eq_zero y0]
  · simp [byte_eq_zero y0, byte_eq_zero y1]
  · simp [byte_or, byte_setWidth_pos, byte_eq_zero y0, byte_eq_zero y1, byte_eq_zero y2]

end Bytes
