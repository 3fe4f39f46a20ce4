import Mathlib.Data.BitVec
import Mathlib.Tactic.Ring

/-!
# Byte regions of an address space

A region is a base address and a number of bytes; an address is in it when its distance from the base, modulo
the size of the address space, is below that number.  `bytes_inside_iff`: an access at an offset from the base
is inside exactly when it ends by the end of the region.
-/

structure Region (w : ℕ) where
  base : BitVec w
  size : ℕ
  deriving DecidableEq

namespace Region

variable {w : ℕ}

def Contains (R : Region w) (q : BitVec w) : Prop := (q - R.base).toNat < R.size

instance (R : Region w) (q : BitVec w) : Decidable (R.Contains q) := by unfold Contains; infer_instance

/-- The addresses of the `n` bytes from `p` on. -/
def bytes (p : BitVec w) (n : ℕ) : List (BitVec w) := (List.range n).map fun i => p + BitVec.ofNat w i

theorem mem_bytes {p q : BitVec w} {n : ℕ} : q ∈ bytes p n ↔ ∃ i < n, q = p + BitVec.ofNat w i := by
  simp [bytes, eq_comm]

/-- The distance of `base + k` from `base`. -/
theorem toNat_add_sub (p : BitVec w) {k : ℕ} (hk : k < 2 ^ w) : (p + BitVec.ofNat w k - p).toNat = k := by
  rw [BitVec.add_comm, BitVec.add_sub_cancel, BitVec.toNat_ofNat, Nat.mod_eq_of_lt hk]

theorem contains_add (R : Region w) {k : ℕ} (hk : k < 2 ^ w) :
    R.Contains (R.base + BitVec.ofNat w k) ↔ k < R.size := by
  unfold Contains
  rw [toNat_add_sub _ hk]

/-- **An access of `n` bytes at offset `k` is inside the region exactly when it ends in it.** -/
theorem bytes_inside_iff (R : Region w) {k n : ℕ} (hn : 0 < n) (hk : k + n ≤ 2 ^ w) :
    (∀ q ∈ bytes (R.base + BitVec.ofNat w k) n, R.Contains q) ↔ k + n ≤ R.size := by
  have hmove : ∀ i, R.base + BitVec.ofNat w k + BitVec.ofNat w i = R.base + BitVec.ofNat w (k + i) := by
    intro i
    rw [BitVec.add_assoc, BitVec.ofNat_add]
  constructor
  · intro h
    have hlast := h _ (mem_bytes.mpr ⟨n - 1, by omega, rfl⟩)
    rw [hmove, contains_add R (by omega)] at hlast
    omega
  · intro h q hq
    obtain ⟨i, hi, rfl⟩ := mem_bytes.mp hq
    rw [hmove, contains_add R (by omega)]
    omega

end Region
