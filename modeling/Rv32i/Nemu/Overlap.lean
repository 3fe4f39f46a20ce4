import Rv32i.Lib.ByteShift
import Rv32i.Nemu.Memory
import Mathlib.Data.Nat.Digits.Defs

/-!
# Overlapping accesses of guest memory

Reads and writes of any of the three widths as operations on one byte-level memory.

* `byte_loadBytes`, `storeBytes_of_mem`, `storeBytes_of_not_mem` — a load and a store, byte by byte;
* `storeBytes_comm` — stores to ranges without a common byte commute;
* `paddr_read_write` — what a read sees after a write, for every overlap of the two.
-/

namespace Nemu

open Rv32 Bytes

/-! ## Loads and stores, byte by byte -/

/-- The address of byte `j` of an access at `a`. -/
abbrev place (a : Word) (j : ℕ) : Word := a + BitVec.ofNat 32 j

/-- An access of `n` bytes at `a` covers the address. -/
def Covers (a : Word) (n : Width) (q : Word) : Prop := a.toNat ≤ q.toNat ∧ q.toNat < a.toNat + n.bytes

instance (a : Word) (n : Width) (q : Word) : Decidable (Covers a n q) := by
  unfold Covers; infer_instance

/-- A load has the bytes it covers, and zeros above them. -/
theorem byte_loadBytes (m : Word → Byte) (a : Word) (n : Width) {j : ℕ} (hj : j < 4) :
    byte (loadBytes m a n) j = if j < n.bytes then m (place a j) else 0 := by
  have hzero : place a 0 = a := BitVec.add_zero a
  cases n with
  | word =>
    rw [loadBytes_word, byte_ofBytes _ hj]
    exact (if_pos hj).symm
  | byte =>
    unfold loadBytes
    interval_cases j
    · rw [byte_setWidth, if_pos (by decide), hzero]
    all_goals exact byte_setWidth_pos _ (by decide)
  | half =>
    have hbit : ∀ i < 8, (byte (loadBytes m a .half) j).getLsbD i = (m (a + 1) ++ m a).getLsbD (8 * j + i) := by
      intro i hi
      unfold loadBytes
      rw [getLsbD_byte, BitVec.getLsbD_setWidth]
      simp only [hi, show 8 * j + i < 32 by omega, decide_true, Bool.true_and]
    apply BitVec.eq_of_getLsbD_eq
    intro i hi
    rw [hbit i hi, BitVec.getLsbD_append]
    interval_cases j
    · rw [if_pos (by omega), if_pos (by decide), hzero, Nat.mul_zero, Nat.zero_add]
    · rw [if_neg (by omega), if_pos (by decide), Nat.mul_one, Nat.add_sub_cancel_left]
      rfl
    all_goals
      rw [if_neg (by omega), if_neg (by decide), BitVec.getLsbD_of_ge _ _ (by omega)]
      simp

/-- A range in `pmem` does not wrap. -/
theorem InPmem.le {a : Word} {n : Width} (h : InPmem a n) : a.toNat + n.bytes ≤ 2 ^ 32 := by
  have hlt : ∀ i < n.bytes, (place a i - configMbase).toNat < configMsize.toNat := fun i hi =>
    BitVec.lt_def.mp (decide_eq_true_iff.mp (h i hi))
  have hbase : configMbase.toNat = 2 ^ 31 := rfl
  have hsize : configMsize.toNat = 2 ^ 27 := rfl
  have hpos : 0 < n.bytes ∧ n.bytes ≤ 4 := by cases n <;> decide
  have hfirst := hlt 0 hpos.1
  have hlast := hlt (n.bytes - 1) (by omega)
  have := a.isLt
  simp only [place, BitVec.toNat_sub, BitVec.toNat_add, BitVec.toNat_ofNat] at hfirst hlast
  omega

section Cover

variable {a b : Word} {n k : Width}

theorem covers_iff (h : a.toNat + n.bytes ≤ 2 ^ 32) (q : Word) : (q - a).toNat < n.bytes ↔ Covers a n q := by
  have := q.isLt
  have := a.isLt
  unfold Covers
  rw [BitVec.toNat_sub]
  omega

theorem storeBytes_of_mem {m : Word → Byte} {v q : Word} (h : a.toNat + n.bytes ≤ 2 ^ 32) (hq : Covers a n q) :
    storeBytes m a n v q = byte v (q.toNat - a.toNat) := by
  have hle : a ≤ q := BitVec.le_def.mpr hq.1
  unfold storeBytes
  rw [if_pos ((covers_iff h q).mpr hq), BitVec.toNat_sub_of_le hle]
  rfl

theorem storeBytes_of_not_mem {m : Word → Byte} {v q : Word} (h : a.toNat + n.bytes ≤ 2 ^ 32)
    (hq : ¬ Covers a n q) : storeBytes m a n v q = m q := by
  unfold storeBytes
  rw [if_neg fun hlt => hq ((covers_iff h q).mp hlt)]

/-- Two accesses have no byte in common. -/
def Apart (a : Word) (n : Width) (b : Word) (k : Width) : Prop :=
  a.toNat + n.bytes ≤ b.toNat ∨ b.toNat + k.bytes ≤ a.toNat

theorem Apart.not_covers (h : Apart a n b k) {q : Word} (ha : Covers a n q) : ¬ Covers b k q := by
  unfold Apart at h
  unfold Covers at *
  omega

theorem storeBytes_comm (h : Apart a n b k) (ha : a.toNat + n.bytes ≤ 2 ^ 32) (hb : b.toNat + k.bytes ≤ 2 ^ 32)
    (m : Word → Byte) (v w : Word) :
    storeBytes (storeBytes m b k w) a n v = storeBytes (storeBytes m a n v) b k w := by
  funext q
  by_cases hq : Covers a n q
  · rw [storeBytes_of_mem ha hq, storeBytes_of_not_mem hb (h.not_covers hq), storeBytes_of_mem ha hq]
  · by_cases hq' : Covers b k q
    · rw [storeBytes_of_not_mem ha hq, storeBytes_of_mem hb hq', storeBytes_of_mem hb hq']
    · rw [storeBytes_of_not_mem ha hq, storeBytes_of_not_mem hb hq', storeBytes_of_not_mem hb hq',
        storeBytes_of_not_mem ha hq]

end Cover

/-! ## A load as a number -/

/-- A load is the little-endian number of the bytes it covers. -/
theorem loadBytes_toNat (m : Word → Byte) (a : Word) (n : Width) :
    (loadBytes m a n).toNat = Nat.ofDigits 256 ((List.range n.bytes).map fun j => (m (place a j)).toNat) := by
  have hbytes : ∀ j < 4, (loadBytes m a n).toNat / 2 ^ (8 * j) % 2 ^ 8 =
      if j < n.bytes then (m (place a j)).toNat else 0 := by
    intro j hj
    rw [← byte_toNat, byte_loadBytes m a n hj]
    split <;> rfl
  have hlt := (loadBytes m a n).isLt
  have h0 := hbytes 0 (by decide)
  have h1 := hbytes 1 (by decide)
  have h2 := hbytes 2 (by decide)
  have h3 := hbytes 3 (by decide)
  cases n <;> simp [Width.bytes, List.range_succ, Nat.ofDigits_cons] at * <;> omega

/-! ## Reads and writes of `pmem` -/

theorem InPmem.place {a : Word} {n : Width} (h : InPmem a n) {j : ℕ} (hj : j < n.bytes) : inPmem (place a j) = true :=
  h j hj

/-- **Reads and writes are those of one byte-level memory.**  For accesses inside `pmem`: a read after a write has
the written bytes where the write covers them, and the old ones elsewhere; writes to disjoint ranges commute; and
a read is the little-endian number of its byte reads. -/
theorem paddr_read_write (pmem : Pmem) (a b : Word) (l k : Width) (d d' : Word) (ha : InPmem a l) (hb : InPmem b k) :
    (∃ pmem' v, paddrWrite pmem b k.bytes d = .ok pmem' ∧ paddrRead pmem' a l.bytes = .ok v ∧
      (∀ j < l.bytes, byte v j = if Covers b k (place a j) then byte d ((place a j).toNat - b.toNat)
        else guestMem pmem (place a j)) ∧
      ∀ j, l.bytes ≤ j → byte v j = 0) ∧
    (Apart a l b k → ∃ pmem', (paddrWrite pmem b k.bytes d >>= fun p => paddrWrite p a l.bytes d') = .ok pmem' ∧
      (paddrWrite pmem a l.bytes d' >>= fun p => paddrWrite p b k.bytes d) = .ok pmem') ∧
    ∃ v, paddrRead pmem a l.bytes = .ok v ∧ ∃ f : ℕ → Word,
      (∀ j < l.bytes, paddrRead pmem (place a j) 1 = .ok (f j)) ∧
      v.toNat = Nat.ofDigits 256 ((List.range l.bytes).map fun j => (f j).toNat) := by
  refine ⟨?_, fun hapart => ?_, ?_⟩
  · obtain ⟨pmem', hwrite, hmem⟩ := paddrWrite_eq k d hb.first
    refine ⟨pmem', _, hwrite, paddrRead_eq l ha.first, fun j hj => ?_, fun j hj => ?_⟩
    · have hj4 : j < 4 := hj.trans_le (by cases l <;> decide)
      rw [byte_loadBytes _ _ _ hj4, if_pos hj, hmem]
      by_cases hq : Covers b k (place a j)
      · rw [if_pos hq, storeBytes_of_mem hb.le hq]
      · rw [if_neg hq, storeBytes_of_not_mem hb.le hq]
    · by_cases hj4 : j < 4
      · rw [byte_loadBytes _ _ _ hj4, if_neg (by omega)]
      · exact byte_eq_zero _ (by omega)
  · obtain ⟨p, hp, hpmem⟩ := @paddrWrite_eq pmem b k d hb.first
    obtain ⟨p', hp', hpmem'⟩ := @paddrWrite_eq p a l d' ha.first
    obtain ⟨q, hq, hqmem⟩ := @paddrWrite_eq pmem a l d' ha.first
    obtain ⟨q', hq', hqmem'⟩ := @paddrWrite_eq q b k d hb.first
    have heq : q' = p' := by
      apply guestMem_injective
      rw [hpmem', hpmem, hqmem', hqmem, storeBytes_comm hapart ha.le hb.le]
    refine ⟨p', ?_, ?_⟩
    · rw [hp]
      exact hp'
    · rw [hq, ← heq]
      exact hq'
  · refine ⟨_, paddrRead_eq l ha.first, fun j => (guestMem pmem (place a j)).setWidth 32, fun j hj => ?_, ?_⟩
    · exact paddrRead_eq .byte (ha.place hj)
    · rw [loadBytes_toNat]
      congr 2

/-- A word written at the start of `pmem`, a half word read from its middle, and the word behind it. -/
theorem paddr_read_write_middle :
    (∃ pmem' v, paddrWrite (fun _ => 0) 0x80000000 4 0x11223344 = .ok pmem' ∧ paddrRead pmem' 0x80000001 2 = .ok v ∧
      byte v 0 = 0x33 ∧ byte v 1 = 0x22 ∧ byte v 2 = 0) ∧
    ∃ pmem', (paddrWrite (fun _ => 0) 0x80000000 4 1 >>= fun p => paddrWrite p 0x80000004 4 2) = .ok pmem' ∧
      (paddrWrite (fun _ => 0) 0x80000004 4 2 >>= fun p => paddrWrite p 0x80000000 4 1) = .ok pmem' := by
  constructor
  · obtain ⟨pmem', v, hwrite, hread, hbytes, hzero⟩ :=
      (paddr_read_write (fun _ => 0) 0x80000001 0x80000000 .half .word 0x11223344 0 (by decide) (by decide)).1
    exact ⟨pmem', v, hwrite, hread, hbytes 0 (by decide), hbytes 1 (by decide), hzero 2 (by decide)⟩
  · exact (paddr_read_write (fun _ => 0) 0x80000004 0x80000000 .word .word 1 2 (by decide) (by decide)).2.1
      (by unfold Apart; decide)

end Nemu
