import Mathlib.Data.List.Basic
import Mathlib.Tactic.Ring

/-!
# Tables of chunks of one size

The concatenation of chunks of one size, looked up at a row and a place in it: the row's chunk at that place.
-/

namespace Chunks

variable {α β : Type*} {f : α → List β} {n : ℕ}

theorem length_flatMap {l : List α} (h : ∀ x ∈ l, (f x).length = n) : (l.flatMap f).length = l.length * n := by
  induction l with
  | nil => simp
  | cons x l ih =>
    rw [List.flatMap_cons, List.length_append, h x List.mem_cons_self, ih fun y hy => h y (List.mem_cons_of_mem _ hy),
      List.length_cons, Nat.add_mul, Nat.one_mul, Nat.add_comm]

/-- **Row `j`, place `i`.** -/
theorem getElem?_flatMap {l : List α} (h : ∀ x ∈ l, (f x).length = n) {i j : ℕ} (hi : i < n) :
    (l.flatMap f)[j * n + i]? = l[j]?.bind fun x => (f x)[i]? := by
  induction l generalizing j with
  | nil => simp
  | cons x l ih =>
    have hx := h x List.mem_cons_self
    rw [List.flatMap_cons]
    cases j with
    | zero =>
      rw [Nat.zero_mul, Nat.zero_add, List.getElem?_append_left (by omega)]
      rfl
    | succ j =>
      have hpos : (j + 1) * n + i = n + (j * n + i) := by ring
      rw [hpos, List.getElem?_append_right (by omega), hx, Nat.add_sub_cancel_left,
        ih fun y hy => h y (List.mem_cons_of_mem _ hy)]
      rfl

/-- A table of rows over the numbers below `m`. -/
theorem getElem?_flatMap_range {f : ℕ → List β} {m i j : ℕ} (h : ∀ k, (f k).length = n) (hj : j < m) (hi : i < n) :
    ((List.range m).flatMap f)[j * n + i]? = (f j)[i]? := by
  rw [getElem?_flatMap (fun k _ => h k) hi, List.getElem?_range hj]
  rfl

end Chunks
