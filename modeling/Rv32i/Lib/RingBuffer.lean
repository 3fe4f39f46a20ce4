import Mathlib.Data.List.ReduceOption
import Mathlib.Data.Int.ModEq
import Mathlib.Tactic

/-!
# Ring buffers

A queue in an array of `n` slots, between two indices that go around and are equal where it is empty.

* `Fifo.popped_append_after` — what a queue gives is what was put into it, in order, and what it still holds;
* `RingBuffer.contents` — the queue that a ring stands for, and what the two operations do to it: a ring holds at most
  `n - 1` values, and one more makes it look empty;
* `RingBuffer.run_contents`, `RingBuffer.given_eq` — a ring that never gets full is a queue.
-/

/-! ## Queues -/

namespace Fifo

variable {α : Type*}

inductive Op (α : Type*)
  | push (a : α)
  | pop

/-- What is put into the queue. -/
def pushed : List (Op α) → List α
  | [] => []
  | .push a :: ops => a :: pushed ops
  | .pop :: ops => pushed ops

/-- What a queue that holds `q` holds behind the operations. -/
def after (q : List α) : List (Op α) → List α
  | [] => q
  | .push a :: ops => after (q ++ [a]) ops
  | .pop :: ops => after q.tail ops

/-- What the queue gives at each `pop`: its first value, if it holds any. -/
def popped (q : List α) : List (Op α) → List (Option α)
  | [] => []
  | .push a :: ops => popped (q ++ [a]) ops
  | .pop :: ops => q.head? :: popped q.tail ops

theorem pushed_append (ops ops' : List (Op α)) : pushed (ops ++ ops') = pushed ops ++ pushed ops' := by
  induction ops with
  | nil => rfl
  | cons op ops ih =>
    cases op with
    | push a => exact congrArg (a :: ·) ih
    | pop => exact ih

theorem after_append (q : List α) (ops ops' : List (Op α)) : after q (ops ++ ops') = after (after q ops) ops' := by
  induction ops generalizing q with
  | nil => rfl
  | cons op ops ih =>
    cases op with
    | push a => exact ih _
    | pop => exact ih _

theorem popped_append (q : List α) (ops ops' : List (Op α)) :
    popped q (ops ++ ops') = popped q ops ++ popped (after q ops) ops' := by
  induction ops generalizing q with
  | nil => rfl
  | cons op ops ih =>
    cases op with
    | push a => exact ih _
    | pop => exact congrArg (q.head? :: ·) (ih _)

/-- **Nothing is lost, doubled or overtaken.** -/
theorem popped_append_after (q : List α) (ops : List (Op α)) :
    (popped q ops).reduceOption ++ after q ops = q ++ pushed ops := by
  induction ops generalizing q with
  | nil => exact (List.append_nil q).symm
  | cons op ops ih =>
    cases op with
    | push a =>
      show (popped (q ++ [a]) ops).reduceOption ++ after (q ++ [a]) ops = q ++ ([a] ++ pushed ops)
      rw [ih, List.append_assoc]
    | pop =>
      show (q.head? :: popped q.tail ops).reduceOption ++ after q.tail ops = q ++ pushed ops
      cases q with
      | nil =>
        rw [List.head?_nil, List.reduceOption_cons_of_none]
        exact ih []
      | cons a q =>
        rw [List.head?_cons, List.reduceOption_cons_of_some, List.cons_append, List.tail_cons, ih, List.cons_append]

/-- Where a `pop` that got nothing can be told from the others. -/
theorem filter_popped {β : Type*} {ks : List (Option α)} {f : Option α → β} {p : β → Bool} (hnone : p (f none) = false)
    (hsome : ∀ k ∈ ks.reduceOption, p (f (some k)) = true) :
    (ks.map f).filter p = ks.reduceOption.map fun k => f (some k) := by
  induction ks with
  | nil => rfl
  | cons k ks ih =>
    cases k with
    | none =>
      rw [List.reduceOption_cons_of_none] at hsome ⊢
      rw [List.map_cons, List.filter_cons_of_neg (by rw [hnone]; decide), ih hsome]
    | some k =>
      rw [List.reduceOption_cons_of_some] at hsome ⊢
      rw [List.map_cons, List.filter_cons_of_pos (hsome k List.mem_cons_self), List.map_cons,
        ih fun k hk => hsome k (List.mem_cons_of_mem _ hk)]

end Fifo

/-! ## Rings -/

structure RingBuffer (α : Type*) (n : ℕ) where
  slots : Vector α n
  front : Fin n
  rear : Fin n

namespace RingBuffer

open Fifo

variable {α : Type*} {n : ℕ}

/-- `(i + 1) % n` -/
def next (i : Fin n) : Fin n := ⟨(i + 1) % n, Nat.mod_lt _ i.pos⟩

def enqueue (q : RingBuffer α n) (a : α) : RingBuffer α n where
  slots := q.slots.set q.rear a
  front := q.front
  rear := next q.rear

/-- An empty ring gives nothing. -/
def dequeue (q : RingBuffer α n) : Option α × RingBuffer α n :=
  if q.front = q.rear then (none, q) else (some q.slots[q.front], { q with front := next q.front })

/-- How many values there are from `front` to `rear`. -/
def size (q : RingBuffer α n) : ℕ := (q.rear + n - q.front) % n

/-- The value `i` slots behind `front`. -/
def value (q : RingBuffer α n) (i : ℕ) : α :=
  have h : (q.front + i) % n < n := Nat.mod_lt _ q.front.pos
  q.slots[(q.front + i) % n]

/-- The values from `front` to `rear`. -/
def contents (q : RingBuffer α n) : List α := (List.range q.size).map q.value

section Ops

variable (q : RingBuffer α n) (a : α)

theorem size_lt : q.size < n := Nat.mod_lt _ q.front.pos

@[simp] theorem contents_length : q.contents.length = q.size := by
  rw [contents, List.length_map, List.length_range]

/-- A distance below `n`, in the two forms that it has. -/
theorem size_eq :
    q.size = if q.front ≤ q.rear then (q.rear : ℕ) - (q.front : ℕ) else (q.rear : ℕ) + n - (q.front : ℕ) := by
  have hf := q.front.isLt
  have hr := q.rear.isLt
  unfold size
  by_cases h : q.front ≤ q.rear
  · have hle : (q.front : ℕ) ≤ q.rear := h
    rw [if_pos h, show (q.rear + n - q.front : ℕ) = (q.rear - q.front) + n by omega, Nat.add_mod_right,
      Nat.mod_eq_of_lt (by omega)]
  · have hlt : (q.rear : ℕ) < q.front := not_le.mp h
    rw [if_neg h, Nat.mod_eq_of_lt (by omega)]

/-- `rear` is the slot behind the last value. -/
theorem rear_eq : (q.rear : ℕ) = (q.front + q.size) % n := by
  have hf := q.front.isLt
  have hr := q.rear.isLt
  rw [size_eq]
  by_cases h : q.front ≤ q.rear
  · have hle : (q.front : ℕ) ≤ q.rear := h
    rw [if_pos h, Nat.mod_eq_of_lt (by omega)]
    omega
  · have hlt : (q.rear : ℕ) < q.front := not_le.mp h
    rw [if_neg h, show (q.front + (q.rear + n - q.front) : ℕ) = q.rear + n by omega, Nat.add_mod_right,
      Nat.mod_eq_of_lt hr]

theorem next_val {i : Fin n} {k : ℕ} (h : (i : ℕ) = k % n) : (next i : ℕ) = (k + 1) % n := by
  show (i + 1 : ℕ) % n = _
  rw [h, Nat.mod_add_mod]

/-- Slots less than `n` apart are different. -/
theorem slot_ne {f i j : ℕ} (hij : i < j) (hj : j < n) : (f + i) % n ≠ (f + j) % n := by
  intro h
  have hmod : j - i ≡ 0 [MOD n] := by
    have h' : f + i ≡ f + j [MOD n] := h
    have hi : i ≡ j [MOD n] := Nat.ModEq.add_left_cancel' f h'
    exact (Nat.modEq_zero_iff_dvd.mpr ((Nat.modEq_iff_dvd' hij.le).mp hi))
  have hdvd := Nat.modEq_zero_iff_dvd.mp hmod
  have := Nat.le_of_dvd (by omega) hdvd
  omega

/-- **A ring is empty where its indices are equal.** -/
theorem empty_iff : q.front = q.rear ↔ q.contents = [] := by
  have hlen : q.contents = [] ↔ q.size = 0 := by
    rw [← List.length_eq_zero_iff, contents_length]
  have hf := q.front.isLt
  have hr := q.rear.isLt
  rw [hlen, size_eq]
  by_cases h : q.front ≤ q.rear
  · have hle : (q.front : ℕ) ≤ q.rear := h
    rw [if_pos h, Fin.ext_iff]
    omega
  · have hlt : (q.rear : ℕ) < q.front := not_le.mp h
    rw [if_neg h, Fin.ext_iff]
    omega

theorem enqueue_size : (q.enqueue a).size = (q.size + 1) % n := by
  have hf := q.front.isLt
  have hrear : ((q.enqueue a).rear : ℕ) = (q.front + q.size + 1) % n := next_val q.rear_eq
  have hlt := (q.enqueue a).size_lt
  have hend := (q.enqueue a).rear_eq
  have hfront : (q.enqueue a).front = q.front := rfl
  rw [hrear, hfront] at hend
  have hcancel : q.size + 1 ≡ (q.enqueue a).size [MOD n] := by
    have h' : q.front + (q.size + 1) ≡ q.front + (q.enqueue a).size [MOD n] := hend
    exact Nat.ModEq.add_left_cancel' _ h'
  have hmod : (q.size + 1) % n = (q.enqueue a).size % n := hcancel
  rw [hmod, Nat.mod_eq_of_lt hlt]

/-- **One value more than it can hold makes a ring look empty.** -/
theorem enqueue_empty_iff : (q.enqueue a).front = (q.enqueue a).rear ↔ q.size + 1 = n := by
  have hlt := q.size_lt
  rw [empty_iff, ← List.length_eq_zero_iff, contents_length, enqueue_size]
  constructor
  · intro h
    by_contra hne
    rw [Nat.mod_eq_of_lt (by omega)] at h
    omega
  · intro h
    rw [h, Nat.mod_self]

theorem enqueue_contents (h : q.size + 1 < n) : (q.enqueue a).contents = q.contents ++ [a] := by
  have hvalue : ∀ i ≤ q.size, (q.enqueue a).value i = if i = q.size then a else q.value i := by
    intro i hi
    have hbound : (q.front + i) % n < n := Nat.mod_lt _ q.front.pos
    show (q.slots.set q.rear a q.rear.isLt)[(q.front + i) % n] = _
    rw [Vector.getElem_set]
    by_cases he : i = q.size
    · rw [if_pos he, if_pos (by rw [he, ← rear_eq])]
    · rw [if_neg he, if_neg]
      · rfl
      · rw [rear_eq]
        exact (slot_ne (by omega) (by omega)).symm
  rw [contents, enqueue_size, Nat.mod_eq_of_lt h, List.range_succ, List.map_append, List.map_singleton,
    hvalue _ le_rfl, if_pos rfl]
  congr 1
  refine List.map_congr_left fun i hi => ?_
  have hlt := List.mem_range.mp hi
  rw [hvalue i hlt.le, if_neg hlt.ne]

theorem dequeue_size (h : q.front ≠ q.rear) : q.dequeue.2.size + 1 = q.size := by
  have hsize : q.size ≠ 0 := by
    rw [← contents_length]
    exact fun h0 => h (q.empty_iff.mpr (List.length_eq_zero_iff.mp h0))
  have hlt := q.size_lt
  obtain ⟨t, ht⟩ : ∃ t, t = q.dequeue.2 := ⟨_, rfl⟩
  have hfront : t.front = next q.front := by rw [ht, dequeue, if_neg h]
  have hrear : t.rear = q.rear := by rw [ht, dequeue, if_neg h]
  have hf : (t.front : ℕ) = (q.front + 1) % n := by rw [hfront]; rfl
  have hend := t.rear_eq
  rw [hrear, rear_eq, hf, Nat.mod_add_mod] at hend
  have hcancel : q.size ≡ 1 + t.size [MOD n] := by
    have h' : q.front + q.size ≡ q.front + (1 + t.size) [MOD n] := by
      rw [← Nat.add_assoc]
      exact hend
    exact Nat.ModEq.add_left_cancel' _ h'
  have htlt := t.size_lt
  have hmod : q.size % n = (1 + t.size) % n := hcancel
  rw [Nat.mod_eq_of_lt hlt] at hmod
  by_cases hfull : 1 + t.size < n
  · rw [Nat.mod_eq_of_lt hfull] at hmod
    rw [← ht]
    omega
  · rw [show 1 + t.size = n by omega, Nat.mod_self] at hmod
    exact absurd hmod hsize

/-- **`dequeue` gives the first value and takes it away.** -/
theorem dequeue_contents : q.dequeue.1 = q.contents.head? ∧ q.dequeue.2.contents = q.contents.tail := by
  by_cases h : q.front = q.rear
  · have hnil := q.empty_iff.mp h
    rw [dequeue, if_pos h, hnil]
    exact ⟨rfl, rfl⟩
  · have hsize := q.dequeue_size h
    have hcons : q.contents = q.value 0 :: q.dequeue.2.contents := by
      rw [contents, contents, ← hsize, List.range_succ_eq_map, List.map_cons, List.map_map]
      congr 1
      refine List.map_congr_left fun i _ => ?_
      simp only [Function.comp, value, dequeue, if_neg h, next, Nat.mod_add_mod]
      congr 1
      rw [Nat.succ_eq_add_one, Nat.add_comm i 1, Nat.add_assoc]
    have hfirst : q.value 0 = q.slots[q.front] := by
      simp only [value, Nat.add_zero, Nat.mod_eq_of_lt q.front.isLt]
      rfl
    rw [hcons]
    refine ⟨?_, rfl⟩
    rw [dequeue, if_neg h, List.head?_cons, hfirst]

end Ops

/-! ## Runs -/

section Run

variable {q : RingBuffer α n} {ops : List (Op α)}

/-- The ring behind the operations. -/
def run (q : RingBuffer α n) : List (Op α) → RingBuffer α n
  | [] => q
  | .push a :: ops => run (q.enqueue a) ops
  | .pop :: ops => run q.dequeue.2 ops

/-- What the ring gives at each `pop`. -/
def given (q : RingBuffer α n) : List (Op α) → List (Option α)
  | [] => []
  | .push a :: ops => given (q.enqueue a) ops
  | .pop :: ops => q.dequeue.1 :: given q.dequeue.2 ops

/-- The queue holds less than `n` values before every operation, and behind the last. -/
def Below (n : ℕ) (l : List α) (ops : List (Op α)) : Prop := ∀ p, p <+: ops → (after l p).length < n

theorem below_nil {l : List α} : Below n l [] ↔ l.length < n := by
  refine ⟨fun h => h [] (List.prefix_refl []), fun h p hp => ?_⟩
  rw [List.prefix_nil.mp hp]
  exact h

theorem below_cons {l : List α} {op : Op α} : Below n l (op :: ops) ↔ l.length < n ∧ Below n (after l [op]) ops := by
  have hafter : ∀ p, after l (op :: p) = after (after l [op]) p := fun p => after_append l [op] p
  constructor
  · intro h
    refine ⟨h [] List.nil_prefix, fun p hp => ?_⟩
    rw [← hafter]
    exact h (op :: p) (List.cons_prefix_cons.mpr ⟨rfl, hp⟩)
  · rintro ⟨hl, h⟩ p hp
    cases p with
    | nil => exact hl
    | cons op' p =>
      obtain ⟨rfl, hp'⟩ := List.cons_prefix_cons.mp hp
      rw [hafter]
      exact h p hp'

theorem Below.append {l : List α} {ops' : List (Op α)} (h : Below n l (ops ++ ops')) : Below n l ops :=
  fun p hp => h p (hp.trans (List.prefix_append ops ops'))

theorem Below.enqueue_contents {a : α} (h : Below n q.contents (.push a :: ops)) :
    (q.enqueue a).contents = q.contents ++ [a] := by
  have hlen := h [.push a] (List.cons_prefix_cons.mpr ⟨rfl, List.nil_prefix⟩)
  refine RingBuffer.enqueue_contents q a ?_
  rwa [after, after, List.length_append, contents_length] at hlen

/-- **A ring that never gets full holds what a queue holds.** -/
theorem run_contents (h : Below n q.contents ops) : (q.run ops).contents = after q.contents ops := by
  induction ops generalizing q with
  | nil => rfl
  | cons op ops ih =>
    cases op with
    | push a =>
      have hq := h.enqueue_contents
      rw [run, ih (hq ▸ (below_cons.mp h).2), hq]
      rfl
    | pop =>
      have hq := q.dequeue_contents.2
      rw [run, ih (hq ▸ (below_cons.mp h).2), hq]
      rfl

/-- **A ring that never gets full gives what a queue gives.** -/
theorem given_eq (h : Below n q.contents ops) : q.given ops = popped q.contents ops := by
  induction ops generalizing q with
  | nil => rfl
  | cons op ops ih =>
    cases op with
    | push a =>
      have hq := h.enqueue_contents
      rw [given, ih (hq ▸ (below_cons.mp h).2), hq]
      rfl
    | pop =>
      obtain ⟨hhead, hq⟩ := q.dequeue_contents
      rw [given, ih (hq ▸ (below_cons.mp h).2), hhead, hq]
      rfl

theorem run_append (q : RingBuffer α n) (ops ops' : List (Op α)) : q.run (ops ++ ops') = (q.run ops).run ops' := by
  induction ops generalizing q with
  | nil => rfl
  | cons op ops ih =>
    cases op with
    | push a => exact ih _
    | pop => exact ih _

theorem given_append (q : RingBuffer α n) (ops ops' : List (Op α)) :
    q.given (ops ++ ops') = q.given ops ++ (q.run ops).given ops' := by
  induction ops generalizing q with
  | nil => rfl
  | cons op ops ih =>
    cases op with
    | push a => exact ih _
    | pop => exact congrArg (q.dequeue.1 :: ·) (ih _)

/-- The operations before the queue is full for the first time. -/
theorem exists_full {l : List α} (hl : l.length < n) (h : ¬ Below n l ops) :
    ∃ p a, p ++ [.push a] <+: ops ∧ Below n l p ∧ (after l p).length + 1 = n := by
  induction ops generalizing l with
  | nil => exact absurd (below_nil.mpr hl) h
  | cons op ops ih =>
    by_cases hop : (after l [op]).length < n
    · obtain ⟨p, a, hpre, hb, hlen⟩ := ih hop fun hb => h (below_cons.mpr ⟨hl, hb⟩)
      refine ⟨op :: p, a, List.cons_prefix_cons.mpr ⟨rfl, hpre⟩, below_cons.mpr ⟨hl, hb⟩, ?_⟩
      rwa [← List.singleton_append, after_append]
    · cases op with
      | push a =>
        refine ⟨[], a, List.cons_prefix_cons.mpr ⟨rfl, List.nil_prefix⟩, below_nil.mpr hl, ?_⟩
        have hlen : ¬ (l ++ [a]).length < n := hop
        rw [List.length_append, List.length_singleton] at hlen
        show l.length + 1 = n
        omega
      | pop =>
        have hlen : ¬ l.tail.length < n := hop
        rw [List.length_tail] at hlen
        omega

end Run

end RingBuffer
