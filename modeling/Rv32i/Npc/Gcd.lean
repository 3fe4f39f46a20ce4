import Mathlib

/-!
# The greatest common divisor in hardware

`npc/src/GCD.scala` and `npc/src/DecoupledGCD.scala`: a register transfer machine that subtracts, and the same machine
behind two ready-valid interfaces.  An input lists what the pins carry in a cycle.

* `GCD.next`, `DecoupledGcd.next` — the registers after a clock edge;
* `GCD.finds_iff` — **the bare machine finds the divisor exactly when it has a first number to subtract**;
* `DecoupledGcd.answers` — **whatever the producer and the consumer do, the answers that are taken are those to the
  questions that were accepted**, in order, and at most one question is not answered yet;
* `DecoupledGcd.progress` — an accepted question is answered within as many cycles as its numbers have units.
-/

namespace Npc

/-- The subtraction of both machines. -/
def subtract {w : ℕ} (x y : BitVec w) : BitVec w × BitVec w := if y < x then (x - y, y) else (x, y - x)

section Subtract

variable {w : ℕ} (x y : BitVec w)

theorem subtract_gcd : Nat.gcd (subtract x y).1.toNat (subtract x y).2.toNat = Nat.gcd x.toNat y.toNat := by
  unfold subtract
  by_cases h : y < x
  · rw [if_pos h]
    rw [BitVec.lt_def] at h
    show Nat.gcd (x - y).toNat y.toNat = _
    rw [BitVec.toNat_sub_of_le (BitVec.le_def.mpr h.le), Nat.gcd_sub_self_left h.le]
  · rw [if_neg h]
    rw [BitVec.lt_def, not_lt] at h
    show Nat.gcd x.toNat (y - x).toNat = _
    rw [BitVec.toNat_sub_of_le (BitVec.le_def.mpr h), Nat.gcd_sub_self_right h]

/-- Between numbers that are not zero something is taken away. -/
theorem subtract_sum (hx : x ≠ 0) (hy : y ≠ 0) :
    (subtract x y).1.toNat + (subtract x y).2.toNat < x.toNat + y.toNat := by
  have hx' : x.toNat ≠ 0 := fun h => hx (BitVec.eq_of_toNat_eq h)
  have hy' : y.toNat ≠ 0 := fun h => hy (BitVec.eq_of_toNat_eq h)
  unfold subtract
  by_cases h : y < x
  · rw [if_pos h]
    rw [BitVec.lt_def] at h
    show (x - y).toNat + y.toNat < _
    rw [BitVec.toNat_sub_of_le (BitVec.le_def.mpr h.le)]
    omega
  · rw [if_neg h]
    rw [BitVec.lt_def, not_lt] at h
    show x.toNat + (y - x).toNat < _
    rw [BitVec.toNat_sub_of_le (BitVec.le_def.mpr h)]
    omega

/-- Once a number is zero, nothing changes. -/
theorem subtract_done (h : x = 0 ∨ y = 0) : subtract x y = (x, y) := by
  unfold subtract
  rcases h with rfl | rfl
  · rw [if_neg (by rw [BitVec.lt_def]; exact Nat.not_lt_zero _), sub_zero]
  · by_cases hx : 0 < x
    · rw [if_pos hx, sub_zero]
    · have hzero : x = 0 := by
        rw [BitVec.lt_def, not_lt] at hx
        exact BitVec.eq_of_toNat_eq (Nat.le_zero.mp hx)
      rw [if_neg hx, hzero, sub_zero]

end Subtract

/-! ## `GCD.scala` -/

namespace GCD

abbrev Value := BitVec 16

structure State where
  x : Value
  y : Value

structure Input where
  value1 : Value
  value2 : Value
  loadingValues : Bool

def next (s : State) (i : Input) : State :=
  if i.loadingValues then ⟨i.value1, i.value2⟩ else ⟨(subtract s.x s.y).1, (subtract s.x s.y).2⟩

def outputGCD (s : State) : Value := s.x

def outputValid (s : State) : Bool := s.y = 0

def run : State → List Input → State := List.foldl next

/-- Cycles in which nothing is loaded. -/
def NoLoad (is : List Input) : Prop := ∀ i ∈ is, i.loadingValues = false

theorem next_noLoad {i : Input} (h : i.loadingValues = false) (s : State) :
    next s i = ⟨(subtract s.x s.y).1, (subtract s.x s.y).2⟩ := if_neg (by rw [h]; decide)

/-- Without a load the divisor stays, and a finished machine as it is. -/
theorem run_noLoad {is : List Input} (h : NoLoad is) (s : State) :
    Nat.gcd (run s is).x.toNat (run s is).y.toNat = Nat.gcd s.x.toNat s.y.toNat ∧
      (s.x = 0 ∨ s.y = 0 → run s is = s) := by
  induction is generalizing s with
  | nil => exact ⟨rfl, fun _ => rfl⟩
  | cons i is ih =>
    obtain ⟨hi, his⟩ := List.forall_mem_cons.mp h
    obtain ⟨hgcd, hdone⟩ := ih his (next s i)
    refine ⟨hgcd.trans ?_, fun hz => ?_⟩
    · rw [next_noLoad hi]
      exact subtract_gcd s.x s.y
    · have hnext : next s i = s := by
        rw [next_noLoad hi, subtract_done _ _ hz]
      show run (next s i) is = s
      rw [hnext] at hdone ⊢
      exact hdone hz

/-- With a number to subtract, the other is used up. -/
theorem run_valid (n : ℕ) : ∀ {s : State} {is : List Input}, NoLoad is → s.x ≠ 0 → s.x.toNat + s.y.toNat ≤ n →
    n ≤ is.length → outputValid (run s is) = true := by
  induction n with
  | zero =>
    intro s is _ hx hsum _
    exact absurd (BitVec.eq_of_toNat_eq (show s.x.toNat = 0 by omega)) hx
  | succ n ih =>
    intro s is h hx hsum hlen
    by_cases hy : s.y = 0
    · rw [(run_noLoad h s).2 (.inr hy)]
      exact decide_eq_true hy
    · obtain ⟨i, is, rfl⟩ := List.exists_cons_of_length_pos (Nat.zero_lt_of_lt hlen)
      obtain ⟨hi, his⟩ := List.forall_mem_cons.mp h
      have hless := subtract_sum s.x s.y hx hy
      show outputValid (run (next s i) is) = true
      rw [next_noLoad hi]
      refine ih his ?_ (show (subtract s.x s.y).1.toNat + (subtract s.x s.y).2.toNat ≤ n by omega)
        (Nat.le_of_succ_le_succ hlen)
      unfold subtract
      by_cases hlt : s.y < s.x
      · rw [if_pos hlt]
        rw [BitVec.lt_def] at hlt
        intro hzero
        have hsub := congrArg BitVec.toNat (show s.x - s.y = 0 from hzero)
        rw [BitVec.toNat_sub_of_le (BitVec.le_def.mpr hlt.le), show (0 : Value).toNat = 0 from rfl] at hsub
        omega
      · rw [if_neg hlt]
        exact hx

/-- **What the machine says is valid is the divisor of the numbers that were loaded**, and it says so from some cycle on
exactly when the first of them is not zero or both are. -/
theorem finds_iff (s : State) {i : Input} (hload : i.loadingValues = true) :
    (∀ is, NoLoad is → outputValid (run (next s i) is) = true →
      outputGCD (run (next s i) is) = BitVec.ofNat 16 (Nat.gcd i.value1.toNat i.value2.toNat)) ∧
    ((∃ n, ∀ is, NoLoad is → n ≤ is.length → outputValid (run (next s i) is) = true) ↔ i.value1 ≠ 0 ∨ i.value2 = 0) := by
  have hnext : next s i = ⟨i.value1, i.value2⟩ := if_pos hload
  rw [hnext]
  refine ⟨fun is his hvalid => ?_, ?_, ?_⟩
  · have hy : (run ⟨i.value1, i.value2⟩ is).y = 0 := of_decide_eq_true hvalid
    have hgcd := (run_noLoad his ⟨i.value1, i.value2⟩).1
    rw [hy, show (0 : Value).toNat = 0 from rfl, Nat.gcd_zero_right] at hgcd
    show (run ⟨i.value1, i.value2⟩ is).x = BitVec.ofNat 16 (Nat.gcd i.value1.toNat i.value2.toNat)
    rw [← hgcd, BitVec.ofNat_toNat, BitVec.setWidth_eq]
  · rintro ⟨n, hvalid⟩
    by_cases hx : i.value1 = 0
    · have hquiet : NoLoad (List.replicate n ⟨0, 0, false⟩) := fun j hj => by
        rw [List.eq_of_mem_replicate hj]
      have hy := hvalid _ hquiet (by rw [List.length_replicate])
      rw [(run_noLoad hquiet _).2 (.inl hx)] at hy
      exact .inr (of_decide_eq_true hy)
    · exact .inl hx
  · rintro (hx | hy)
    · exact ⟨i.value1.toNat + i.value2.toNat, fun is his hlen => run_valid _ his hx le_rfl hlen⟩
    · refine ⟨0, fun is his _ => ?_⟩
      rw [(run_noLoad his _).2 (.inr hy)]
      exact decide_eq_true hy

/-- `6` and `4`: from some cycle on the answer is `2`. -/
theorem finds_iff_six : ∃ n, ∀ is, NoLoad is → n ≤ is.length →
    outputValid (run (next ⟨0, 0⟩ ⟨6, 4, true⟩) is) = true ∧ outputGCD (run (next ⟨0, 0⟩ ⟨6, 4, true⟩) is) = 2 := by
  obtain ⟨hright, hfinds⟩ := finds_iff ⟨0, 0⟩ (i := ⟨6, 4, true⟩) rfl
  obtain ⟨n, hvalid⟩ := hfinds.mpr (.inl (by decide))
  exact ⟨n, fun is his hlen => ⟨hvalid is his hlen, hright is his (hvalid is his hlen)⟩⟩

end GCD

/-! ## `DecoupledGCD.scala` -/

namespace DecoupledGcd

variable {w : ℕ}

/-- `GcdInputBundle` -/
structure Question (w : ℕ) where
  value1 : BitVec w
  value2 : BitVec w
  deriving DecidableEq

/-- `GcdOutputBundle` -/
structure Answer (w : ℕ) where
  value1 : BitVec w
  value2 : BitVec w
  gcd : BitVec w
  deriving DecidableEq

structure State (w : ℕ) where
  xInitial : BitVec w
  yInitial : BitVec w
  x : BitVec w
  y : BitVec w
  busy : Bool
  resultValid : Bool

/-- `input.valid`, `input.bits` and `output.ready`. -/
structure Input (w : ℕ) where
  valid : Bool
  bits : Question w
  ready : Bool

/-- Between questions, and after a reset, which sets only these registers. -/
def Idle (s : State w) : Prop := s.busy = false ∧ s.resultValid = false

/-- `x === 0.U || y === 0.U` -/
def finished (s : State w) : Bool := s.x = 0 ∨ s.y = 0

def inputReady (s : State w) : Bool := !s.busy

def outputValid (s : State w) : Bool := s.resultValid

/-- `output.bits`, where they are not `DontCare`. -/
def outputBits (s : State w) : Option (Answer w) :=
  if s.busy ∧ finished s then
    some { value1 := s.xInitial, value2 := s.yInitial, gcd := if s.x = 0 then s.y else s.x }
  else none

def next (s : State w) (i : Input w) : State w :=
  if s.busy then
    let s' := { s with x := (subtract s.x s.y).1, y := (subtract s.x s.y).2 }
    if finished s then
      if i.ready ∧ s.resultValid then { s' with busy := false, resultValid := false } else { s' with resultValid := true }
    else s'
  else if i.valid then
    { s with
      x := i.bits.value1, y := i.bits.value2, xInitial := i.bits.value1, yInitial := i.bits.value2, busy := true }
  else s

/-! ### Transactions -/

/-- The question that is accepted in a cycle. -/
def accepted (s : State w) (i : Input w) : List (Question w) := if inputReady s ∧ i.valid then [i.bits] else []

/-- What is taken in a cycle. -/
def taken (s : State w) (i : Input w) : List (Option (Answer w)) := if outputValid s ∧ i.ready then [outputBits s] else []

/-- The state after some cycles, with all that was accepted and taken. -/
def run (s : State w) : List (Input w) → State w × List (Question w) × List (Option (Answer w))
  | [] => (s, [], [])
  | i :: is => ((run (next s i) is).1, accepted s i ++ (run (next s i) is).2.1, taken s i ++ (run (next s i) is).2.2)

/-- The answer to a question. -/
def answer (q : Question w) : Answer w where
  value1 := q.value1
  value2 := q.value2
  gcd := BitVec.ofNat w (Nat.gcd q.value1.toNat q.value2.toNat)

/-- The machine is at work on these questions: one, or none. -/
def Pending (s : State w) : List (Question w) → Prop
  | [] => s.busy = false ∧ s.resultValid = false
  | [q] => s.busy = true ∧ s.xInitial = q.value1 ∧ s.yInitial = q.value2 ∧
    Nat.gcd s.x.toNat s.y.toNat = Nat.gcd q.value1.toNat q.value2.toNat ∧ (s.resultValid = true → finished s = true)
  | _ => False

/-- The bits of a finished machine are the answer. -/
theorem outputBits_eq {s : State w} {q : Question w} (h : Pending s [q]) (hfin : finished s = true) :
    outputBits s = some (answer q) := by
  obtain ⟨hbusy, h1, h2, hgcd, -⟩ := h
  unfold outputBits answer
  rw [if_pos ⟨hbusy, hfin⟩, h1, h2, ← hgcd]
  congr 2
  by_cases hx : s.x = 0
  · rw [if_pos hx, hx]
    simp
  · have hy : s.y = 0 := (of_decide_eq_true hfin).resolve_left hx
    rw [if_neg hx, hy]
    simp

/-- **A cycle**: what was asked and what is accepted is what is taken and what is then asked. -/
theorem next_pending {s : State w} {qs : List (Question w)} (h : Pending s qs) (i : Input w) :
    ∃ qs', Pending (next s i) qs' ∧
      (qs ++ accepted s i).map (fun q => some (answer q)) = taken s i ++ qs'.map fun q => some (answer q) := by
  match qs, h with
  | [], ⟨hbusy, hvalid⟩ =>
    have htaken : taken s i = [] := if_neg fun h => by
      unfold outputValid at h
      rw [hvalid] at h
      cases h.1
    by_cases hin : i.valid
    · have hnext : next s i = { s with
          x := i.bits.value1, y := i.bits.value2, xInitial := i.bits.value1, yInitial := i.bits.value2, busy := true } := by
        unfold next
        rw [if_neg (by rw [hbusy]; decide), if_pos hin]
      have haccepted : accepted s i = [i.bits] := if_pos ⟨by rw [inputReady, hbusy]; rfl, hin⟩
      refine ⟨[i.bits], ?_, by rw [htaken, haccepted]; rfl⟩
      rw [hnext]
      refine ⟨rfl, rfl, rfl, rfl, fun h => ?_⟩
      rw [show s.resultValid = true from h] at hvalid
      cases hvalid
    · have hnext : next s i = s := by
        unfold next
        rw [if_neg (by rw [hbusy]; decide), if_neg hin]
      have haccepted : accepted s i = [] := if_neg fun h => hin h.2
      refine ⟨[], ?_, by rw [htaken, haccepted]; rfl⟩
      rw [hnext]
      exact ⟨hbusy, hvalid⟩
  | [q], h =>
    obtain ⟨hbusy, h1, h2, hgcd, hvalid⟩ := h
    have haccepted : accepted s i = [] := if_neg fun h => by
      rw [inputReady, hbusy] at h
      cases h.1
    rw [haccepted, List.append_nil]
    by_cases hfin : finished s
    · by_cases htake : i.ready ∧ s.resultValid
      · have htaken : taken s i = [some (answer q)] := by
          unfold taken
          rw [if_pos ⟨htake.2, htake.1⟩, outputBits_eq ⟨hbusy, h1, h2, hgcd, hvalid⟩ hfin]
        refine ⟨[], ?_, by rw [htaken]; rfl⟩
        unfold next
        rw [if_pos hbusy, if_pos hfin, if_pos htake]
        exact ⟨rfl, rfl⟩
      · have htaken : taken s i = [] := if_neg fun h => htake ⟨h.2, h.1⟩
        refine ⟨[q], ?_, by rw [htaken]; rfl⟩
        unfold next
        rw [if_pos hbusy, if_pos hfin, if_neg htake, subtract_done _ _ (of_decide_eq_true hfin)]
        exact ⟨hbusy, h1, h2, hgcd, fun _ => hfin⟩
    · have hwait : ¬ s.resultValid = true := fun h => hfin (hvalid h)
      have htaken : taken s i = [] := if_neg fun h => hwait h.1
      refine ⟨[q], ?_, by rw [htaken]; rfl⟩
      unfold next
      rw [if_pos hbusy, if_neg hfin]
      exact ⟨hbusy, h1, h2, (subtract_gcd s.x s.y).trans hgcd, fun h => absurd h hwait⟩

theorem run_pending (is : List (Input w)) : ∀ {s : State w} {qs : List (Question w)}, Pending s qs →
    ∃ qs', Pending (run s is).1 qs' ∧ (qs ++ (run s is).2.1).map (fun q => some (answer q)) =
      (run s is).2.2 ++ qs'.map fun q => some (answer q) := by
  induction is with
  | nil =>
    intro s qs h
    exact ⟨qs, h, by simp [run]⟩
  | cons i is ih =>
    intro s qs h
    obtain ⟨qs1, h1, heq1⟩ := next_pending h i
    obtain ⟨qs2, h2, heq2⟩ := ih h1
    refine ⟨qs2, h2, ?_⟩
    show (qs ++ (accepted s i ++ (run (next s i) is).2.1)).map _ = taken s i ++ (run (next s i) is).2.2 ++ _
    rw [← List.append_assoc, List.map_append, heq1, List.append_assoc, ← List.map_append, heq2, List.append_assoc]

/-- **The answers that are taken are those to the questions that were accepted, in order**, for every behaviour of the
producer and the consumer; a question is outstanding exactly while the machine is busy. -/
theorem answers {s : State w} (h : Idle s) (is : List (Input w)) :
    ∃ qs : List (Question w), (run s is).2.1.map (fun q => some (answer q)) = (run s is).2.2 ++ qs.map (fun q => some (answer q)) ∧
      qs.length = if (run s is).1.busy then 1 else 0 := by
  obtain ⟨qs, hpending, heq⟩ := @run_pending w is s [] h
  refine ⟨qs, heq, ?_⟩
  match qs, hpending with
  | [], ⟨hbusy, _⟩ => rw [hbusy]; rfl
  | [q], ⟨hbusy, _⟩ => rw [hbusy]; rfl

/-- A question that waits for its consumer. -/
theorem answers_one : ∃ qs : List (Question 8),
    (run ⟨0, 0, 0, 0, false, false⟩ [⟨true, ⟨6, 4⟩, false⟩, ⟨true, ⟨3, 3⟩, true⟩]).2.1.map (fun q => some (answer q)) =
      (run ⟨0, 0, 0, 0, false, false⟩ [⟨true, ⟨6, 4⟩, false⟩, ⟨true, ⟨3, 3⟩, true⟩]).2.2 ++
        qs.map (fun q => some (answer q)) ∧ qs.length = 1 :=
  answers ⟨rfl, rfl⟩ _

/-! ### Progress -/

/-- The answer is offered for as long as it is not taken. -/
def Offers (s : State w) (a : Answer w) : Prop :=
  ∀ is : List (Input w), (∀ i ∈ is, i.ready = false) →
    outputValid (run s is).1 = true ∧ outputBits (run s is).1 = some a

theorem offers_of_valid {s : State w} {q : Question w} (h : Pending s [q]) (hvalid : s.resultValid = true) :
    Offers s (answer q) := by
  intro is hready
  induction is generalizing s with
  | nil => exact ⟨hvalid, outputBits_eq h (h.2.2.2.2 hvalid)⟩
  | cons i is ih =>
    obtain ⟨hi, his⟩ := List.forall_mem_cons.mp hready
    have hfin := h.2.2.2.2 hvalid
    have hnext : next s i = s := by
      unfold next
      rw [if_pos h.1, if_pos hfin, if_neg (by rw [hi]; simp), subtract_done _ _ (of_decide_eq_true hfin), ← hvalid]
    show outputValid (run (next s i) is).1 = true ∧ outputBits (run (next s i) is).1 = some (answer q)
    rw [hnext]
    exact ih h hvalid his

theorem offers_of_finished {s : State w} {q : Question w} (h : Pending s [q]) (hfin : finished s = true)
    {is : List (Input w)} (hlen : 0 < is.length) : ∃ k ≤ 1, Offers (run s (is.take k)).1 (answer q) := by
  by_cases hvalid : s.resultValid = true
  · exact ⟨0, by omega, offers_of_valid h hvalid⟩
  · obtain ⟨i, is, rfl⟩ := List.exists_cons_of_length_pos hlen
    have hnext : next s i = { s with resultValid := true } := by
      unfold next
      rw [if_pos h.1, if_pos hfin, if_neg fun hr => hvalid hr.2, subtract_done _ _ (of_decide_eq_true hfin)]
    refine ⟨1, le_rfl, ?_⟩
    show Offers (next s i) (answer q)
    rw [hnext]
    exact offers_of_valid ⟨h.1, h.2.1, h.2.2.1, h.2.2.2.1, fun _ => hfin⟩ rfl

/-- A machine at work gets on: after as many cycles as its numbers have units it has its answer. -/
theorem progress_from (n : ℕ) : ∀ {s : State w} {q : Question w} {is : List (Input w)}, Pending s [q] →
    s.x.toNat + s.y.toNat ≤ n → n < is.length → ∃ k ≤ n + 1, Offers (run s (is.take k)).1 (answer q) := by
  induction n with
  | zero =>
    intro s q is h hsum hlen
    have hzero : s.x = 0 := BitVec.eq_of_toNat_eq (show s.x.toNat = 0 by omega)
    exact offers_of_finished h (decide_eq_true (.inl hzero)) hlen
  | succ n ih =>
    intro s q is h hsum hlen
    by_cases hfin : finished s = true
    · obtain ⟨k, hk, hoffers⟩ := offers_of_finished h hfin (Nat.zero_lt_of_lt hlen)
      exact ⟨k, by omega, hoffers⟩
    · obtain ⟨i, is, rfl⟩ := List.exists_cons_of_length_pos (Nat.zero_lt_of_lt hlen)
      have hnot : ¬ (s.x = 0 ∨ s.y = 0) := fun hz => hfin (decide_eq_true hz)
      have hnext : next s i = { s with x := (subtract s.x s.y).1, y := (subtract s.x s.y).2 } := by
        unfold next
        rw [if_pos h.1, if_neg hfin]
      have hpending : Pending (next s i) [q] := by
        rw [hnext]
        exact ⟨h.1, h.2.1, h.2.2.1, (subtract_gcd s.x s.y).trans h.2.2.2.1, fun hres => absurd (h.2.2.2.2 hres) hfin⟩
      have hless : (next s i).x.toNat + (next s i).y.toNat ≤ n := by
        have := subtract_sum s.x s.y (fun hx => hnot (.inl hx)) (fun hy => hnot (.inr hy))
        rw [hnext]
        show (subtract s.x s.y).1.toNat + (subtract s.x s.y).2.toNat ≤ n
        omega
      obtain ⟨k, hk, hoffers⟩ := ih hpending hless (Nat.lt_of_succ_lt_succ hlen)
      exact ⟨k + 1, by omega, hoffers⟩

/-- **A question that is accepted is answered** within as many cycles as its numbers have units, whatever the producer and
the consumer do, and the answer is offered until it is taken. -/
theorem progress {s : State w} (h : Idle s) {i : Input w} (hvalid : i.valid = true) {is : List (Input w)}
    (hlen : i.bits.value1.toNat + i.bits.value2.toNat < is.length) :
    ∃ k ≤ i.bits.value1.toNat + i.bits.value2.toNat + 1, Offers (run (next s i) (is.take k)).1 (answer i.bits) := by
  have hnext : next s i = { s with
      x := i.bits.value1, y := i.bits.value2, xInitial := i.bits.value1, yInitial := i.bits.value2, busy := true } := by
    unfold next
    rw [if_neg (by rw [h.1]; decide), if_pos hvalid]
  rw [hnext]
  refine progress_from _ ⟨rfl, rfl, rfl, rfl, fun hres => ?_⟩ le_rfl hlen
  have hres' : s.resultValid = true := hres
  rw [h.2] at hres'
  cases hres'

/-- `1` and `2`, with a consumer that is ready all the time. -/
theorem progress_two : ∃ k ≤ 4, Offers (run (next (w := 8) ⟨0, 0, 0, 0, false, false⟩ ⟨true, ⟨1, 2⟩, true⟩)
    ((List.replicate 4 ⟨false, ⟨0, 0⟩, true⟩).take k)).1 (answer ⟨1, 2⟩) :=
  @progress 8 ⟨0, 0, 0, 0, false, false⟩ ⟨rfl, rfl⟩ ⟨true, ⟨1, 2⟩, true⟩ rfl
    (List.replicate 4 ⟨false, ⟨0, 0⟩, true⟩) (by decide)

end DecoupledGcd

end Npc
