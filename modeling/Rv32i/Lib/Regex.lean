import Mathlib

/-!
# Sequences of character classes

The regular expressions that are a sequence of character classes, each taken once or repeated
(`c` or `c+`), with the leftmost-longest matching of POSIX `regexec`.

* `Matches r s` — the expression matches the whole of `s`;
* `longest r s` — the length of the longest prefix of `s` that matches, `longest_spec` says so;
* `regexec r s` — start and end of the leftmost-longest match; `regexec_zero_iff` is the case of a match
  at the start.
-/

namespace Regex

variable {α : Type*}

/-- A character class, taken once or (`plus`) one or more times. -/
structure Piece (α : Type*) where
  cls : α → Bool
  plus : Bool

/-- The expression matches the word. -/
inductive Matches : List (Piece α) → List α → Prop
  | nil : Matches [] []
  | once {p r c s} : p.cls c = true → Matches r s → Matches (p :: r) (c :: s)
  | again {p r c s} : p.cls c = true → p.plus = true → Matches (p :: r) s → Matches (p :: r) (c :: s)

/-- The larger of two lengths, if there is one. -/
def larger : Option ℕ → Option ℕ → Option ℕ
  | some m, some n => some (max m n)
  | some m, none => some m
  | none, o => o

/-- The length of the longest matching prefix. -/
def longest : List (Piece α) → List α → Option ℕ
  | [], _ => some 0
  | _ :: _, [] => none
  | p :: r, c :: s =>
    if p.cls c then
      (larger (longest r s) (if p.plus then longest (p :: r) s else none)).map (· + 1)
    else none

/-- The leftmost-longest match, as its start and its end. -/
def regexec (r : List (Piece α)) : List α → Option (ℕ × ℕ)
  | [] => (longest r []).map fun n => (0, n)
  | c :: s =>
    match longest r (c :: s) with
    | some n => some (0, n)
    | none => (regexec r s).map fun m => (m.1 + 1, m.2 + 1)

/-! ## What `longest` finds -/

/-- `n` is the length of the longest matching prefix, or there is none. -/
def Longest (r : List (Piece α)) (s : List α) : Option ℕ → Prop
  | some n => (∃ u v, s = u ++ v ∧ u.length = n ∧ Matches r u) ∧
      ∀ u v, s = u ++ v → Matches r u → u.length ≤ n
  | none => ∀ u v, s = u ++ v → ¬ Matches r u

theorem matches_nil_iff (s : List α) : Matches [] s ↔ s = [] := by
  constructor
  · intro h
    cases h
    rfl
  · rintro rfl
    exact .nil

theorem matches_cons_iff {p : Piece α} {r : List (Piece α)} {c : α} {s : List α} :
    Matches (p :: r) (c :: s) ↔ p.cls c = true ∧ (Matches r s ∨ (p.plus = true ∧ Matches (p :: r) s)) := by
  constructor
  · intro h
    cases h with
    | once hc hs => exact ⟨hc, .inl hs⟩
    | again hc hp hs => exact ⟨hc, .inr ⟨hp, hs⟩⟩
  · rintro ⟨hc, hs | ⟨hp, hs⟩⟩
    · exact .once hc hs
    · exact .again hc hp hs

theorem not_matches_cons_nil (p : Piece α) (r : List (Piece α)) : ¬ Matches (p :: r) ([] : List α) := by
  intro h
  cases h

/-- The longest of two kinds of prefixes, one character further. -/
theorem Longest.larger {p : Piece α} {r : List (Piece α)} {c : α} {s : List α} {o o' : Option ℕ}
    (hc : p.cls c = true) (h : Longest r s o) (h' : if p.plus then Longest (p :: r) s o' else o' = none) :
    Longest (p :: r) (c :: s) ((larger o o').map (· + 1)) := by
  have hsplit : ∀ u v, c :: s = u ++ v → Matches (p :: r) u →
      ∃ t, u = c :: t ∧ s = t ++ v ∧ (Matches r t ∨ (p.plus = true ∧ Matches (p :: r) t)) := by
    intro u v huv hu
    cases u with
    | nil => exact absurd hu (not_matches_cons_nil p r)
    | cons d t =>
      obtain ⟨rfl, hs⟩ := List.cons.inj huv
      exact ⟨t, rfl, hs, (matches_cons_iff.mp hu).2⟩
  have hplus : ∀ t v, s = t ++ v → p.plus = true → Matches (p :: r) t → ∃ n, o' = some n ∧ t.length ≤ n := by
    intro t v hs hp ht
    rw [if_pos hp] at h'
    cases o' with
    | none => exact absurd ht (h' t v hs)
    | some n => exact ⟨n, rfl, h'.2 t v hs ht⟩
  have honce : ∀ t v, s = t ++ v → Matches r t → ∃ n, o = some n ∧ t.length ≤ n := by
    intro t v hs ht
    cases o with
    | none => exact absurd ht (h t v hs)
    | some n => exact ⟨n, rfl, h.2 t v hs ht⟩
  have hmax : ∀ u v, c :: s = u ++ v → Matches (p :: r) u →
      ∃ n, Regex.larger o o' = some n ∧ u.length ≤ n + 1 := by
    intro u v huv hu
    obtain ⟨t, rfl, hs, ht | ⟨hp, ht⟩⟩ := hsplit u v huv hu
    · obtain ⟨n, rfl, hn⟩ := honce t v hs ht
      cases o' with
      | none => exact ⟨n, rfl, by simpa using hn⟩
      | some m => exact ⟨max n m, rfl, by simp; omega⟩
    · obtain ⟨n, rfl, hn⟩ := hplus t v hs hp ht
      cases o with
      | none => exact ⟨n, rfl, by simpa using hn⟩
      | some m => exact ⟨max m n, rfl, by simp; omega⟩
  have hex : ∀ n, o = some n → ∃ u v, c :: s = u ++ v ∧ u.length = n + 1 ∧ Matches (p :: r) u := by
    rintro n rfl
    obtain ⟨⟨t, v, hs, hn, ht⟩, -⟩ := h
    exact ⟨c :: t, v, by rw [hs]; rfl, by simp [hn], .once hc ht⟩
  have hex' : ∀ n, o' = some n → ∃ u v, c :: s = u ++ v ∧ u.length = n + 1 ∧ Matches (p :: r) u := by
    rintro n rfl
    by_cases hp : p.plus = true
    · rw [if_pos hp] at h'
      obtain ⟨⟨t, v, hs, hn, ht⟩, -⟩ := h'
      exact ⟨c :: t, v, by rw [hs]; rfl, by simp [hn], .again hc hp ht⟩
    · rw [if_neg hp] at h'
      cases h'
  cases hl : Regex.larger o o' with
  | none =>
    intro u v huv hu
    obtain ⟨n, hn, -⟩ := hmax u v huv hu
    rw [hl] at hn
    cases hn
  | some n =>
    constructor
    · rcases o with _ | a <;> rcases o' with _ | b <;> cases hl
      · exact hex' _ rfl
      · exact hex _ rfl
      · rcases Nat.le_total a b with hab | hab
        · rw [Nat.max_eq_right hab]
          exact hex' _ rfl
        · rw [Nat.max_eq_left hab]
          exact hex _ rfl
    · intro u v huv hu
      obtain ⟨k, hk, hle⟩ := hmax u v huv hu
      rw [hl] at hk
      cases hk
      exact hle

/-- **`longest` finds the longest matching prefix.** -/
theorem longest_spec (r : List (Piece α)) (s : List α) : Longest r s (longest r s) := by
  induction s generalizing r with
  | nil =>
    cases r with
    | nil => exact ⟨⟨[], [], rfl, rfl, .nil⟩, fun u v h hu => by rw [(matches_nil_iff u).mp hu]; rfl⟩
    | cons p r =>
      intro u v h hu
      have : u = [] := (List.append_eq_nil_iff.mp h.symm).1
      rw [this] at hu
      exact not_matches_cons_nil p r hu
  | cons c s ih =>
    cases r with
    | nil =>
      refine ⟨⟨[], c :: s, rfl, rfl, .nil⟩, fun u v h hu => ?_⟩
      rw [(matches_nil_iff u).mp hu]
      rfl
    | cons p r =>
      unfold longest
      by_cases hc : p.cls c = true
      · rw [if_pos hc]
        apply Longest.larger hc (ih r)
        by_cases hp : p.plus = true
        · rw [if_pos hp, if_pos hp]
          exact ih (p :: r)
        · rw [if_neg hp, if_neg hp]
      · rw [if_neg hc]
        intro u v huv hu
        cases u with
        | nil => exact not_matches_cons_nil p r hu
        | cons d t =>
          obtain ⟨rfl, -⟩ := List.cons.inj huv
          exact hc (matches_cons_iff.mp hu).1

/-- A match at the start is the longest matching prefix. -/
theorem regexec_zero_iff (r : List (Piece α)) (s : List α) (n : ℕ) :
    regexec r s = some (0, n) ↔ longest r s = some n := by
  cases s with
  | nil =>
    unfold regexec
    cases longest r [] <;> simp
  | cons c s =>
    unfold regexec
    cases hl : longest r (c :: s) with
    | some m => simp
    | none =>
      refine iff_of_false ?_ (by simp)
      intro h
      obtain ⟨m, -, hm⟩ := Option.map_eq_some_iff.mp h
      cases hm

/-! ## Computing matches -/

/-- One class, once. -/
def one (f : α → Bool) : Piece α := ⟨f, false⟩

/-- One class, one or more times. -/
def plus (f : α → Bool) : Piece α := ⟨f, true⟩

theorem longest_nil (s : List α) : longest [] s = some 0 := by
  cases s <;> rfl

theorem longest_one_cons {f : α → Bool} {r : List (Piece α)} {c : α} {s : List α} :
    longest (one f :: r) (c :: s) = if f c then (longest r s).map (· + 1) else none := by
  show (if f c then (larger (longest r s) none).map (· + 1) else none) = _
  cases longest r s <;> rfl

/-- A final repeated class takes all the characters it can. -/
theorem longest_plus (f : α → Bool) (s : List α) :
    longest [plus f] s = if s.takeWhile f = [] then none else some (s.takeWhile f).length := by
  induction s with
  | nil => rfl
  | cons c s ih =>
    show (if f c then (larger (longest [] s) (longest [plus f] s)).map (· + 1) else none) = _
    rw [longest_nil]
    cases hc : f c with
    | false => simp [hc]
    | true =>
      rw [if_pos rfl, ih, List.takeWhile_cons, hc]
      cases s.takeWhile f with
      | nil => rfl
      | cons d t => simp [larger]

end Regex
