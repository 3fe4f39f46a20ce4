import Rv32i.Nemu.Sdb.MainOp

/-!
# Matching parentheses in a range of the token array

* `range` — the tokens of a range as a list; `Matching` — a `(` and its own `)`;
* `checkParentheses_iff` — the answer and the flag of `check_parentheses` on every range of two tokens or
  more;
* `checkLoopIn` to `getMainOpIn` — the functions of `expr.c` again, with every access of the array made
  through a read that may fail;
* `getMainOp_main` — `get_main_op` on a balanced range with an operator outside all parentheses: what it
  returns, what it reads, and where each search for the end of a group stops.
-/

namespace Nemu

open Bracket

variable {tokens : ℤ → Token}

/-! ## Ranges -/

/-- The tokens `p` to `q`. -/
def range (tokens : ℤ → Token) (p q : ℤ) : List Token :=
  (List.range (q - p + 1).toNat).map fun k : ℕ => tokens (p + k)

theorem range_length (p q : ℤ) : (range tokens p q).length = (q - p + 1).toNat := by
  unfold range
  rw [List.length_map, List.length_range]

theorem range_cons {p q : ℤ} (h : p ≤ q) : range tokens p q = tokens p :: range tokens (p + 1) q := by
  obtain ⟨n, hn⟩ : ∃ n, n = (q - (p + 1) + 1).toNat := ⟨_, rfl⟩
  have hsucc : (q - p + 1).toNat = n + 1 := by omega
  unfold range
  rw [hsucc, ← hn, List.range_succ_eq_map, List.map_cons, List.map_map]
  congr 1
  · rw [Nat.cast_zero, add_zero]
  · apply List.map_congr_left
    intro k _
    show tokens (p + (k + 1 : ℕ)) = tokens (p + 1 + k)
    congr 1
    omega

theorem range_eq_of_slice {xs : List Token} {p : ℤ} (h : Slice tokens p xs) {q : ℤ} (hq : p + xs.length = q + 1) :
    range tokens p q = xs := by
  induction xs generalizing p with
  | nil =>
    have : (q - p + 1).toNat = 0 := by
      rw [List.length_nil] at hq
      omega
    unfold range
    rw [this]
    rfl
  | cons x xs ih =>
    obtain ⟨hx, hxs⟩ := h
    push_cast [List.length_cons] at hq
    rw [range_cons (by omega), hx, ih hxs (by omega)]

theorem slice_range (p q : ℤ) : Slice tokens p (range tokens p q) := by
  obtain ⟨n, hn⟩ : ∃ n, n = (q - p + 1).toNat := ⟨_, rfl⟩
  induction n generalizing p with
  | zero =>
    unfold range
    rw [← hn]
    trivial
  | succ n ih =>
    rw [range_cons (by omega)]
    exact ⟨rfl, ih (p + 1) (by omega)⟩

theorem range_append {p k q : ℤ} (hk : p ≤ k) (hq : k ≤ q + 1) :
    range tokens p q = range tokens p (k - 1) ++ range tokens k q := by
  have hlen : p + ((range tokens p (k - 1)).length : ℤ) = k := by
    rw [range_length]
    omega
  apply range_eq_of_slice
  · rw [slice_append, hlen]
    exact ⟨slice_range p (k - 1), slice_range k q⟩
  · rw [List.length_append, range_length, range_length]
    omega

/-- A `(` and its own `)`: what is between them is balanced. -/
structure Matching (tokens : ℤ → Token) (i j : ℤ) : Prop where
  lt : i < j
  lparen : (tokens i).type = .lparen
  rparen : (tokens j).type = .rparen
  body : Balanced Token.side (range tokens (i + 1) (j - 1))

theorem range_ends {p q : ℤ} (h : p < q) :
    range tokens p q = tokens p :: (range tokens (p + 1) (q - 1) ++ [tokens q]) := by
  have hlast : range tokens q q = [tokens q] := by
    apply range_eq_of_slice _ rfl
    exact ⟨rfl, trivial⟩
  have hinner : range tokens (p + 1) q = range tokens (p + 1) (q - 1) ++ range tokens q q :=
    range_append (by omega) (by omega)
  rw [range_cons (by omega), hinner, hlast]

/-- The ends of a range are a pair exactly when the range is enclosed. -/
theorem enclosed_range_iff {p q : ℤ} (h : p < q) : Enclosed Token.side (range tokens p q) ↔ Matching tokens p q := by
  rw [range_ends h, enclosed_cons_concat, Token.side_opening, Token.side_closing]
  constructor
  · rintro ⟨hl, hbody, hr⟩
    exact ⟨h, hl, hr, hbody⟩
  · rintro ⟨-, hl, hr, hbody⟩
    exact ⟨hl, hbody, hr⟩

theorem Matching.not_gt {i j k : ℤ} (hj : Matching tokens i j) (hk : Matching tokens i k) : ¬ j < k := by
  intro hlt
  have hij := hj.lt
  have hsplit : range tokens i k = range tokens i (j + 1 - 1) ++ range tokens (j + 1) k :=
    range_append (by omega) (by omega)
  rw [Int.add_sub_cancel, range_ends hk.lt] at hsplit
  have hpre : range tokens i j ≠ [] := by
    rw [range_ends hj.lt]
    exact List.cons_ne_nil _ _
  have hpost : range tokens (j + 1) k ≠ [] := by
    rw [range_cons (by omega)]
    exact List.cons_ne_nil _ _
  refine Enclosed.not_balanced_prefix (Token.side_opening.mpr hk.lparen) hk.body hsplit hpre hpost ?_
  exact ((enclosed_range_iff hj.lt).mpr hj).balanced

/-- A `(` has one match at most. -/
theorem Matching.unique {i j k : ℤ} (hj : Matching tokens i j) (hk : Matching tokens i k) : j = k :=
  le_antisymm (not_lt.mp (hk.not_gt hj)) (not_lt.mp (hj.not_gt hk))

/-! ## `check_parentheses` -/

/-- **`check_parentheses` tests for an enclosing pair, and its flag is the test for balance.** -/
theorem checkParentheses_iff (tokens : ℤ → Token) {p q : ℤ} (hpq : p < q) (bad : Bool) :
    ((checkParentheses tokens p q bad).1 = true ↔
      Balanced Token.side (range tokens p q) ∧ Matching tokens p q) ∧
    ((checkParentheses tokens p q bad).2 = true ↔ ¬ Balanced Token.side (range tokens p q)) := by
  have hslice : Slice tokens p (range tokens p q) := slice_range p q
  have hlen : 2 ≤ (range tokens p q).length := by
    rw [range_length]
    omega
  have hq : q = p + (range tokens p q).length - 1 := by
    rw [range_length]
    omega
  have hne : range tokens p q ≠ [] := List.ne_nil_of_length_pos (by omega)
  by_cases hb : Balanced Token.side (range tokens p q)
  · have hheld : held Token.side 0 (range tokens p q) = true ↔ Matching tokens p q := by
      rw [← enclosed_iff hb hlen, enclosed_range_iff hpq]
    rw [checkParentheses_balanced hslice hq hne hb]
    simp [hb, hheld]
  · rw [checkParentheses_unbalanced hslice hq hne hb]
    simp [hb]

/-- `(1)`, and behind it `+2)`. -/
def sampleTokens : ℤ → Token := fun i =>
  [⟨.lparen, ['(']⟩, ⟨.dec, ['1']⟩, ⟨.rparen, [')']⟩, ⟨.plus, ['+']⟩, ⟨.dec, ['2']⟩, ⟨.rparen, [')']⟩].getD i.toNat
    ⟨.unset, []⟩

theorem checkParentheses_sample : (checkParentheses sampleTokens 0 2 false).1 = true ∧
    (checkParentheses sampleTokens 0 4 false).2 = false ∧ (checkParentheses sampleTokens 0 5 false).2 = true := by
  have hbalanced : ∀ q, scan Token.side 0 (range sampleTokens 0 q) = some 0 →
      Balanced Token.side (range sampleTokens 0 q) := fun q => (balanced_iff_scan _).mpr
  have hmatch : Matching sampleTokens 0 2 := ⟨by decide, rfl, rfl, (balanced_iff_scan _).mpr (by decide)⟩
  refine ⟨?_, ?_, ?_⟩
  · exact (checkParentheses_iff sampleTokens (by decide) false).1.mpr ⟨hbalanced 2 (by decide), hmatch⟩
  · rw [← Bool.not_eq_true, (checkParentheses_iff sampleTokens (by decide) false).2]
    exact not_not.mpr (hbalanced 4 (by decide))
  · rw [(checkParentheses_iff sampleTokens (by decide) false).2, balanced_iff_scan]
    decide

/-! ## Checked reads -/

section Read

variable (read : ℤ → Exec Token)

/-- `checkLoop` with checked reads. -/
def checkLoopIn (q : ℤ) : ℕ → ℤ → ℕ → Bool → Exec (Bool × Bool)
  | 0, _, stack, full => .ok (if stack ≠ 0 then (false, true) else (full, false))
  | n + 1, i, stack, full => do
    let t ← read i
    if t.type = .rparen ∧ stack = 0 then .ok (false, true)
    else
      let stack :=
        if t.type = .lparen then stack + 1
        else if t.type = .rparen then stack - 1
        else stack
      checkLoopIn q n (i + 1) stack (if stack = 0 ∧ i ≠ q then false else full)

def checkParenthesesIn (p q : ℤ) (bad : Bool) : Exec (Bool × Bool) :=
  if p > q then .ok (false, bad) else checkLoopIn read q (q - p + 1).toNat p 0 true

def closeLoopIn (i : ℤ) : ℕ → ℤ → Bool → Exec (ℤ × Bool)
  | 0, _, _ => .error .overrun
  | n + 1, j, bad => do
    let (closed, bad) ← checkParenthesesIn read i j bad
    if closed then .ok (j, bad) else closeLoopIn i n (j + 1) bad

def mainOpLoopIn (q : ℤ) : ℕ → ℤ → List ℤ → Bool → Exec (List ℤ × Bool)
  | 0, _, stack, bad => .ok (stack, bad)
  | n + 1, i, stack, bad =>
    if i > q then .ok (stack, bad)
    else do
      let t ← read i
      let precedence := getOpPrecedence t.type
      if precedence = -1 then mainOpLoopIn q n (i + 1) stack bad
      else if precedence ≠ 0 then
        match stack with
        | [] => mainOpLoopIn q n (i + 1) [i] bad
        | top :: rest => do
          let u ← read top
          if precedence ≥ getOpPrecedence u.type then mainOpLoopIn q n (i + 1) (i :: top :: rest) bad
          else mainOpLoopIn q n (i + 1) (top :: rest) bad
      else do
        let (j, bad) ← closeLoopIn read i (32 - (i + 1)).toNat (i + 1) bad
        if j ≤ q then mainOpLoopIn q n (j + 1) stack bad else .error .assert

def getMainOpIn (p q : ℤ) (bad : Bool) : Exec (ℤ × Bool) := do
  let (stack, bad) ← mainOpLoopIn read q (q - p + 1).toNat p [] bad
  return (stack.head?.getD 0, bad)

end Read

/-- A read that fails outside `[p, q]`. -/
def readIn (tokens : ℤ → Token) (p q i : ℤ) : Exec Token :=
  if p ≤ i ∧ i ≤ q then .ok (tokens i) else .error .overrun

section Agree

variable {read : ℤ → Exec Token} {p q : ℤ}

theorem checkLoopIn_eq {i : ℤ} {n : ℕ} (h : ∀ k, i ≤ k → k < i + n → read k = .ok (tokens k)) (stack : ℕ)
    (full : Bool) : checkLoopIn read q n i stack full = .ok (checkLoop tokens q n i stack full) := by
  induction n generalizing i stack full with
  | zero => rfl
  | succ n ih =>
    push_cast at h
    have hrest := fun stack full => @ih (i + 1) (fun k hk hkn => h k (by omega) (by omega)) stack full
    have hi : read i = .ok (tokens i) := h i (le_refl i) (by omega)
    unfold checkLoopIn checkLoop
    simp only [hi, bind, Except.bind]
    split
    · rfl
    · exact hrest _ _

theorem checkParenthesesIn_eq {i j : ℤ} (h : ∀ k, i ≤ k → k ≤ j → read k = .ok (tokens k)) (bad : Bool) :
    checkParenthesesIn read i j bad = .ok (checkParentheses tokens i j bad) := by
  unfold checkParenthesesIn checkParentheses
  split
  · rfl
  · exact checkLoopIn_eq (fun k hk hkn => h k hk (by omega)) 0 true

theorem closeLoop_succ (i j : ℤ) (n : ℕ) (bad : Bool) : closeLoop tokens i (n + 1) j bad =
    if (checkParentheses tokens i j bad).1 then .ok (j, (checkParentheses tokens i j bad).2)
    else closeLoop tokens i n (j + 1) (checkParentheses tokens i j bad).2 := rfl

theorem closeLoop_ge {i j e : ℤ} {n : ℕ} {bad bad' : Bool} (h : closeLoop tokens i n j bad = .ok (e, bad')) :
    j ≤ e := by
  induction n generalizing j bad with
  | zero => cases h
  | succ n ih =>
    rw [closeLoop_succ] at h
    split at h
    · cases h
      exact le_refl e
    · have := ih h
      omega

theorem closeLoopIn_eq {i j e : ℤ} {n : ℕ} {bad bad' : Bool} (hrun : closeLoop tokens i n j bad = .ok (e, bad'))
    (h : ∀ k, i ≤ k → k ≤ e → read k = .ok (tokens k)) : closeLoopIn read i n j bad = .ok (e, bad') := by
  induction n generalizing j bad with
  | zero => cases hrun
  | succ n ih =>
    have hje : j ≤ e := closeLoop_ge hrun
    have hcheck := checkParenthesesIn_eq (fun k hk hkj => h k hk (hkj.trans hje)) bad
    rw [closeLoop_succ] at hrun
    unfold closeLoopIn
    simp only [hcheck, bind, Except.bind]
    by_cases hclosed : (checkParentheses tokens i j bad).1 = true
    · rw [if_pos hclosed] at hrun ⊢
      exact hrun
    · rw [if_neg hclosed] at hrun ⊢
      exact ih hrun

/-- What ends well reads `tokens[p]` to `tokens[q]` and nothing else: the stack holds indices of the range,
and the end of a group is tested against `q`. -/
theorem mainOpLoopIn_eq (h : ∀ k, p ≤ k → k ≤ q → read k = .ok (tokens k)) {n : ℕ} {i : ℤ} (hi : p ≤ i)
    {stack : List ℤ} (hstack : ∀ t ∈ stack, p ≤ t ∧ t ≤ q) {bad : Bool} {res : List ℤ × Bool}
    (hrun : mainOpLoop tokens q n i stack bad = .ok res) : mainOpLoopIn read q n i stack bad = .ok res := by
  induction n generalizing i stack bad with
  | zero => exact hrun
  | succ n ih =>
    unfold mainOpLoop at hrun
    unfold mainOpLoopIn
    by_cases hiq : i > q
    · rw [if_pos hiq] at hrun ⊢
      exact hrun
    rw [if_neg hiq] at hrun ⊢
    simp only [h i hi (by omega), bind, Except.bind]
    have hnext : p ≤ i + 1 := by omega
    have hpush : ∀ t ∈ i :: stack, p ≤ t ∧ t ≤ q := by
      intro t ht
      rcases List.mem_cons.mp ht with rfl | ht
      · exact ⟨hi, by omega⟩
      · exact hstack t ht
    by_cases hplain : getOpPrecedence (tokens i).type = -1
    · -- an operand
      rw [if_pos hplain] at hrun ⊢
      exact ih hnext hstack hrun
    rw [if_neg hplain] at hrun ⊢
    by_cases hop : getOpPrecedence (tokens i).type ≠ 0
    · rw [if_pos hop] at hrun ⊢
      cases stack with
      | nil => exact ih hnext hpush hrun
      | cons top rest =>
        obtain ⟨htop, htopq⟩ := hstack top List.mem_cons_self
        simp only [h top htop htopq]
        by_cases hle : getOpPrecedence (tokens i).type ≥ getOpPrecedence (tokens top).type
        · simp only [if_pos hle] at hrun ⊢
          exact ih hnext hpush hrun
        · simp only [if_neg hle] at hrun ⊢
          exact ih hnext hstack hrun
    · -- a group
      rw [if_neg hop] at hrun ⊢
      obtain ⟨⟨j, bad₁⟩, hclose, hrest⟩ := bind_ok hrun
      by_cases hjq : j ≤ q
      · have hge := closeLoop_ge hclose
        have hcloseIn := closeLoopIn_eq hclose fun k hk hkj => h k (hi.trans hk) (hkj.trans hjq)
        simp only [if_pos hjq] at hrest
        simp only [hcloseIn, if_pos hjq]
        exact ih (by omega) hstack hrest
      · simp only [if_neg hjq] at hrest
        cases hrest

theorem getMainOpIn_eq (h : ∀ k, p ≤ k → k ≤ q → read k = .ok (tokens k)) {bad : Bool} {res : ℤ × Bool}
    (hrun : getMainOp tokens p q bad = .ok res) : getMainOpIn read p q bad = .ok res := by
  obtain ⟨⟨stack, bad'⟩, hloop, hres⟩ := bind_ok hrun
  have hloopIn := mainOpLoopIn_eq h (le_refl p) (fun t ht => absurd ht List.not_mem_nil) hloop
  unfold getMainOpIn
  rw [hloopIn]
  exact hres

end Agree

theorem readIn_of_mem {p q k : ℤ} (hp : p ≤ k) (hq : k ≤ q) : readIn tokens p q k = .ok (tokens k) := by
  unfold readIn
  rw [if_pos ⟨hp, hq⟩]

/-! ## `get_main_op` -/

/-- The search from a `(` of a balanced range stops at its own `)`. -/
theorem closeLoop_matches {p q i : ℤ} (hp : 0 ≤ p) (hq : q < 32) (hb : Balanced Token.side (range tokens p q))
    (hi : p ≤ i) (hiq : i ≤ q) (hl : (tokens i).type = .lparen) :
    ∃ j, Matching tokens i j ∧ j ≤ q ∧
      ∀ bad, closeLoop tokens i (32 - (i + 1)).toNat (i + 1) bad = .ok (j, false) := by
  have hside : (tokens i).side = .opening := Token.side_opening.mpr hl
  rw [range_append hi (by omega), range_cons hiq] at hb
  obtain ⟨body, r, rest, hbody, hr, hrest⟩ := hb.partner hside
  have hlen : (body ++ r :: rest).length = (q - (i + 1) + 1).toNat := by rw [← hrest, range_length]
  rw [List.length_append, List.length_cons] at hlen
  have hslice : Slice tokens (i + 1) (body ++ r :: rest) := hrest ▸ slice_range (i + 1) q
  obtain ⟨hslicebody, htoken, -⟩ := slice_append.mp hslice
  have hgroup : Slice tokens i (tokens i :: (body ++ [r])) :=
    ⟨rfl, slice_append.mpr ⟨hslicebody, htoken, trivial⟩⟩
  refine ⟨i + 1 + body.length, ⟨by omega, hl, ?_, ?_⟩, by omega, fun bad => ?_⟩
  · rw [htoken]
    exact Token.side_closing.mp hr
  · rw [range_eq_of_slice hslicebody (by omega)]
    exact hbody
  · have hclose := @closeLoop_eq tokens (tokens i) r body hside hbody hr i hgroup (32 - (i + 1)).toNat 0
      (Nat.zero_le _) (by omega) bad
    rw [Nat.cast_zero, add_zero] at hclose
    exact hclose

/-- The main operator of a split is the rightmost of the loosest among the operators of the range. -/
theorem Split.rightmost {xs l r : List Token} {op : Token} (hs : Split xs l op r) {p : ℤ}
    (h : Slice tokens p xs) : (p + l.length) ∈ operators p xs ∧
      ∀ j ∈ operators p xs, rank tokens j ≤ rank tokens (p + l.length) ∧
        (p + l.length < j → rank tokens j < rank tokens (p + l.length)) := by
  obtain ⟨rfl, hl, hr, hplain, hop, hbefore, hafter⟩ := hs
  obtain ⟨hslicel, htoken, hslicer⟩ := slice_append.mp h
  have hrank : rank tokens (p + l.length) = getOpPrecedence op.type := by
    unfold rank
    rw [htoken]
  rw [operators_split hl hplain hop, hrank]
  refine ⟨List.mem_append_right _ List.mem_cons_self, fun j hj => ?_⟩
  rcases List.mem_append.mp hj with hj | hj
  · -- before the main operator
    obtain ⟨e, he, hje⟩ := mem_operators hl hslicel hj
    obtain ⟨-, hlt⟩ := operators_bounds hl hj
    rw [hje]
    exact ⟨hbefore p e he, fun hgt => absurd hgt (by omega)⟩
  · rcases List.mem_cons.mp hj with rfl | hj
    · exact ⟨hrank.le, fun hlt => absurd hlt (lt_irrefl _)⟩
    · obtain ⟨e, he, hje⟩ := mem_operators hr hslicer hj
      rw [hje]
      have hlt := hafter _ e he
      exact ⟨hlt.le, fun _ => hlt⟩

/-- **`get_main_op` on a balanced range with an operator outside all parentheses** returns the rightmost of
the loosest of these operators, with no read outside the range, and the search from each `(` stops at its
own `)`. -/
theorem getMainOp_main (tokens : ℤ → Token) {p q : ℤ} (hp : 0 ≤ p) (hpq : p ≤ q) (hq : q < 32)
    (hb : Balanced Token.side (range tokens p q)) (hops : operators p (range tokens p q) ≠ []) (bad : Bool) :
    (∃ k bad', getMainOp tokens p q bad = .ok (k, bad') ∧
      getMainOpIn (readIn tokens p q) p q bad = .ok (k, bad') ∧
      k ∈ operators p (range tokens p q) ∧
      ∀ j ∈ operators p (range tokens p q), rank tokens j ≤ rank tokens k ∧
        (k < j → rank tokens j < rank tokens k)) ∧
    ∀ i, p ≤ i → i ≤ q → (tokens i).type = .lparen → ∃ j, Matching tokens i j ∧ j ≤ q ∧
      ∀ bad, closeLoop tokens i (32 - (i + 1)).toNat (i + 1) bad = .ok (j, false) := by
  have hslice : Slice tokens p (range tokens p q) := slice_range p q
  have hlen := @range_length tokens p q
  refine ⟨?_, fun i hi hiq hl => closeLoop_matches hp hq hb hi hiq hl⟩
  rcases exists_split hb with hnone | ⟨l, op, r, hs⟩
  · -- no operator outside all parentheses
    obtain ⟨j, hj⟩ := List.exists_mem_of_ne_nil _ hops
    obtain ⟨e, he, rfl⟩ := List.mem_map.mp hj
    obtain ⟨hmem, hne⟩ := List.mem_filter.mp he
    exact absurd (hnone p e hmem) (of_decide_eq_true hne)
  · have hend : p + (range tokens p q).length = q + 1 := by omega
    obtain ⟨bad', hrun⟩ := getMainOp_eq hs hslice hend hp (by omega) bad
    obtain ⟨hmem, hmax⟩ := hs.rightmost hslice
    exact ⟨p + l.length, bad', hrun, getMainOpIn_eq (fun k hk hkq => readIn_of_mem hk hkq) hrun, hmem, hmax⟩

theorem getMainOp_main_sample : ∃ k bad', getMainOp sampleTokens 0 4 true = .ok (k, bad') ∧
    k ∈ operators 0 (range sampleTokens 0 4) := by
  have hb : Balanced Token.side (range sampleTokens 0 4) := (balanced_iff_scan _).mpr (by decide)
  obtain ⟨k, bad', hrun, -, hmem, -⟩ :=
    (getMainOp_main sampleTokens (by decide) (by decide) (by decide) hb (by decide) true).1
  exact ⟨k, bad', hrun, hmem⟩

end Nemu
