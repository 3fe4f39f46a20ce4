import Rv32i.Lib.Bracket
import Rv32i.Lib.Rightmost
import Rv32i.Nemu.Sdb.Expr

/-!
# Parentheses and the main operator

What `check_parentheses` and `get_main_op` compute on a range of the token array, in terms of the tokens
of the range as a list: the counter test and the enclosure test of balanced lists, and the rightmost of
the loosest operators outside all parentheses (`getMainOp_eq`).
-/

namespace Nemu

open Bracket

def Token.side (t : Token) : Side :=
  match t.type with
  | .lparen => .opening
  | .rparen => .closing
  | _ => .plain

/-- The array holds the list from index `p` on. -/
def Slice (tokens : ℤ → Token) : ℤ → List Token → Prop
  | _, [] => True
  | p, t :: ts => tokens p = t ∧ Slice tokens (p + 1) ts

variable {tokens : ℤ → Token}

theorem slice_append {p : ℤ} {xs ys : List Token} :
    Slice tokens p (xs ++ ys) ↔ Slice tokens p xs ∧ Slice tokens (p + xs.length) ys := by
  induction xs generalizing p with
  | nil => simp [Slice]
  | cons x xs ih =>
    have hpos : p + ((x :: xs).length : ℤ) = p + 1 + xs.length := by
      push_cast [List.length_cons]
      omega
    rw [hpos]
    show tokens p = x ∧ Slice tokens (p + 1) (xs ++ ys) ↔ (tokens p = x ∧ Slice tokens (p + 1) xs) ∧ _
    rw [ih, and_assoc]

theorem Token.side_opening {t : Token} : t.side = .opening ↔ t.type = .lparen := by
  unfold Token.side
  cases t.type <;> simp

theorem Token.side_closing {t : Token} : t.side = .closing ↔ t.type = .rparen := by
  unfold Token.side
  cases t.type <;> simp

/-- Outside the parentheses, a token is an operator or has precedence -1. -/
theorem Token.precedence_of_plain {t : Token} (h : t.side = .plain) :
    getOpPrecedence t.type = -1 ∨ 1 ≤ getOpPrecedence t.type := by
  unfold Token.side at h
  cases ht : t.type <;> rw [ht] at h <;> simp [getOpPrecedence] at h ⊢

/-! ## `check_parentheses` -/

/-- What the loop of `check_parentheses` ends with on a list, from depth `d`. -/
def verdict (full : Bool) (d : ℕ) (xs : List Token) : Bool × Bool :=
  match scan Token.side d xs with
  | some 0 => (full && held Token.side d xs, false)
  | _ => (false, true)

theorem checkLoop_eq {xs : List Token} {i q : ℤ} (h : Slice tokens i xs) (hq : q = i + xs.length - 1) (d : ℕ)
    (full : Bool) : checkLoop tokens q xs.length i d full = verdict full d xs := by
  induction xs generalizing i d full with
  | nil =>
    cases d with
    | zero => simp [checkLoop, verdict, scan, held]
    | succ d => simp [checkLoop, verdict, scan]
  | cons x xs ih =>
    obtain ⟨hx, hxs⟩ := h
    have hq' : q = i + 1 + xs.length - 1 := by
      rw [hq]
      push_cast [List.length_cons]
      omega
    have hnext : (if x.type = .lparen then d + 1 else if x.type = .rparen then d - 1 else d) =
        next Token.side d x := by
      unfold next Token.side
      cases x.type <;> rfl
    have hclosing : (x.type = .rparen ∧ d = 0) = (x.side = .closing ∧ d = 0) := by
      rw [Token.side_closing]
    show (if (tokens i).type = .rparen ∧ d = 0 then (false, true)
      else checkLoop tokens q xs.length (i + 1)
        (if (tokens i).type = .lparen then d + 1 else if (tokens i).type = .rparen then d - 1 else d)
        (if (if (tokens i).type = .lparen then d + 1 else if (tokens i).type = .rparen then d - 1 else d) = 0 ∧
          i ≠ q then false else full)) = _
    rw [hx, hnext]
    by_cases hc : x.side = .closing ∧ d = 0
    · have hscan : scan Token.side d (x :: xs) = none := if_pos hc
      rw [if_pos (hclosing.symm ▸ hc)]
      unfold verdict
      rw [hscan]
    · have hscan : scan Token.side d (x :: xs) = scan Token.side (next Token.side d x) xs := if_neg hc
      rw [if_neg (hclosing.symm ▸ hc), ih hxs hq']
      unfold verdict
      rw [hscan]
      cases xs with
      | nil =>
        have hiq : i = q := by simp at hq'; omega
        simp [hiq, held]
      | cons y ys =>
        have hiq : i ≠ q := by
          push_cast [List.length_cons] at hq'
          omega
        rw [held_cons _ _ (List.cons_ne_nil _ _)]
        by_cases h0 : next Token.side d x = 0
        · simp [h0, hiq]
        · simp [h0]

/-- `check_parentheses` on a range that is not empty. -/
theorem checkParentheses_eq {xs : List Token} {p q : ℤ} (h : Slice tokens p xs) (hq : q = p + xs.length - 1)
    (hne : xs ≠ []) (bad : Bool) : checkParentheses tokens p q bad = verdict true 0 xs := by
  have hpos : 0 < xs.length := List.length_pos_of_ne_nil hne
  have hlen : (q - p + 1).toNat = xs.length := by omega
  unfold checkParentheses
  rw [if_neg (by omega), hlen, checkLoop_eq h hq]

/-- On a balanced range it is the enclosure test. -/
theorem checkParentheses_balanced {xs : List Token} {p q : ℤ} (h : Slice tokens p xs)
    (hq : q = p + xs.length - 1) (hne : xs ≠ []) (hb : Balanced Token.side xs) (bad : Bool) :
    checkParentheses tokens p q bad = (held Token.side 0 xs, false) := by
  rw [checkParentheses_eq h hq hne]
  unfold verdict
  rw [hb.scan_eq]
  rfl

/-- A range that is not balanced is a bad expression. -/
theorem checkParentheses_unbalanced {xs : List Token} {p q : ℤ} (h : Slice tokens p xs)
    (hq : q = p + xs.length - 1) (hne : xs ≠ []) (hb : ¬ Balanced Token.side xs) (bad : Bool) :
    checkParentheses tokens p q bad = (false, true) := by
  rw [checkParentheses_eq h hq hne]
  unfold verdict
  rw [balanced_iff_scan] at hb
  split
  · exact absurd ‹_› hb
  · rfl

/-! ## `get_main_op` -/

/-- The search for the end of a pair of parentheses finds the matching one. -/
theorem closeLoop_eq {l r : Token} {body : List Token} (hl : l.side = .opening)
    (hbody : Balanced Token.side body) (hr : r.side = .closing) {i : ℤ}
    (h : Slice tokens i (l :: (body ++ [r]))) {n k : ℕ} (hk : k ≤ body.length) (hn : body.length < n + k)
    (bad : Bool) : closeLoop tokens i n (i + 1 + k) bad = .ok (i + 1 + body.length, false) := by
  induction n generalizing k bad with
  | zero => omega
  | succ n ih =>
    have hslice : Slice tokens i ((l :: (body ++ [r])).take (k + 2)) := by
      have := h
      rw [← List.take_append_drop (k + 2) (l :: (body ++ [r])), slice_append] at this
      exact this.1
    have hlen : ((l :: (body ++ [r])).take (k + 2)).length = k + 2 := by
      rw [List.length_take_of_le]
      simp only [List.length_cons, List.length_append, List.length_nil]
      omega
    have hne : (l :: (body ++ [r])).take (k + 2) ≠ [] := by
      intro h0
      rw [h0] at hlen
      cases hlen
    have hq : i + 1 + k = i + ((l :: (body ++ [r])).take (k + 2)).length - 1 := by
      rw [hlen]
      push_cast
      omega
    unfold closeLoop
    by_cases hend : k = body.length
    · -- the range is the whole pair
      subst hend
      have hall : (l :: (body ++ [r])).take (body.length + 2) = l :: (body ++ [r]) := by
        apply List.take_of_length_le
        simp
      have henc : Enclosed Token.side (l :: (body ++ [r])) := ⟨l, body, r, hl, hbody, hr, rfl⟩
      rw [hall] at hq
      rw [checkParentheses_balanced h hq (List.cons_ne_nil _ _) henc.balanced,
        (enclosed_iff henc.balanced (by simp)).mp henc]
      rfl
    · -- the range ends inside the pair
      have hsplit := List.take_append_drop (k + 2) (l :: (body ++ [r]))
      have hpost : (l :: (body ++ [r])).drop (k + 2) ≠ [] := by
        intro h0
        have := congrArg List.length h0
        rw [List.length_drop] at this
        simp only [List.length_cons, List.length_append, List.length_nil] at this
        omega
      have hbad := Enclosed.not_balanced_prefix hl hbody hsplit.symm hne hpost
      rw [checkParentheses_unbalanced hslice hq hne hbad]
      have := @ih (k + 1) (by omega) (by omega) true
      push_cast at this
      rw [← add_assoc] at this
      exact this

/-- The precedence of the operator at an index. -/
def rank (tokens : ℤ → Token) (i : ℤ) : ℤ := getOpPrecedence (tokens i).type

/-- The indices of the operators outside all parentheses of a list that starts at index `i`. -/
def operators (i : ℤ) (xs : List Token) : List ℤ :=
  ((tops Token.side 0 i xs).filter fun e => getOpPrecedence e.2.type ≠ -1).map Prod.fst

theorem operators_plain {x : Token} (h : x.side = .plain) (i : ℤ) (xs : List Token) :
    operators i (x :: xs) =
      if getOpPrecedence x.type = -1 then operators (i + 1) xs else i :: operators (i + 1) xs := by
  unfold operators
  rw [tops_plain h, List.filter_cons]
  by_cases hp : getOpPrecedence x.type = -1 <;> simp [hp]

/-- The operators before, at and behind an operator outside all parentheses. -/
theorem operators_split {l r : List Token} {op : Token} (hl : Balanced Token.side l) (hplain : op.side = .plain)
    (hop : 1 ≤ getOpPrecedence op.type) (i : ℤ) :
    operators i (l ++ op :: r) = operators i l ++ (i + l.length) :: operators (i + l.length + 1) r := by
  have hne : getOpPrecedence op.type ≠ -1 := by omega
  unfold operators
  rw [tops_split hl hplain, List.filter_append, List.filter_cons, if_pos (by simpa using hne)]
  simp

/-- The index of an operator is in the range of the list. -/
theorem operators_bounds {xs : List Token} (hb : Balanced Token.side xs) {i j : ℤ} (hj : j ∈ operators i xs) :
    i ≤ j ∧ j < i + xs.length := by
  obtain ⟨⟨k, x⟩, he, rfl⟩ := List.mem_map.mp hj
  obtain ⟨l, r, rfl, -, -, -, hk⟩ := exists_split_of_mem_tops hb (List.mem_filter.mp he).1
  rw [List.length_append, List.length_cons]
  show i ≤ k ∧ k < _
  omega

/-- The loop of `get_main_op` pushes the operators outside all parentheses, in order. -/
theorem mainOpLoop_eq {xs : List Token} (hb : Balanced Token.side xs) {i q : ℤ} (h : Slice tokens i xs)
    (hq : i + xs.length = q + 1) (hi : 0 ≤ i) (hend : i + xs.length ≤ 32) {n : ℕ} (hn : xs.length ≤ n)
    (stack : List ℤ) (bad : Bool) : ∃ bad', mainOpLoop tokens q n i stack bad =
      .ok ((operators i xs).foldl (Rightmost.push (rank tokens)) stack, bad') := by
  induction hb generalizing i n stack bad with
  | nil =>
    refine ⟨bad, ?_⟩
    cases n with
    | zero => rfl
    | succ n =>
      have : i > q := by simp at hq; omega
      unfold mainOpLoop
      rw [if_pos this]
      rfl
  | @plain x xs hx _ ih =>
    obtain ⟨htok, hxs⟩ := h
    obtain ⟨n, rfl⟩ : ∃ k, n = k + 1 := ⟨n - 1, by simp at hn; omega⟩
    push_cast [List.length_cons] at hq hend hn
    have hiq : ¬ i > q := by omega
    have hrec := fun stack => ih hxs (by omega) (by omega) (by omega) (by omega : xs.length ≤ n) stack bad
    rw [operators_plain hx]
    unfold mainOpLoop
    rw [if_neg hiq, htok]
    rcases Token.precedence_of_plain hx with hp | hp
    · -- an operand
      rw [if_pos hp]
      simp only [hp, if_true]
      exact hrec stack
    · have hne : getOpPrecedence x.type ≠ -1 := by omega
      have hne0 : getOpPrecedence x.type ≠ 0 := by omega
      simp only [hne, hne0, if_false, if_true, ne_eq, not_false_eq_true, List.foldl_cons]
      cases stack with
      | nil => exact hrec [i]
      | cons top rest =>
        rw [Rightmost.push_cons]
        show ∃ bad', (if getOpPrecedence x.type ≥ rank tokens top then _ else _) = _
        have hrank : rank tokens i = getOpPrecedence x.type := by
          unfold rank
          rw [htok]
        rw [hrank]
        by_cases hle : rank tokens top ≤ getOpPrecedence x.type
        · rw [if_pos hle, if_pos hle]
          exact hrec _
        · rw [if_neg hle, if_neg hle]
          exact hrec _
  | @group l body r xs hl hbody hr _ _ ih =>
    have hsplit : l :: (body ++ r :: xs) = (l :: (body ++ [r])) ++ xs := by simp
    have hops : operators i (l :: (body ++ r :: xs)) = operators (i + 1 + body.length + 1) xs := by
      unfold operators
      rw [tops_group hl hbody hr]
      congr 3
      omega
    have htok : (tokens i).type = .lparen := by
      rw [h.1]
      exact Token.side_opening.mp hl
    rw [hsplit, slice_append] at h
    obtain ⟨hgroup, hxs⟩ := h
    obtain ⟨n, rfl⟩ : ∃ k, n = k + 1 := ⟨n - 1, by simp at hn; omega⟩
    simp only [List.length_cons, List.length_append, List.length_nil] at hq hend hn hxs
    push_cast at hq hend hxs
    have hiq : ¬ i > q := by omega
    have hclose := @closeLoop_eq tokens l r body hl hbody hr i hgroup (32 - (i + 1)).toNat 0 (by omega)
      (by omega) bad
    have hjq : i + 1 + body.length ≤ q := by omega
    rw [hops]
    unfold mainOpLoop
    rw [if_neg hiq, htok]
    rw [Nat.cast_zero, add_zero] at hclose
    simp only [getOpPrecedence, hclose]
    show ∃ bad', (if i + 1 + (body.length : ℤ) ≤ q then _ else _) = _
    rw [if_pos hjq]
    have hpos : i + (body.length + 1 + 1) = i + 1 + body.length + 1 := by omega
    rw [hpos] at hxs
    exact ih hxs (by omega) (by omega) (by omega) (by omega) stack false

/-- A condition on the precedences of the tokens outside all parentheses. -/
def Outside (P : ℤ → Prop) (xs : List Token) : Prop :=
  ∀ i, ∀ e ∈ tops Token.side 0 i xs, P (getOpPrecedence e.2.type)

theorem Outside.nil (P : ℤ → Prop) : Outside P [] := by
  intro i e he
  cases he

theorem outside_plain {P : ℤ → Prop} {x : Token} (h : x.side = .plain) {xs : List Token} :
    Outside P (x :: xs) ↔ P (getOpPrecedence x.type) ∧ Outside P xs := by
  unfold Outside
  constructor
  · intro hall
    refine ⟨hall 0 (0, x) (by rw [tops_plain h]; exact List.mem_cons_self), fun i e he => ?_⟩
    refine hall (i - 1) e ?_
    rw [tops_plain h, Int.sub_add_cancel]
    exact List.mem_cons_of_mem _ he
  · rintro ⟨hx, hall⟩ i e he
    rw [tops_plain h, List.mem_cons] at he
    rcases he with rfl | he
    · exact hx
    · exact hall _ e he

theorem outside_group {P : ℤ → Prop} {l r : Token} {body xs : List Token} (hl : l.side = .opening)
    (hb : Balanced Token.side body) (hr : r.side = .closing) (h : Outside P xs) :
    Outside P (l :: (body ++ r :: xs)) := by
  intro i e he
  rw [tops_group hl hb hr] at he
  exact h _ e he

theorem Outside.append {P : ℤ → Prop} {xs ys : List Token} (hx : Balanced Token.side xs) (h : Outside P xs)
    (h' : Outside P ys) : Outside P (xs ++ ys) := by
  intro i e he
  rw [tops_append (hx.scan_eq 0), List.mem_append] at he
  rcases he with he | he
  · exact h i e he
  · exact h' _ e he

theorem Outside.mono {P Q : ℤ → Prop} {xs : List Token} (h : Outside P xs) (hPQ : ∀ k, P k → Q k) :
    Outside Q xs := fun i e he => hPQ _ (h i e he)

theorem operators_of_outside {xs : List Token} (h : Outside (· = -1) xs) (i : ℤ) : operators i xs = [] := by
  unfold operators
  rw [List.map_eq_nil_iff, List.filter_eq_nil_iff]
  intro e he
  simpa using h i e he

/-- The list is split at its main operator: the rightmost of the loosest outside all parentheses. -/
structure Split (xs l : List Token) (op : Token) (r : List Token) : Prop where
  eq : xs = l ++ op :: r
  left : Balanced Token.side l
  right : Balanced Token.side r
  plain : op.side = .plain
  operator : 1 ≤ getOpPrecedence op.type
  before : Outside (· ≤ getOpPrecedence op.type) l
  after : Outside (· < getOpPrecedence op.type) r

theorem mem_operators {xs : List Token} (hb : Balanced Token.side xs) {i j : ℤ} (h : Slice tokens i xs)
    (hj : j ∈ operators i xs) : ∃ e ∈ tops Token.side 0 i xs, rank tokens j = getOpPrecedence e.2.type := by
  obtain ⟨⟨k, x⟩, he, rfl⟩ := List.mem_map.mp hj
  have hmem := (List.mem_filter.mp he).1
  obtain ⟨l, r, rfl, -, -, -, rfl⟩ := exists_split_of_mem_tops hb hmem
  refine ⟨_, hmem, ?_⟩
  unfold rank
  rw [(slice_append.mp h).2.1]

/-- **`get_main_op` finds the main operator.** -/
theorem getMainOp_eq {xs l r : List Token} {op : Token} (hs : Split xs l op r) {p q : ℤ}
    (h : Slice tokens p xs) (hq : p + xs.length = q + 1) (hp : 0 ≤ p) (hend : p + xs.length ≤ 32) (bad : Bool) :
    ∃ bad', getMainOp tokens p q bad = .ok (p + l.length, bad') := by
  obtain ⟨rfl, hl, hr, hplain, hop, hbefore, hafter⟩ := hs
  have hb : Balanced Token.side (l ++ op :: r) := hl.append (.plain hplain hr)
  have hlen : (q - p + 1).toNat = (l ++ op :: r).length := by omega
  obtain ⟨bad', hloop⟩ := mainOpLoop_eq hb h hq hp hend (Nat.le_refl _) [] bad
  have hops := operators_split hl hplain hop p (r := r)
  have hslice := slice_append.mp h
  have hrank : rank tokens (p + l.length) = getOpPrecedence op.type := by
    unfold rank
    rw [hslice.2.1]
  have hmain : Rightmost.IsMain (rank tokens) (operators p l) (p + l.length)
      (operators (p + l.length + 1) r) := by
    constructor
    · intro j hj
      obtain ⟨e, he, hje⟩ := mem_operators hl hslice.1 hj
      rw [hje, hrank]
      exact hbefore p e he
    · intro j hj
      obtain ⟨e, he, hje⟩ := mem_operators hr hslice.2.2 hj
      rw [hje, hrank]
      exact hafter _ e he
  refine ⟨bad', ?_⟩
  unfold getMainOp
  rw [hlen, hloop, hops]
  show Except.ok ((_ : List ℤ).head?.getD 0, bad') = _
  rw [hmain.head?]
  rfl

/-- A balanced list has a main operator, or no operator outside all parentheses. -/
theorem exists_split {xs : List Token} (hb : Balanced Token.side xs) :
    Outside (· = -1) xs ∨ ∃ l op r, Split xs l op r := by
  induction hb with
  | nil => exact .inl (.nil _)
  | @plain y ys hy hys ih =>
    rcases Token.precedence_of_plain hy with hp | hp
    · -- an operand
      rcases ih with ih | ⟨l, op, r, rfl, hl, hr, hplain, hop, hbefore, hafter⟩
      · exact .inl ((outside_plain hy).mpr ⟨hp, ih⟩)
      · refine .inr ⟨y :: l, op, r, rfl, .plain hy hl, hr, hplain, hop, ?_, hafter⟩
        exact (outside_plain hy).mpr ⟨by omega, hbefore⟩
    · right
      rcases ih with ih | ⟨l, op, r, rfl, hl, hr, hplain, hop, hbefore, hafter⟩
      · exact ⟨[], y, ys, rfl, .nil, hys, hy, hp, .nil _, ih.mono fun k hk => by omega⟩
      · by_cases hle : getOpPrecedence y.type ≤ getOpPrecedence op.type
        · exact ⟨y :: l, op, r, rfl, .plain hy hl, hr, hplain, hop, (outside_plain hy).mpr ⟨hle, hbefore⟩, hafter⟩
        · refine ⟨[], y, l ++ op :: r, rfl, .nil, hys, hy, hp, .nil _, ?_⟩
          refine Outside.append hl (hbefore.mono fun k hk => by omega) ?_
          exact (outside_plain hplain).mpr ⟨by omega, hafter.mono fun k hk => by omega⟩
  | @group a body c ys ha hbody hc hys _ ih =>
    rcases ih with ih | ⟨l, op, r, rfl, hl, hr, hplain, hop, hbefore, hafter⟩
    · exact .inl (outside_group ha hbody hc ih)
    · refine .inr ⟨a :: (body ++ c :: l), op, r, by simp, .group ha hbody hc hl, hr, hplain, hop, ?_, hafter⟩
      exact outside_group ha hbody hc hbefore

end Nemu
