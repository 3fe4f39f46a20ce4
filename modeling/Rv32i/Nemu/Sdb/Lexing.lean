import Rv32i.Nemu.Sdb.MainOp
import Rv32i.Nemu.Sdb.Syntax

/-!
# Lexing

`make_token` as a function of the text (`lexemes`), and what it finds in a string that shows a token list
(`lexemes_of_renders`).
-/

namespace Nemu

open Regex

/-! ## The rules -/

theorem firstRule_eq (e : List Char) :
    firstRule e = rules.findSome? fun r => (longest r.regex e).map fun len => (r.tokenType, len) := by
  unfold firstRule
  congr 1
  funext r
  cases hl : longest r.regex e with
  | some n =>
    rw [(regexec_zero_iff _ _ _).mpr hl]
    rfl
  | none =>
    split
    · rename_i len hr
      rw [(regexec_zero_iff _ _ _).mp hr] at hl
      cases hl
    · rfl

theorem rules_regex : ∀ r ∈ rules, r.regex ≠ [] := by
  intro r hr
  simp only [rules, List.mem_cons, List.not_mem_nil, or_false] at hr
  rcases hr with rfl | rfl | rfl | rfl | rfl | rfl | rfl | rfl | rfl | rfl | rfl | rfl | rfl <;> simp

/-- A match is not empty and does not go past the end. -/
theorem firstRule_bounds {e : List Char} {t : TokenType} {len : ℕ} (h : firstRule e = some (t, len)) :
    1 ≤ len ∧ len ≤ e.length := by
  rw [firstRule_eq] at h
  obtain ⟨r, hr, hlen⟩ := List.exists_of_findSome?_eq_some h
  obtain ⟨n, hn, heq⟩ := Option.map_eq_some_iff.mp hlen
  cases heq
  have hspec := longest_spec r.regex e
  rw [hn] at hspec
  obtain ⟨⟨u, v, rfl, rfl, hu⟩, -⟩ := hspec
  refine ⟨?_, by simp⟩
  obtain ⟨p, ps, hps⟩ := List.exists_cons_of_ne_nil (rules_regex r hr)
  rw [hps] at hu
  cases u with
  | nil => exact absurd hu (not_matches_cons_nil p ps)
  | cons c u => simp

/-! ## `make_token` -/

/-- The tokens that the rules find, and whether they reach the end of the text. -/
def lexemes : ℕ → List Char → List Token × Bool
  | _, [] => ([], true)
  | 0, _ :: _ => ([], false)
  | n + 1, e =>
    match firstRule e with
    | none => ([], false)
    | some (type, len) =>
      let rest := lexemes n (e.drop len)
      if type = .notype then rest else (⟨type, e.take len⟩ :: rest.1, rest.2)

/-- The text has at most 32 tokens of at most 31 characters. -/
def InLimits (e : List Char) : Prop :=
  (lexemes e.length e).1.length ≤ 32 ∧ ∀ t ∈ (lexemes e.length e).1, t.str.length ≤ 31

/-- Tokens appended to the array. -/
def ExprState.store (d : ExprState) : List Token → ExprState
  | [] => d
  | t :: ts =>
    ExprState.store
      { d with
        tokens := Function.update d.tokens d.nrToken t
        nrToken := d.nrToken + 1
        lengthToken := d.lengthToken + 1 } ts

theorem makeTokenLoop_eq {n : ℕ} {e : List Char} (hn : e.length ≤ n) {d : ExprState}
    (hcount : d.nrToken + (lexemes n e).1.length ≤ 32) (hstr : ∀ t ∈ (lexemes n e).1, t.str.length ≤ 31) :
    makeTokenLoop n e d = .ok ((lexemes n e).2, d.store (lexemes n e).1) := by
  induction n generalizing e d with
  | zero =>
    have : e = [] := List.length_eq_zero_iff.mp (Nat.le_zero.mp hn)
    subst this
    rfl
  | succ n ih =>
    cases e with
    | nil => rfl
    | cons c e =>
      unfold makeTokenLoop lexemes
      unfold lexemes at hcount hstr
      cases hr : firstRule (c :: e) with
      | none => rfl
      | some m =>
        obtain ⟨type, len⟩ := m
        rw [hr] at hcount hstr
        have hbounds := firstRule_bounds hr
        have hrest : ((c :: e).drop len).length ≤ n := by
          rw [List.length_drop]
          omega
        by_cases ht : type = .notype
        · simp only [ht, if_true] at hcount hstr ⊢
          exact ih hrest hcount hstr
        · simp only [ht, if_false] at hcount hstr ⊢
          have hlen := hstr _ List.mem_cons_self
          rw [List.length_take_of_le hbounds.2] at hlen
          rw [List.length_cons] at hcount
          rw [if_neg (by omega)]
          exact ih hrest (by simp only []; omega) fun t ht => hstr t (List.mem_cons_of_mem _ ht)

theorem store_lengthToken (d : ExprState) (ts : List Token) :
    (d.store ts).lengthToken = d.lengthToken + ts.length := by
  induction ts generalizing d with
  | nil => rfl
  | cons t ts ih =>
    show (ExprState.store _ ts).lengthToken = _
    rw [ih, List.length_cons]
    simp only []
    omega

theorem store_isBadExpression (d : ExprState) (ts : List Token) :
    (d.store ts).isBadExpression = d.isBadExpression := by
  induction ts generalizing d with
  | nil => rfl
  | cons t ts ih => exact ih _

theorem store_tokens_of_lt (d : ExprState) (ts : List Token) {j : ℤ} (hj : j < d.nrToken) :
    (d.store ts).tokens j = d.tokens j := by
  induction ts generalizing d with
  | nil => rfl
  | cons t ts ih =>
    show (ExprState.store _ ts).tokens j = _
    rw [ih _ (by push_cast; omega)]
    exact Function.update_of_ne (by omega) _ _

theorem store_slice (d : ExprState) (ts : List Token) : Slice (d.store ts).tokens d.nrToken ts := by
  induction ts generalizing d with
  | nil => trivial
  | cons t ts ih =>
    constructor
    · show (ExprState.store _ ts).tokens _ = t
      rw [store_tokens_of_lt _ _ (by push_cast; omega)]
      exact Function.update_self _ _ _
    · have := ih { d with
        tokens := Function.update d.tokens d.nrToken t
        nrToken := d.nrToken + 1
        lengthToken := d.lengthToken + 1 }
      push_cast at this
      exact this

/-- **`make_token` within the limits**: the tokens that the rules find are in the array. -/
theorem makeToken_eq {e : List Char} (h : InLimits e) (d : ExprState) :
    makeToken e d = .ok ((lexemes e.length e).2,
      ExprState.store { d with nrToken := 0, lengthToken := 0 } (lexemes e.length e).1) :=
  makeTokenLoop_eq (Nat.le_refl _) (by simpa using h.1) h.2

/-! ## Token by token -/

/-- The text does not start with a letter or digit. -/
def Stops (s : List Char) : Prop := ∀ c ∈ s.head?, isAlnum c = false

theorem isAlnum_of_isHexDigit {c : Char} (h : isHexDigit c = true) : isAlnum c = true := by
  unfold isHexDigit at h
  unfold isAlnum
  rw [decide_eq_true_iff] at h ⊢
  rcases h with h | ⟨hlo, hhi⟩ | ⟨hlo, hhi⟩
  · exact .inr (.inr h)
  · exact .inl ⟨hlo, hhi.trans (by decide)⟩
  · exact .inr (.inl ⟨hlo, hhi.trans (by decide)⟩)

theorem isHexDigit_of_isDigit {c : Char} (h : isDigit c = true) : isHexDigit c = true := by
  unfold isHexDigit
  simp [h]

/-- A class of letters and digits takes exactly its run before a text that stops it. -/
theorem takeWhile_stops {f : Char → Bool} (hf : ∀ c, f c = true → isAlnum c = true) {s rest : List Char}
    (hs : ∀ c ∈ s, f c = true) (hrest : Stops rest) : (s ++ rest).takeWhile f = s := by
  have htail : rest.takeWhile f = [] := by
    cases rest with
    | nil => rfl
    | cons c rest =>
      have hc : f c = false := by
        have := hrest c rfl
        rw [← Bool.not_eq_true] at this ⊢
        exact fun h => this (hf c h)
      rw [List.takeWhile_cons, hc]
      rfl
  rw [List.takeWhile_append_of_pos hs, htail, List.append_nil]

theorem firstRule_dec {s rest : List Char} (hne : s ≠ []) (hs : ∀ c ∈ s, isDigit c = true) (hrest : Stops rest) :
    firstRule (s ++ rest) = some (.dec, s.length) := by
  have hdec : longest [Regex.plus isDigit] (s ++ rest) = some s.length := by
    rw [longest_plus, takeWhile_stops (fun c hc => isAlnum_of_isHexDigit (isHexDigit_of_isDigit hc)) hs hrest,
      if_neg hne]
  obtain ⟨c, s, rfl⟩ := List.exists_cons_of_ne_nil hne
  have hc := hs c List.mem_cons_self
  have hx : ∀ r, longest ((one fun c => decide (c = 'x' ∨ c = 'X')) :: r) (s ++ rest) = none := by
    intro r
    cases hsr : s ++ rest with
    | nil => rfl
    | cons d u =>
      have hd : ¬ (d = 'x' ∨ d = 'X') := by
        rcases s with _ | ⟨e, s⟩
        · have := hrest d (by rw [List.nil_append] at hsr; rw [hsr]; rfl)
          rintro (rfl | rfl) <;> exact absurd this (by decide)
        · cases hsr
          have := hs _ (List.mem_cons_of_mem _ List.mem_cons_self)
          rintro (rfl | rfl) <;> exact absurd this (by decide)
      rw [longest_one_cons, if_neg (by simpa using hd)]
  have hneq : ∀ d : Char, isDigit d = false → (c = d) = False := by
    intro d hd
    rw [eq_iff_iff, iff_false]
    rintro rfl
    rw [hc] at hd
    cases hd
  have hhex : longest [chr '0', one fun c => decide (c = 'x' ∨ c = 'X'), Regex.plus isHexDigit] (c :: s ++ rest) = none := by
    rw [List.cons_append]
    unfold chr
    rw [longest_one_cons, hx]
    simp
  rw [firstRule_eq, rules]
  simp only [List.findSome?_cons, hdec, hhex, List.findSome?_nil]
  simp [chr, longest_one_cons, longest_plus, hneq ' ' rfl, hneq '+' rfl, hneq '-' rfl, hneq '*' rfl, hneq '/' rfl,
    hneq '(' rfl, hneq ')' rfl, hneq '=' rfl, hneq '!' rfl, hneq '&' rfl, hneq '$' rfl]

theorem firstRule_hex {x : Char} {s rest : List Char} (hx : x = 'x' ∨ x = 'X') (hne : s ≠ [])
    (hs : ∀ c ∈ s, isHexDigit c = true) (hrest : Stops rest) :
    firstRule ('0' :: x :: s ++ rest) = some (.hex, s.length + 2) := by
  have hplus : longest [Regex.plus isHexDigit] (s ++ rest) = some s.length := by
    rw [longest_plus, takeWhile_stops (fun c hc => isAlnum_of_isHexDigit hc) hs hrest, if_neg hne]
  have hhex : longest [chr '0', one fun c => decide (c = 'x' ∨ c = 'X'), Regex.plus isHexDigit]
      ('0' :: x :: s ++ rest) = some (s.length + 2) := by
    unfold chr
    rw [List.cons_append, List.cons_append, longest_one_cons, longest_one_cons, hplus, if_pos (by decide),
      if_pos (by simpa using hx)]
    rfl
  rw [firstRule_eq, rules]
  simp only [List.findSome?_cons, hhex]
  simp [chr, longest_one_cons, longest_plus]

theorem firstRule_reg {s rest : List Char} (hne : s ≠ []) (hs : ∀ c ∈ s, isAlnum c = true) (hrest : Stops rest) :
    firstRule ('$' :: s ++ rest) = some (.reg, s.length + 1) := by
  have hreg : longest [chr '$', Regex.plus isAlnum] ('$' :: s ++ rest) = some (s.length + 1) := by
    unfold chr
    rw [List.cons_append, longest_one_cons, longest_plus, takeWhile_stops (fun c hc => hc) hs hrest, if_neg hne,
      if_pos (by decide)]
    rfl
  rw [firstRule_eq, rules]
  simp only [List.findSome?_cons, hreg]
  simp [chr, longest_one_cons, longest_plus]

/-- At the text of a token, the first rule that matches is the rule of the token, and takes its text. -/
theorem firstRule_token {t : Token} (ht : t.WellFormed) {rest : List Char} (hrest : t.IsOperand → Stops rest) :
    firstRule (t.str ++ rest) = some (t.type, t.str.length) := by
  unfold Token.WellFormed at ht
  unfold Token.IsOperand at hrest
  rcases t with ⟨type, str⟩
  cases type
  case dec => exact firstRule_dec ht.1 ht.2 (hrest (.inl rfl))
  case hex =>
    obtain ⟨x, s, rfl, hx, hne, hs⟩ := ht
    exact firstRule_hex hx hne hs (hrest (.inr (.inl rfl)))
  case reg =>
    obtain ⟨s, rfl, hne, hs⟩ := ht
    exact firstRule_reg hne hs (hrest (.inr (.inr rfl)))
  case unset | notype | minus | deref => exact absurd ht id
  all_goals
    obtain rfl := ht
    rw [firstRule_eq, rules]
    simp [chr, longest_one_cons, longest_plus, longest_nil]

theorem firstRule_spaces (n : ℕ) {rest : List Char} (hrest : ∀ c ∈ rest.head?, c ≠ ' ') :
    firstRule (List.replicate (n + 1) ' ' ++ rest) = some (.notype, n + 1) := by
  have htail : rest.takeWhile (fun c => decide (c = ' ')) = [] := by
    cases rest with
    | nil => rfl
    | cons c rest => rw [List.takeWhile_cons, if_neg (by simpa using hrest c rfl)]
  have hspaces : longest [Regex.plus fun c => decide (c = ' ')] (List.replicate (n + 1) ' ' ++ rest) =
      some (n + 1) := by
    rw [longest_plus, List.takeWhile_append_of_pos (by simp), htail, List.append_nil, if_neg (by simp),
      List.length_replicate]
  rw [firstRule_eq, rules]
  simp only [List.findSome?_cons, hspaces]
  rfl

/-! ## Renderings -/

/-- The head of the text of a token is no space; of an operator, no letter or digit either. -/
theorem Token.WellFormed.head {t : Token} (ht : t.WellFormed) :
    ∃ c s, t.str = c :: s ∧ c ≠ ' ' ∧ (¬ t.IsOperand → isAlnum c = false) := by
  unfold Token.WellFormed at ht
  unfold Token.IsOperand
  rcases t with ⟨type, str⟩
  cases type
  case dec =>
    obtain ⟨c, s, rfl⟩ := List.exists_cons_of_ne_nil ht.1
    refine ⟨c, s, rfl, ?_, fun h => absurd (.inl rfl) h⟩
    rintro rfl
    exact absurd (ht.2 _ List.mem_cons_self) (by decide)
  case hex =>
    obtain ⟨x, s, rfl, -⟩ := ht
    exact ⟨_, _, rfl, by decide, fun h => absurd (.inr (.inl rfl)) h⟩
  case reg =>
    obtain ⟨s, rfl, -⟩ := ht
    exact ⟨_, _, rfl, by decide, fun h => absurd (.inr (.inr rfl)) h⟩
  case unset | notype | minus | deref => exact absurd ht id
  all_goals
    obtain rfl := ht
    exact ⟨_, _, rfl, by decide, fun _ => by decide⟩

theorem lexemes_spaces {n k : ℕ} (hn : k ≤ n) {rest : List Char} (hrest : ∀ c ∈ rest.head?, c ≠ ' ') :
    ∃ n', n ≤ n' + k ∧ lexemes n (List.replicate k ' ' ++ rest) = lexemes n' rest := by
  cases k with
  | zero => exact ⟨n, by omega, rfl⟩
  | succ k =>
    obtain ⟨n, rfl⟩ : ∃ i, n = i + 1 := ⟨n - 1, by omega⟩
    refine ⟨n, by omega, ?_⟩
    have hrule := firstRule_spaces k hrest
    rw [List.replicate_succ, List.cons_append] at hrule ⊢
    conv_lhs => unfold lexemes
    rw [hrule]
    simp only [if_true]
    congr 1
    rw [← List.cons_append, ← List.replicate_succ, List.drop_left' (List.length_replicate ..)]

/-- **The tokens of a rendering are found again.** -/
theorem lexemes_of_renders {ts : List Token} {s : List Char} (h : Renders ts s)
    (hwf : ∀ t ∈ ts, t.WellFormed) (hadj : ts.IsChain fun a b => a.IsOperand → ¬ b.IsOperand) {n : ℕ}
    (hn : s.length ≤ n) : lexemes n s = (ts, true) := by
  induction h generalizing n with
  | nil k =>
    obtain ⟨n', -, heq⟩ := @lexemes_spaces n k (by simpa using hn) [] (by simp)
    rw [List.append_nil] at heq
    rw [heq]
    cases n' <;> rfl
  | @cons k t ts s hr ih =>
    have ht := hwf t List.mem_cons_self
    obtain ⟨c, str, hstr, hc, -⟩ := ht.head
    simp only [List.length_append, List.length_replicate] at hn
    obtain ⟨n', hn', heq⟩ := @lexemes_spaces n k (by omega) (t.str ++ s) (by rw [hstr]; simpa using hc)
    rw [heq]
    have hpos : 1 ≤ t.str.length := by rw [hstr]; simp
    obtain ⟨n', rfl⟩ : ∃ i, n' = i + 1 := ⟨n' - 1, by omega⟩
    have hstops : t.IsOperand → Stops s := by
      intro hop d hd
      cases hr with
      | nil j =>
        cases j with
        | zero => cases hd
        | succ j =>
          cases hd
          rfl
      | @cons j u us r hru =>
        cases j with
        | succ j =>
          cases hd
          rfl
        | zero =>
          have hu := hwf u (List.mem_cons_of_mem _ List.mem_cons_self)
          obtain ⟨e, w, hw, -, he⟩ := hu.head
          rw [hw] at hd
          cases hd
          exact he (hadj.rel_head? rfl hop)
    have hrule := firstRule_token ht hstops
    have hne : t.type ≠ .notype := by
      intro h0
      unfold Token.WellFormed at ht
      rw [h0] at ht
      exact ht
    rw [hstr, List.cons_append] at hrule ⊢
    unfold lexemes
    rw [hrule, ← List.cons_append, ← hstr]
    simp only [hne, if_false]
    rw [List.drop_left, List.take_left, ih (fun u hu => hwf u (List.mem_cons_of_mem _ hu)) hadj.tail (by omega)]

end Nemu
