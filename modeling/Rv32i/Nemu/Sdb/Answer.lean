import Rv32i.Nemu.Refine
import Rv32i.Nemu.Sdb.Termination

/-!
# What `expr` answers

The evaluation of a string: the value of an expression without prefix operators (`expr_value`), when an
expression with prefix operators has its value (`expr_prefixOp`), and when `success` tells an expression from
another string (`expr_success_iff`).
-/

namespace Nemu

open Rv32 Bracket

/-! ## From strings to ranges -/

/-- On a string that is cut into tokens, `expr` evaluates the tokens as `tokenise` leaves them. -/
theorem expr_tokens {s : List Char} (hlim : InLimits s) {toks : List Token}
    (hlex : lexemes s.length s = (toks, true)) (d : ExprState) :
    ∃ (tokens : ℤ → Token) (d' : Bool → ExprState), Slice tokens 0 (retag .lparen toks) ∧
      ∀ frames m, expr frames m s d = (eval tokens m frames 0 (toks.length - 1) d.isBadExpression).map
        fun r => (r.1, true, d' r.2) := by
  have hmake := makeToken_eq hlim d
  have hslice := store_slice { d with nrToken := 0, lengthToken := 0 } toks
  have hlength := store_lengthToken { d with nrToken := 0, lengthToken := 0 } toks
  have hbad := store_isBadExpression { d with nrToken := 0, lengthToken := 0 } toks
  rw [hlex] at hmake
  simp only [Nat.zero_add, Nat.cast_zero] at hlength hslice
  generalize ExprState.store { d with nrToken := 0, lengthToken := 0 } toks = d1 at hmake hslice hlength hbad
  refine ⟨tokenise d1.tokens toks.length,
    fun bad => { d1 with tokens := tokenise d1.tokens toks.length, isBadExpression := bad },
    tokenise_slice hslice, fun frames m => ?_⟩
  unfold expr
  rw [hmake]
  simp only [bind, Except.bind, if_true, hlength, hbad]
  cases eval (tokenise d1.tokens toks.length) m frames 0 (toks.length - 1) d.isBadExpression <;> rfl

/-- A string that is not cut into tokens is no success. -/
theorem expr_no_tokens {s : List Char} (hlim : InLimits s) (hlex : (lexemes s.length s).2 = false) (frames : ℕ)
    (m : Machine) (d : ExprState) : ∃ d', expr frames m s d = .ok (0, false, d') := by
  have hmake := makeToken_eq hlim d
  rw [hlex] at hmake
  unfold expr
  rw [hmake]
  exact ⟨_, rfl⟩

theorem expr_of_returns {s : List Char} (hlim : InLimits s) {toks : List Token}
    (hlex : lexemes s.length s = (toks, true)) {frames : ℕ} {m : Machine} {v : Word}
    (h : ∀ tokens, Slice tokens 0 (retag .lparen toks) → Returns tokens m frames 0 (toks.length - 1) v)
    (d : ExprState) : ∃ d', expr frames m s d = .ok (v, true, d') := by
  obtain ⟨tokens, d', hslice, heq⟩ := expr_tokens hlim hlex d
  obtain ⟨bad, hv⟩ := h tokens hslice d.isBadExpression
  refine ⟨d' bad, ?_⟩
  rw [heq, hv]
  rfl

theorem expr_of_fails {s : List Char} (hlim : InLimits s) {toks : List Token}
    (hlex : lexemes s.length s = (toks, true)) {frames : ℕ} {m : Machine}
    (h : ∀ tokens, Slice tokens 0 (retag .lparen toks) → Fails tokens m frames 0 (toks.length - 1))
    (d : ExprState) : ∃ f, expr frames m s d = .error f := by
  obtain ⟨tokens, d', hslice, heq⟩ := expr_tokens hlim hlex d
  obtain ⟨f, hf⟩ := h tokens hslice d.isBadExpression
  refine ⟨f, ?_⟩
  rw [heq, hf]
  rfl

/-! ## Expressions -/

theorem not_isOperand_of_adjacent {a b : Token} (h : Adjacent a.type b.type) (ha : a.IsOperand) :
    ¬ b.IsOperand := by
  intro hb
  rcases h with ⟨-, hb' | hb'⟩ | ⟨ha', -⟩
  · rcases hb with hb | hb | hb <;> rw [hb] at hb' <;> cases hb'
  · rcases hb with hb | hb | hb <;> rw [hb] at hb' <;> cases hb'
  · rcases ha with ha | ha | ha <;> rw [ha] at ha' <;> rcases ha' with ha' | ha' <;> cases ha'

/-- The tokens of an expression are found again in a string that shows it. -/
theorem Derives.lexemes {k : ℕ} {e : Ast} {toks : List Token} (h : Derives k e toks) {s : List Char}
    (hr : Renders toks s) : lexemes s.length s = (toks, true) :=
  lexemes_of_renders hr h.wellFormed (h.joined.chain.imp fun _ _ hab => not_isOperand_of_adjacent hab) (le_refl _)

theorem Derives.inLimits {k : ℕ} {e : Ast} {toks : List Token} (h : Derives k e toks) {s : List Char}
    (hr : Renders toks s) (hlen : toks.length ≤ 32) (hstr : ∀ t ∈ toks, t.str.length ≤ 31) : InLimits s := by
  unfold InLimits
  rw [h.lexemes hr]
  exact ⟨hlen, hstr⟩

/-- Without prefix operators, `tokenise` changes nothing and `eval` reads the tree as it is written. -/
theorem Derives.plain {k : ℕ} {e : Ast} {ts : List Token} (h : Derives k e ts) (hfree : e.PrefixFree) :
    Tagged k e ts ∧ ∀ prev, retag prev ts = ts := by
  induction h with
  | atom a =>
    refine ⟨.atom a, fun prev => ?_⟩
    rw [retag_cons, retagOne_of_not_sign (not_isSign_of_startsOperand a.startsOperand)]
    rfl
  | @paren e ts h ih =>
    obtain ⟨htag, hretag⟩ := ih hfree
    refine ⟨.paren htag, fun prev => ?_⟩
    rw [retag_cons, retagOne_of_not_sign rfl, h.joined.retag_append, hretag]
    rfl
  | pre _ _ => exact hfree.elim
  | @bin o l r ls rs hl _ ihl ihr =>
    obtain ⟨htagl, hretagl⟩ := ihl hfree.1
    obtain ⟨htagr, hretagr⟩ := ihr hfree.2
    refine ⟨.bin htagl htagr, fun prev => ?_⟩
    rw [hl.joined.retag_append, hretagl, hretagr]
  | up _ ih =>
    obtain ⟨htag, hretag⟩ := ih hfree
    exact ⟨.up htag, hretag⟩

theorem Ast.PrefixFree.defined {e : Ast} (h : e.PrefixFree) (m : Machine) : e.Defined m := by
  induction e with
  | atom a => trivial
  | pre o e _ => exact h.elim
  | bin o l r ihl ihr => exact ⟨ihl h.1, ihr h.2⟩

/-- At most 32 tokens are a range of the array. -/
theorem retag_bounds {toks : List Token} (hlen : toks.length ≤ 32) :
    (0 : ℤ) + (retag .lparen toks).length = toks.length - 1 + 1 ∧ (0 : ℤ) + (retag .lparen toks).length ≤ 32 := by
  rw [retag_length]
  omega

section Expression

variable {e : Ast} {toks : List Token} (h : Derives 5 e toks)

include h

theorem Derives.chained : Chained (retag .lparen toks) := by
  have hchain : (lparen :: toks).IsChain fun a b => Adjacent a.type b.type :=
    h.joined.chain.cons fun y hy => .inr ⟨.inr rfl, h.joined.head y hy⟩
  have := @retag_chain lparen lparen toks (.inl rfl) hchain
  exact this.tail

theorem Derives.retag_ne : retag .lparen toks ≠ [] := by
  obtain ⟨t, ts, rfl⟩ := List.exists_cons_of_ne_nil h.joined.ne
  exact List.cons_ne_nil _ _

/-- The last token is left as it is. -/
theorem Derives.retag_last : ∀ t ∈ (retag .lparen toks).getLast?, t.type.endsOperand = true := by
  obtain ⟨init, z, rfl⟩ := (List.eq_nil_or_concat' toks).resolve_left h.joined.ne
  have hz := h.joined.last z (by simp)
  have hnil : ∀ t, retag t [] = [] := fun _ => rfl
  intro t ht
  rw [Nemu.retag_append, retag_cons, retagOne_of_not_sign (isSign_of_endsOperand hz).1, hnil,
    List.getLast?_concat] at ht
  cases ht
  exact hz

/-- Without stacked operators the tokens have a value. -/
theorem Derives.sound (hst : stacked .lparen toks = false) : Sound (retag .lparen toks) := by
  have hclash : clashes .lparen (retag .lparen toks) = false := by rw [clashes_retag h.wellFormed, hst]
  exact ⟨h.retag_ne, retag_balanced h.balanced, clear_of_clashes h.chained hclash, h.retag_last⟩

/-- Stacked operators get stuck. -/
theorem Derives.stuck (hst : stacked .lparen toks = true) : Stuck (retag .lparen toks) := by
  have hclash : clashes .lparen (retag .lparen toks) = true := by rw [clashes_retag h.wellFormed, hst]
  rcases stuck_of_clashes hclash with ⟨hp, -⟩ | hstuck
  · cases hp
  · exact hstuck

variable {s : List Char} (hr : Renders toks s) (hlen : toks.length ≤ 32) (hstr : ∀ t ∈ toks, t.str.length ≤ 31)
  {frames : ℕ} (hframes : 32 ≤ frames)

include hr hlen hstr

/-- An expression that is read with its value is answered with it. -/
theorem Derives.expr_eq {e' : Ast} {k : ℕ} (htag : Tagged k e' (retag .lparen toks)) (hval : SameValue e' e)
    (hframes : 32 ≤ frames) {m : Machine} (hall : e.All fun a => a.InRange ∧ a.Known) (hdef : e.Defined m)
    (d : ExprState) : ∃ d', expr frames m s d = .ok (e.value m, true, d') := by
  refine expr_of_returns (h.inLimits hr hlen hstr) (h.lexemes hr) (fun tokens hslice => ?_) d
  obtain ⟨hq, hend⟩ := retag_bounds hlen
  obtain ⟨v, hv, hvalue⟩ := @Tagged.returns tokens m frames 0 (toks.length - 1) k e' _ htag (hval.all _ hall) hslice
    hq (le_refl 0) hend (by rw [retag_length]; omega)
  rw [← hval.value, ← hvalue (hval.defined m hdef)]
  exact hv

/-- With stacked operators, `expr` does not return. -/
theorem Derives.expr_fails (hst : stacked .lparen toks = true) (m : Machine) (d : ExprState) :
    ∃ f, expr frames m s d = .error f := by
  refine expr_of_fails (h.inLimits hr hlen hstr) (h.lexemes hr) (fun tokens hslice => ?_) d
  obtain ⟨hq, hend⟩ := retag_bounds hlen
  exact fails_of_stuck (retag_balanced h.balanced) h.chained (h.stuck hst) hslice hq (le_refl 0) hend

include hframes

/-- Without stacked operators, it does. -/
theorem Derives.expr_returns (hst : stacked .lparen toks = false) (m : Machine) (d : ExprState) :
    ∃ v d', expr frames m s d = .ok (v, true, d') := by
  obtain ⟨tokens, d', hslice, heq⟩ := expr_tokens (h.inLimits hr hlen hstr) (h.lexemes hr) d
  obtain ⟨hq, hend⟩ := retag_bounds hlen
  obtain ⟨v, hv⟩ := @Sound.returns tokens m frames _ 0 (toks.length - 1) (h.sound hst) hslice hq (le_refl 0) hend
    (by rw [retag_length]; omega)
  obtain ⟨bad, hbad⟩ := hv d.isBadExpression
  refine ⟨v, d' bad, ?_⟩
  rw [heq, hbad]
  rfl

end Expression

/-! ## Results -/

/-- **An expression without prefix operators is answered with its value**: for every way to write it in at
most 32 tokens of at most 31 characters, in every state of the machine and of the evaluator. -/
theorem expr_value {e : Ast} {toks : List Token} {s : List Char} (h : Derives 5 e toks) (hr : Renders toks s)
    (hfree : e.PrefixFree) (hall : e.All fun a => a.InRange ∧ a.Known) (hlen : toks.length ≤ 32)
    (hstr : ∀ t ∈ toks, t.str.length ≤ 31) {frames : ℕ} (hframes : 32 ≤ frames) (m : Machine) (d : ExprState) :
    ∃ d', expr frames m s d = .ok (e.value m, true, d') := by
  obtain ⟨htag, hretag⟩ := h.plain hfree
  rw [← hretag .lparen] at htag
  exact h.expr_eq hr hlen hstr htag (.refl e) hframes hall (hfree.defined m) d

/-- The literal of one digit. -/
def digitAtom (c : Char) (h : isDigit c = true) : Atom where
  token := ⟨.dec, [c]⟩
  isOperand := .inl rfl
  wellFormed := ⟨List.cons_ne_nil _ _, fun d hd => by rwa [List.mem_singleton.mp hd]⟩

theorem digitAtom_good {c : Char} (h : isDigit c = true) (hc : number 10 [c] < 2 ^ 63) :
    (digitAtom c h).InRange ∧ (digitAtom c h).Known :=
  ⟨⟨fun _ => hc, fun ht => by cases ht⟩, fun ht => by cases ht⟩

/-- `1 + 2*3` is 7. -/
theorem expr_value_seven :
    ∃ d', expr 32 (oneInst 0 0) ['1', ' ', '+', ' ', '2', '*', '3'] .init = .ok (7, true, d') := by
  have h1 : Derives 3 (.atom (digitAtom '1' rfl)) [⟨.dec, ['1']⟩] := .up (.up (.up (.atom _)))
  have h23 : Derives 2 (.bin .mul (.atom (digitAtom '2' rfl)) (.atom (digitAtom '3' rfl)))
      [⟨.dec, ['2']⟩, ⟨.star, ['*']⟩, ⟨.dec, ['3']⟩] :=
    @Derives.bin .mul _ _ [_] [_] (.up (.up (.atom _))) (.up (.atom _))
  have hr : Renders [⟨.dec, ['1']⟩, ⟨.plus, ['+']⟩, ⟨.dec, ['2']⟩, ⟨.star, ['*']⟩, ⟨.dec, ['3']⟩]
      ['1', ' ', '+', ' ', '2', '*', '3'] :=
    .cons 0 (.cons 1 (.cons 1 (.cons 0 (.cons 0 (.nil 0)))))
  exact expr_value (.up (.up (@Derives.bin .add _ _ [_] _ h1 h23))) hr ⟨trivial, trivial, trivial⟩
    ⟨digitAtom_good rfl (by decide), digitAtom_good rfl (by decide), digitAtom_good rfl (by decide)⟩
    (by decide) (by decide) (le_refl 32) (oneInst 0 0) .init

/-- **Expressions with prefix operators.**  `expr` returns exactly if no `-` or `*` that it takes for a prefix
operator is directly followed by another `-` or `*`.  The answer is the value of the expression if besides
every prefix operator directly behind `==`, `!=` or `&&` is a `-` whose product has no division. -/
theorem expr_prefixOp {e : Ast} {toks : List Token} {s : List Char} (h : Derives 5 e toks) (hr : Renders toks s)
    (hlen : toks.length ≤ 32) (hstr : ∀ t ∈ toks, t.str.length ≤ 31) {frames : ℕ} (hframes : 32 ≤ frames)
    (m : Machine) (d : ExprState) :
    ((∃ v d', expr frames m s d = .ok (v, true, d')) ↔ stacked .lparen toks = false) ∧
      (stacked .lparen toks = false → misread .lparen (retag .lparen toks) = false →
        (e.All fun a => a.InRange ∧ a.Known) → e.Defined m →
          ∃ d', expr frames m s d = .ok (e.value m, true, d')) := by
  refine ⟨⟨?_, fun hst => h.expr_returns hr hlen hstr hframes hst m d⟩, fun hst hmis hall hdef => ?_⟩
  · rintro ⟨v, d', heq⟩
    rw [← Bool.not_eq_true]
    intro hst
    obtain ⟨f, hf⟩ := @Derives.expr_fails _ _ h _ hr hlen hstr frames hst m d
    rw [heq] at hf
    cases hf
  · have hclash : clashes .lparen (retag .lparen toks) = false := by rw [clashes_retag h.wellFormed, hst]
    obtain ⟨e', htag, hval⟩ := (h.reads .lparen (.inl rfl) hclash hmis).tagged rfl
    exact h.expr_eq hr hlen hstr htag hval hframes hall hdef d

def pcAtom : Atom where
  token := ⟨.reg, ['$', 'p', 'c']⟩
  isOperand := .inr (.inr rfl)
  wellFormed := ⟨['p', 'c'], rfl, List.cons_ne_nil _ _, by simp [isAlnum]⟩

/-- `2*-3` is -6. -/
theorem expr_prefix_mul :
    ∃ d', expr 32 (oneInst 0 0) ['2', '*', '-', '3'] .init = .ok (-6, true, d') := by
  have h2 : Derives 2 (.atom (digitAtom '2' rfl)) [⟨.dec, ['2']⟩] := .up (.up (.atom _))
  have h3 : Derives 1 (.pre .neg (.atom (digitAtom '3' rfl))) [⟨.dash, ['-']⟩, ⟨.dec, ['3']⟩] :=
    .pre (.up (.atom _))
  have hr : Renders [⟨.dec, ['2']⟩, ⟨.star, ['*']⟩, ⟨.dash, ['-']⟩, ⟨.dec, ['3']⟩] ['2', '*', '-', '3'] :=
    .cons 0 (.cons 0 (.cons 0 (.cons 0 (.nil 0))))
  exact (expr_prefixOp (.up (.up (.up (@Derives.bin .mul _ _ [_] _ h2 h3)))) hr (by decide) (by decide) (le_refl 32)
    (oneInst 0 0) .init).2 rfl rfl ⟨digitAtom_good rfl (by decide), digitAtom_good rfl (by decide)⟩
    ⟨trivial, trivial⟩

/-- `--1` trips the assertion, and `0==*$pc` is 1 where the word at the program counter is 7. -/
theorem expr_prefix_wrong :
    (∃ e toks, Derives 5 e toks ∧ Renders toks ['-', '-', '1'] ∧ ¬ e.PrefixFree ∧
      (e.All fun a => a.InRange ∧ a.Known) ∧ e.Defined (oneInst 7 0) ∧
      expr 32 (oneInst 7 0) ['-', '-', '1'] .init = .error .assert) ∧
    ∃ e toks, Derives 5 e toks ∧ Renders toks ['0', '=', '=', '*', '$', 'p', 'c'] ∧ ¬ e.PrefixFree ∧
      (e.All fun a => a.InRange ∧ a.Known) ∧ e.Defined (oneInst 7 0) ∧ e.value (oneInst 7 0) = 0 ∧
      ∃ d', expr 32 (oneInst 7 0) ['0', '=', '=', '*', '$', 'p', 'c'] .init = .ok (1, true, d') := by
  constructor
  · have h1 : Derives 1 (.pre .neg (.pre .neg (.atom (digitAtom '1' rfl))))
        [⟨.dash, ['-']⟩, ⟨.dash, ['-']⟩, ⟨.dec, ['1']⟩] := .pre (.pre (.up (.atom _)))
    have hr : Renders [⟨.dash, ['-']⟩, ⟨.dash, ['-']⟩, ⟨.dec, ['1']⟩] ['-', '-', '1'] :=
      .cons 0 (.cons 0 (.cons 0 (.nil 0)))
    exact ⟨_, _, .up (.up (.up (.up h1))), hr, id, digitAtom_good rfl (by decide), trivial, rfl⟩
  · have h0 : Derives 4 (.atom (digitAtom '0' rfl)) [⟨.dec, ['0']⟩] := .up (.up (.up (.up (.atom _))))
    have hpc : Derives 3 (.pre .deref (.atom pcAtom)) [⟨.star, ['*']⟩, ⟨.reg, ['$', 'p', 'c']⟩] :=
      .up (.up (.pre (.up (.atom _))))
    have hr : Renders [⟨.dec, ['0']⟩, ⟨.eq, ['=', '=']⟩, ⟨.star, ['*']⟩, ⟨.reg, ['$', 'p', 'c']⟩]
        ['0', '=', '=', '*', '$', 'p', 'c'] :=
      .cons 0 (.cons 0 (.cons 0 (.cons 0 (.nil 0))))
    refine ⟨_, _, .up (@Derives.bin .eq _ _ [_] _ h0 hpc), hr, fun h => h.2, ?_, ?_, rfl, _, rfl⟩
    · have hrange : pcAtom.InRange := ⟨fun ht => (by cases ht), fun ht => (by cases ht)⟩
      exact ⟨digitAtom_good rfl (by decide), hrange, fun _ => .head _⟩
    · exact ⟨trivial, trivial, by decide⟩

/-- The string shows an expression whose registers are all known. -/
def IsExpression (s : List Char) : Prop :=
  ∃ e toks, Derives 5 e toks ∧ Renders toks s ∧ e.All Atom.Known

theorem IsExpression.lexemes {s : List Char} (h : IsExpression s) : (lexemes s.length s).2 = true := by
  obtain ⟨e, toks, h, hr, -⟩ := h
  rw [h.lexemes hr]

/-- **When `success` tells expressions from other strings**: within the limits of the token array, `expr`
returns with `success` true exactly on expressions if and only if the string is not cut into tokens, or is
an expression without stacked operators. -/
theorem expr_success_iff {s : List Char} (hlim : InLimits s) {frames : ℕ} (hframes : 32 ≤ frames) (m : Machine)
    (d : ExprState) :
    (∃ v b d', expr frames m s d = .ok (v, b, d') ∧ (b = true ↔ IsExpression s)) ↔
      (lexemes s.length s).2 = false ∨
        (IsExpression s ∧ stacked .lparen (lexemes s.length s).1 = false) := by
  cases hlex : (lexemes s.length s).2 with
  | false =>
    obtain ⟨d', heq⟩ := expr_no_tokens hlim hlex frames m d
    refine iff_of_true ⟨0, false, d', heq, iff_of_false Bool.false_ne_true fun he => ?_⟩ (.inl rfl)
    rw [he.lexemes] at hlex
    cases hlex
  | true =>
    obtain ⟨toks, htoks⟩ : ∃ toks, lexemes s.length s = (toks, true) := ⟨_, Prod.ext rfl hlex⟩
    have hlim' := hlim
    unfold InLimits at hlim'
    rw [htoks] at hlim' ⊢
    constructor
    · rintro ⟨v, b, d', heq, hb⟩
      obtain ⟨tokens, d'', -, hexpr⟩ := expr_tokens hlim htoks d
      have htrue : b = true := by
        rw [hexpr] at heq
        cases heval : eval tokens m frames 0 (toks.length - 1) d.isBadExpression with
        | error f =>
          rw [heval] at heq
          cases heq
        | ok r =>
          rw [heval] at heq
          cases heq
          rfl
      obtain ⟨e, toks', h, hr, hknown⟩ := hb.mp htrue
      obtain rfl : toks' = toks := congrArg Prod.fst ((h.lexemes hr).symm.trans htoks)
      refine .inr ⟨⟨e, toks', h, hr, hknown⟩, ?_⟩
      rw [← Bool.not_eq_true]
      intro hst
      obtain ⟨f, hf⟩ := @Derives.expr_fails _ _ h _ hr hlim'.1 hlim'.2 frames hst m d
      rw [heq] at hf
      cases hf
    · rintro (h | ⟨he, hst⟩)
      · cases h
      · have hexp := he
        obtain ⟨e, toks', h, hr, -⟩ := hexp
        obtain rfl : toks' = toks := congrArg Prod.fst ((h.lexemes hr).symm.trans htoks)
        obtain ⟨v, d', heq⟩ := h.expr_returns hr hlim'.1 hlim'.2 hframes hst m d
        exact ⟨v, true, d', heq, iff_of_true rfl he⟩

/-- `(1+2)*-3` is an expression, and answered as one. -/
theorem expr_success_product : ∃ v b d', expr 32 (oneInst 0 0) ['(', '1', '+', '2', ')', '*', '-', '3'] .init =
    .ok (v, b, d') ∧ (b = true ↔ IsExpression ['(', '1', '+', '2', ')', '*', '-', '3']) := by
  have h12 : Derives 3 (.bin .add (.atom (digitAtom '1' rfl)) (.atom (digitAtom '2' rfl)))
      [⟨.dec, ['1']⟩, ⟨.plus, ['+']⟩, ⟨.dec, ['2']⟩] :=
    @Derives.bin .add _ _ [_] [_] (.up (.up (.up (.atom _)))) (.up (.up (.atom _)))
  have h3 : Derives 1 (.pre .neg (.atom (digitAtom '3' rfl))) [⟨.dash, ['-']⟩, ⟨.dec, ['3']⟩] := .pre (.up (.atom _))
  have hproduct := @Derives.bin .mul _ _ _ _ (.up (.up (.paren (.up (.up h12))))) h3
  have hr : Renders [⟨.lparen, ['(']⟩, ⟨.dec, ['1']⟩, ⟨.plus, ['+']⟩, ⟨.dec, ['2']⟩, ⟨.rparen, [')']⟩, ⟨.star, ['*']⟩,
      ⟨.dash, ['-']⟩, ⟨.dec, ['3']⟩] ['(', '1', '+', '2', ')', '*', '-', '3'] :=
    .cons 0 (.cons 0 (.cons 0 (.cons 0 (.cons 0 (.cons 0 (.cons 0 (.cons 0 (.nil 0))))))))
  exact (expr_success_iff ⟨by decide, by decide⟩ (le_refl 32) (oneInst 0 0) .init).mpr
    (.inr ⟨⟨_, _, .up (.up (.up hproduct)), hr, ⟨nofun, nofun⟩, nofun⟩, rfl⟩)

/-- `1 2` is no expression, and answered with 0 and success. -/
theorem expr_success_wrong : ¬ ∃ v b d', expr 32 (oneInst 0 0) ['1', ' ', '2'] .init = .ok (v, b, d') ∧
    (b = true ↔ IsExpression ['1', ' ', '2']) := by
  rintro ⟨v, b, d', heq, hb⟩
  obtain ⟨d'', hexpr⟩ : ∃ d', expr 32 (oneInst 0 0) ['1', ' ', '2'] .init = .ok (0, true, d') := ⟨_, rfl⟩
  rw [hexpr] at heq
  cases heq
  obtain ⟨e, toks, h, hr, -⟩ := hb.mp rfl
  have hlex : Nemu.lexemes 3 ['1', ' ', '2'] = ([⟨.dec, ['1']⟩, ⟨.dec, ['2']⟩], true) := rfl
  obtain rfl : toks = [⟨.dec, ['1']⟩, ⟨.dec, ['2']⟩] := congrArg Prod.fst ((h.lexemes hr).symm.trans hlex)
  have hadj : Adjacent .dec .dec := h.joined.chain.rel_head? rfl
  rcases hadj with ⟨-, hnext | hnext⟩ | ⟨hprev | hprev, -⟩
  · cases hnext
  · cases hnext
  · cases hprev
  · cases hprev

end Nemu
