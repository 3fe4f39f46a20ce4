import Rv32i.Nemu.Sdb.Eval
import Rv32i.Nemu.Sdb.Lexing

/-!
# Telling prefix operators from binary ones

`tokenise` as a function on token lists (`retag`), which tokens may follow each other in an expression
(`Derives.joined`), what of that order is left after `tokenise` (`retag_chain`), and where it leaves an operator
unseen behind a seen one: exactly on stacked operators (`clashes_retag`).
-/

namespace Nemu

open Bracket

/-! ## Classes of token types -/

/-- After such a token, `tokenise` takes `-` and `*` for prefix operators. -/
def TokenType.sees : TokenType → Bool
  | .plus | .dash | .star | .slash | .lparen => true
  | _ => false

/-- `-` or `*`, before `tokenise` has told them apart. -/
def TokenType.isSign : TokenType → Bool
  | .dash | .star => true
  | _ => false

/-- A prefix operator that `tokenise` has seen. -/
def TokenType.isPrefix : TokenType → Bool
  | .minus | .deref => true
  | _ => false

def TokenType.isComparison : TokenType → Bool
  | .eq | .neq | .and => true
  | _ => false

/-- An operand may end with such a token. -/
def TokenType.endsOperand : TokenType → Bool
  | .dec | .hex | .reg | .rparen => true
  | _ => false

/-- An operand without a prefix operator starts with such a token. -/
def TokenType.startsOperand : TokenType → Bool
  | .dec | .hex | .reg | .lparen => true
  | _ => false

def TokenType.isBinary : TokenType → Bool
  | .plus | .dash | .star | .slash | .eq | .neq | .and => true
  | _ => false

/-! ## `tokenise` on lists -/

/-- `tokenise` behind a token of type `prev`. -/
def retag : TokenType → List Token → List Token
  | _, [] => []
  | prev, t :: ts =>
    let t' : Token := if t.type.isSign && prev.sees then ⟨prefixType t.type, t.str⟩ else t
    t' :: retag t'.type ts

/-- The type of the last token, or `prev` if there is none. -/
def lastType (prev : TokenType) (ts : List Token) : TokenType := ts.foldl (fun _ t => t.type) prev

variable {tokens : ℤ → Token}

theorem slice_congr {p : ℤ} {ts : List Token} {tokens' : ℤ → Token} (h : ∀ j, p ≤ j → tokens' j = tokens j)
    (hs : Slice tokens p ts) : Slice tokens' p ts := by
  induction ts generalizing p with
  | nil => trivial
  | cons t ts ih => exact ⟨(h p (le_refl p)).trans hs.1, ih (fun j hj => h j (by omega)) hs.2⟩

/-- The loop of `tokenise`, from index `i` on. -/
theorem tokeniseLoop_eq {ts : List Token} {i : ℤ} (hs : Slice tokens i ts) :
    Slice (tokeniseLoop ts.length i tokens) i (retag (tokens (i - 1)).type ts) ∧
      ∀ j < i, tokeniseLoop ts.length i tokens j = tokens j := by
  induction ts generalizing i tokens with
  | nil => exact ⟨trivial, fun j _ => rfl⟩
  | cons t ts ih =>
    obtain ⟨ht, hts⟩ := hs
    have hcond : (((tokens i).type = .dash ∨ (tokens i).type = .star) ∧
        ((tokens (i - 1)).type = .plus ∨ (tokens (i - 1)).type = .dash ∨ (tokens (i - 1)).type = .star ∨
          (tokens (i - 1)).type = .slash ∨ (tokens (i - 1)).type = .lparen)) ↔
        (t.type.isSign && (tokens (i - 1)).type.sees) = true := by
      rw [ht, Bool.and_eq_true]
      refine and_congr ?_ ?_
      · cases t.type <;> simp [TokenType.isSign]
      · cases (tokens (i - 1)).type <;> simp [TokenType.sees]
    rw [List.length_cons]
    unfold tokeniseLoop retag
    simp only [hcond]
    by_cases hc : (t.type.isSign && (tokens (i - 1)).type.sees) = true
    · rw [if_pos hc, if_pos hc]
      have hnew : Slice (Function.update tokens i ⟨prefixType (tokens i).type, (tokens i).str⟩) (i + 1) ts :=
        slice_congr (fun j hj => Function.update_of_ne (by omega) _ _) hts
      obtain ⟨h1, h2⟩ := ih hnew
      rw [Int.add_sub_cancel, Function.update_self, ht] at h1
      rw [ht] at h2 ⊢
      refine ⟨⟨?_, h1⟩, fun j hj => ?_⟩
      · rw [h2 i (by omega), Function.update_self]
      · rw [h2 j (by omega), Function.update_of_ne (by omega)]
    · rw [if_neg hc, if_neg hc]
      obtain ⟨h1, h2⟩ := ih hts
      rw [Int.add_sub_cancel, ht] at h1
      exact ⟨⟨(h2 i (by omega)).trans ht, h1⟩, fun j hj => h2 j (by omega)⟩

/-- **`tokenise` on the array is `retag` on its tokens**; the first token counts as behind a `(`. -/
theorem tokenise_slice {ts : List Token} (hs : Slice tokens 0 ts) :
    Slice (tokenise tokens ts.length) 0 (retag .lparen ts) := by
  cases ts with
  | nil => trivial
  | cons t ts =>
    obtain ⟨ht, hts⟩ := hs
    have hfirst : (if t.type.isSign && TokenType.lparen.sees then ⟨prefixType t.type, t.str⟩ else t) =
        (⟨prefixType t.type, t.str⟩ : Token) := by
      cases h : t.type <;> simp [TokenType.isSign, TokenType.sees, prefixType, ← h]
    have hnew : Slice (Function.update tokens 0 ⟨prefixType (tokens 0).type, (tokens 0).str⟩) 1 ts :=
      slice_congr (fun j hj => Function.update_of_ne (by omega) _ _) hts
    obtain ⟨h1, h2⟩ := tokeniseLoop_eq hnew
    unfold retag
    rw [hfirst]
    rw [sub_self, Function.update_self, ht] at h1
    refine ⟨?_, ?_⟩
    · show tokeniseLoop (ts.length + 1 - 1) 1 _ 0 = _
      rw [Nat.add_sub_cancel, h2 0 (by omega), Function.update_self, ht]
    · show Slice (tokeniseLoop (ts.length + 1 - 1) 1 _) 1 _
      rw [Nat.add_sub_cancel, ht]
      exact h1

/-! ## Which tokens follow each other -/

/-- In an expression, `b` may follow `a`. -/
def Adjacent (a b : TokenType) : Prop :=
  (a.endsOperand = true ∧ (b.isBinary = true ∨ b = .rparen)) ∨
    ((a.isBinary = true ∨ a = .lparen) ∧ (b.startsOperand = true ∨ b.isSign = true))

/-- The same once `tokenise` has rewritten the types: `-` and `*` stay where it does not see them. -/
def AdjacentTagged (a b : TokenType) : Prop :=
  (a.endsOperand = true ∧ (b.isBinary = true ∨ b = .rparen)) ∨
    ((a.isBinary = true ∨ a.isPrefix = true ∨ a = .lparen) ∧ b.startsOperand = true) ∨
    (a.sees = true ∧ b.isPrefix = true) ∨
    ((a.isComparison = true ∨ a.isPrefix = true) ∧ b.isSign = true)

theorem Atom.endsOperand (a : Atom) : a.token.type.endsOperand = true := by
  rcases a.isOperand with h | h | h <;> rw [h] <;> rfl

theorem Atom.startsOperand (a : Atom) : a.token.type.startsOperand = true := by
  rcases a.isOperand with h | h | h <;> rw [h] <;> rfl

theorem BinOp.isBinary (o : BinOp) : o.token.type.isBinary = true := by
  cases o <;> rfl

theorem PreOp.isSign (o : PreOp) : o.token.type.isSign = true := by
  cases o <;> rfl

theorem isBinary_of_isSign {t : TokenType} (h : t.isSign = true) : t.isBinary = true := by
  cases t <;> first | rfl | cases h

/-- The tokens of an expression follow each other as they may, from a start to an end of an operand. -/
structure Joined (ts : List Token) : Prop where
  ne : ts ≠ []
  head : ∀ t ∈ ts.head?, t.type.startsOperand = true ∨ t.type.isSign = true
  last : ∀ t ∈ ts.getLast?, t.type.endsOperand = true
  chain : ts.IsChain fun a b => Adjacent a.type b.type

theorem Derives.joined {k : ℕ} {e : Ast} {ts : List Token} (h : Derives k e ts) : Joined ts := by
  induction h with
  | atom a =>
    refine ⟨List.cons_ne_nil _ _, ?_, ?_, List.isChain_singleton _⟩
    · rintro t ⟨⟩
      exact .inl a.startsOperand
    · rintro t ⟨⟩
      exact a.endsOperand
  | @paren e ts _ ih =>
    refine ⟨List.cons_ne_nil _ _, ?_, ?_, ?_⟩
    · rintro t ⟨⟩
      exact .inl rfl
    · intro t ht
      rw [← List.cons_append, List.getLast?_concat] at ht
      cases ht
      rfl
    · refine List.IsChain.cons ?_ ?_
      · refine ih.chain.append (List.isChain_singleton _) ?_
        rintro x hx y ⟨⟩
        exact .inl ⟨ih.last x hx, .inr rfl⟩
      · intro y hy
        rw [List.head?_append_of_ne_nil _ ih.ne] at hy
        exact .inr ⟨.inr rfl, ih.head y hy⟩
  | @pre o e ts _ ih =>
    refine ⟨List.cons_ne_nil _ _, ?_, ?_, ih.chain.cons fun y hy => ?_⟩
    · rintro t ⟨⟩
      exact .inr o.isSign
    · intro t ht
      obtain ⟨u, us, rfl⟩ := List.exists_cons_of_ne_nil ih.ne
      rw [List.getLast?_cons_cons] at ht
      exact ih.last t ht
    · exact .inr ⟨.inl (isBinary_of_isSign o.isSign), ih.head y hy⟩
  | @bin o l r ls rs _ _ ihl ihr =>
    refine ⟨by simp, ?_, ?_, ?_⟩
    · intro t ht
      rw [List.head?_append_of_ne_nil _ ihl.ne] at ht
      exact ihl.head t ht
    · intro t ht
      obtain ⟨u, us, rfl⟩ := List.exists_cons_of_ne_nil ihr.ne
      rw [List.getLast?_append_of_ne_nil _ (List.cons_ne_nil _ _), List.getLast?_cons_cons] at ht
      exact ihr.last t ht
    · refine ihl.chain.append (ihr.chain.cons fun y hy => ?_) ?_
      · exact .inr ⟨.inl o.isBinary, ihr.head y hy⟩
      · rintro x hx y ⟨⟩
        exact .inl ⟨ihl.last x hx, .inl o.isBinary⟩
  | up _ ih => exact ih

theorem Derives.wellFormed {k : ℕ} {e : Ast} {ts : List Token} (h : Derives k e ts) :
    ∀ t ∈ ts, t.WellFormed := by
  induction h with
  | atom a =>
    intro t ht
    rw [List.mem_singleton.mp ht]
    exact a.wellFormed
  | paren _ ih =>
    intro t ht
    rcases List.mem_cons.mp ht with rfl | ht
    · rfl
    · rcases List.mem_append.mp ht with ht | ht
      · exact ih t ht
      · rw [List.mem_singleton.mp ht]
        rfl
  | @pre o _ _ _ ih =>
    intro t ht
    rcases List.mem_cons.mp ht with rfl | ht
    · cases o <;> rfl
    · exact ih t ht
  | @bin o _ _ _ _ _ _ ihl ihr =>
    intro t ht
    rcases List.mem_append.mp ht with ht | ht
    · exact ihl t ht
    · rcases List.mem_cons.mp ht with rfl | ht
      · cases o <;> rfl
      · exact ihr t ht
  | up _ ih => exact ih

theorem PreOp.side (o : PreOp) : o.token.side = .plain := by
  cases o <;> rfl

theorem Derives.balanced {k : ℕ} {e : Ast} {ts : List Token} (h : Derives k e ts) : Balanced Token.side ts := by
  induction h with
  | atom a => exact .plain a.side .nil
  | paren _ ih => exact .group rfl ih rfl .nil
  | pre _ ih => exact .plain (PreOp.side _) ih
  | bin _ _ ihl ihr => exact ihl.append (.plain (BinOp.side _) ihr)
  | up _ ih => exact ih

/-! ## What `retag` keeps -/

/-- A token behind one of type `prev`, as `tokenise` leaves it. -/
def retagOne (prev : TokenType) (t : Token) : Token :=
  if t.type.isSign && prev.sees then ⟨prefixType t.type, t.str⟩ else t

theorem retag_cons (prev : TokenType) (t : Token) (ts : List Token) :
    retag prev (t :: ts) = retagOne prev t :: retag (retagOne prev t).type ts := rfl

/-- Only a sign is rewritten, and only where it is seen. -/
theorem retagOne_cases (prev : TokenType) (t : Token) :
    (t.type.isSign = true ∧ prev.sees = true ∧ (retagOne prev t).type.isPrefix = true) ∨
      (¬ (t.type.isSign = true ∧ prev.sees = true) ∧ retagOne prev t = t) := by
  unfold retagOne
  by_cases h : (t.type.isSign && prev.sees) = true
  · rw [if_pos h]
    obtain ⟨hs, hp⟩ := (Bool.and_eq_true _ _).mp h
    refine .inl ⟨hs, hp, ?_⟩
    show (prefixType t.type).isPrefix = true
    revert hs
    cases t.type <;> simp [TokenType.isSign, prefixType, TokenType.isPrefix]
  · rw [if_neg h]
    exact .inr ⟨fun hc => h ((Bool.and_eq_true _ _).mpr hc), rfl⟩

theorem retag_append (prev : TokenType) (xs ys : List Token) :
    retag prev (xs ++ ys) = retag prev xs ++ retag (lastType prev (retag prev xs)) ys := by
  induction xs generalizing prev with
  | nil => rfl
  | cons x xs ih =>
    rw [List.cons_append, retag_cons, retag_cons, ih, List.cons_append]
    rfl

theorem retag_length (prev : TokenType) (ts : List Token) : (retag prev ts).length = ts.length := by
  induction ts generalizing prev with
  | nil => rfl
  | cons t ts ih => rw [retag_cons, List.length_cons, List.length_cons, ih]

theorem retagOne_side (prev : TokenType) (t : Token) : (retagOne prev t).side = t.side := by
  unfold retagOne
  split
  · obtain ⟨type, str⟩ := t
    cases type <;> rfl
  · rfl

theorem retag_balanced {prev : TokenType} {ts : List Token} (h : Balanced Token.side ts) :
    Balanced Token.side (retag prev ts) := by
  have hscan : ∀ d prev, scan Token.side d (retag prev ts) = scan Token.side d ts := by
    clear h
    induction ts with
    | nil => intro d prev; rfl
    | cons t ts ih =>
      intro d prev
      rw [retag_cons]
      unfold scan next
      rw [retagOne_side, ih]
  rw [balanced_iff_scan, hscan]
  exact h.scan_eq 0

/-- The last type is that of the last token, if `tokenise` cannot rewrite it. -/
theorem lastType_retag {prev : TokenType} {ts : List Token} (hne : ts ≠ [])
    (hlast : ∀ t ∈ ts.getLast?, t.type.isSign = false) :
    ∃ t ∈ ts.getLast?, lastType prev (retag prev ts) = t.type := by
  obtain ⟨init, t, rfl⟩ := (List.eq_nil_or_concat' ts).resolve_left hne
  refine ⟨t, by simp, ?_⟩
  have ht : t.type.isSign = false := hlast t (by simp)
  rw [retag_append, retag_cons]
  unfold lastType
  rw [List.foldl_append]
  have : ∀ p, (retagOne p t).type = t.type := by
    intro p
    unfold retagOne
    rw [ht, Bool.false_and]
    rfl
  exact this _

/-! ## Which prefix operators are seen -/

/-- Somewhere in the list, the rest of the list is bad behind the type of the token before it. -/
def somewhere (bad : TokenType → List Token → Bool) : TokenType → List Token → Bool
  | _, [] => false
  | prev, t :: ts => bad prev (t :: ts) || somewhere bad t.type ts

theorem somewhere_cons {bad : TokenType → List Token → Bool} {prev : TokenType} {t : Token} {ts : List Token} :
    somewhere bad prev (t :: ts) = false ↔ bad prev (t :: ts) = false ∧ somewhere bad t.type ts = false :=
  Bool.or_eq_false_iff

theorem somewhere_right {bad : TokenType → List Token → Bool} {prev : TokenType} {xs ys : List Token}
    (h : somewhere bad prev (xs ++ ys) = false) : somewhere bad (lastType prev xs) ys = false := by
  induction xs generalizing prev with
  | nil => exact h
  | cons x xs ih => exact ih (somewhere_cons.mp h).2

theorem somewhere_left {bad : TokenType → List Token → Bool}
    (hbad : ∀ prev xs ys, bad prev (xs ++ ys) = false → bad prev xs = false) {prev : TokenType}
    {xs ys : List Token} (h : somewhere bad prev (xs ++ ys) = false) : somewhere bad prev xs = false := by
  induction xs generalizing prev with
  | nil => rfl
  | cons x xs ih =>
    obtain ⟨h1, h2⟩ := somewhere_cons.mp h
    exact somewhere_cons.mpr ⟨hbad prev (x :: xs) ys h1, ih h2⟩

/-- Some `-` or `*` that directly follows the start, `(`, `+`, `-`, `*` or `/` is directly followed by
another `-` or `*`. -/
def stacked : TokenType → List Token → Bool :=
  somewhere fun prev ts =>
    match ts with
    | x :: y :: _ => prev.sees && x.type.isSign && y.type.isSign
    | _ => false

/-- After `tokenise`: some prefix operator that it has seen is directly followed by a `-` or `*`. -/
def clashes : TokenType → List Token → Bool :=
  somewhere fun prev ts => prev.isPrefix && ts.head?.any fun t => t.type.isSign

theorem stacked_cons {prev : TokenType} {x : Token} {ts : List Token} : stacked prev (x :: ts) = true ↔
    (prev.sees = true ∧ x.type.isSign = true ∧ ts.head?.any (fun t => t.type.isSign) = true) ∨
      stacked x.type ts = true := by
  cases ts with
  | nil => simp [stacked, somewhere]
  | cons y ts =>
    show (_ || stacked x.type (y :: ts)) = true ↔ _
    rw [Bool.or_eq_true, Bool.and_eq_true, Bool.and_eq_true, and_assoc]
    rfl

theorem clashes_cons {prev : TokenType} {x : Token} {ts : List Token} : clashes prev (x :: ts) = true ↔
    (prev.isPrefix = true ∧ x.type.isSign = true) ∨ clashes x.type ts = true := by
  show (_ || clashes x.type ts) = true ↔ _
  rw [Bool.or_eq_true, Bool.and_eq_true]
  rfl

/-- `prev'` is what `tokenise` leaves of `prev`. -/
def Retagged (prev prev' : TokenType) : Prop :=
  prev' = prev ∨ (prev.isSign = true ∧ prev'.isPrefix = true)

theorem retagged_retagOne (prev : TokenType) (t : Token) : Retagged t.type (retagOne prev t).type := by
  rcases retagOne_cases prev t with ⟨hs, -, hp⟩ | ⟨-, h⟩
  · exact .inr ⟨hs, hp⟩
  · exact .inl (congrArg Token.type h)

theorem sees_of_isSign {t : TokenType} (h : t.isSign = true) : t.sees = true := by
  cases t <;> first | rfl | cases h

theorem isPrefix_disjoint {t : TokenType} (h : t.isPrefix = true) :
    t.sees = false ∧ t.isSign = false ∧ t.isComparison = false ∧ t.endsOperand = false ∧ t.isBinary = false := by
  cases t <;> first | exact ⟨rfl, rfl, rfl, rfl, rfl⟩ | cases h

/-- Where `tokenise` does not see prefix operators, it leaves the token. -/
theorem retagOne_of_not_sees {prev : TokenType} (h : prev.sees = false) (t : Token) : retagOne prev t = t := by
  unfold retagOne
  rw [h, Bool.and_false]
  rfl

/-- `tokenise` leaves an unseen operator behind a seen one exactly on stacked operators, or right behind a
seen one at the start. -/
theorem clashes_retag_iff {prev prev' : TokenType} (hprev : Retagged prev prev') {ts : List Token}
    (hts : ∀ t ∈ ts, t.type.isPrefix = false) : clashes prev' (retag prev' ts) = true ↔
      (prev'.isPrefix = true ∧ ts.head?.any (fun t => t.type.isSign) = true) ∨ stacked prev ts = true := by
  induction ts generalizing prev prev' with
  | nil => simp [retag, clashes, stacked, somewhere]
  | cons x ts ih =>
    have hx := hts x List.mem_cons_self
    rw [retag_cons, clashes_cons, stacked_cons,
      ih (retagged_retagOne prev' x) fun t ht => hts t (List.mem_cons_of_mem _ ht)]
    have hhead : ((x :: ts).head?.any fun t => t.type.isSign) = x.type.isSign := rfl
    rw [hhead]
    constructor
    · rintro (⟨hp, hs⟩ | ⟨hp, hs⟩ | hst)
      · rw [retagOne_of_not_sees (isPrefix_disjoint hp).1] at hs
        exact .inl ⟨hp, hs⟩
      · -- the signs `x` and `y`, of which `x` was seen
        rcases retagOne_cases prev' x with ⟨hsign, hsees, -⟩ | ⟨-, heq⟩
        · refine .inr (.inl ⟨?_, hsign, hs⟩)
          rcases hprev with rfl | ⟨hprev, -⟩
          · exact hsees
          · exact sees_of_isSign hprev
        · rw [heq, hx] at hp
          cases hp
      · exact .inr (.inr hst)
    · rintro (⟨hp, hs⟩ | ⟨hsees, hsign, hs⟩ | hst)
      · left
        rw [retagOne_of_not_sees (isPrefix_disjoint hp).1]
        exact ⟨hp, hs⟩
      · rcases hprev with rfl | ⟨-, hp⟩
        · -- `x` is seen, and the sign behind it is not
          rcases retagOne_cases prev' x with ⟨-, -, hxp⟩ | ⟨hno, -⟩
          · exact .inr (.inl ⟨hxp, hs⟩)
          · exact absurd ⟨hsign, hsees⟩ hno
        · left
          rw [retagOne_of_not_sees (isPrefix_disjoint hp).1]
          exact ⟨hp, hsign⟩
      · exact .inr (.inr hst)

theorem Token.WellFormed.isPrefix {t : Token} (h : t.WellFormed) : t.type.isPrefix = false := by
  unfold Token.WellFormed at h
  cases ht : t.type <;> first | rfl | (rw [ht] at h; exact h.elim)

/-- **After `tokenise` an unseen operator stands behind a seen one exactly on stacked operators.** -/
theorem clashes_retag {ts : List Token} (h : ∀ t ∈ ts, t.WellFormed) :
    clashes .lparen (retag .lparen ts) = stacked .lparen ts := by
  rw [Bool.eq_iff_iff, clashes_retag_iff (.inl rfl) fun t ht => (h t ht).isPrefix]
  simp [TokenType.isPrefix]

/-! ## The tokens of an expression after `tokenise` -/

theorem adjacentTagged_retagOne {a a' : TokenType} {t : Token} (ha : Retagged a a') (h : Adjacent a t.type) :
    AdjacentTagged a' (retagOne a' t).type := by
  have hkept : a.isSign = false → a' = a := by
    rintro hs
    rcases ha with rfl | ⟨hs', -⟩
    · rfl
    · rw [hs'] at hs
      cases hs
  rcases retagOne_cases a' t with ⟨-, hsees, hp⟩ | ⟨hno, heq⟩
  · exact .inr (.inr (.inl ⟨hsees, hp⟩))
  rw [heq]
  rcases h with ⟨hend, hnext⟩ | ⟨hop, hnext⟩
  · rw [hkept (by cases a <;> first | rfl | cases hend)]
    exact .inl ⟨hend, hnext⟩
  · rcases hnext with hstart | hsign
    · refine .inr (.inl ⟨?_, hstart⟩)
      rcases ha with rfl | ⟨-, hp⟩
      · exact hop.imp_right .inr
      · exact .inr (.inl hp)
    · refine .inr (.inr (.inr ⟨?_, hsign⟩))
      rcases ha with rfl | ⟨-, hp⟩
      · have hsees : a'.sees = false := by
          rw [← Bool.not_eq_true]
          exact fun hs => hno ⟨hsign, hs⟩
        left
        rcases hop with hop | rfl
        · revert hop hsees
          cases a' <;> simp [TokenType.isBinary, TokenType.sees, TokenType.isComparison]
        · cases hsees
      · exact .inr hp

/-- `tokenise` keeps the order of tokens. -/
theorem retag_chain {p p' : Token} {ts : List Token} (hp : Retagged p.type p'.type)
    (h : (p :: ts).IsChain fun a b => Adjacent a.type b.type) :
    (p' :: retag p'.type ts).IsChain fun a b => AdjacentTagged a.type b.type := by
  induction ts generalizing p p' with
  | nil => exact List.isChain_singleton _
  | cons t ts ih =>
    rw [retag_cons]
    refine List.IsChain.cons (ih (retagged_retagOne p'.type t) h.tail) ?_
    rintro y ⟨⟩
    exact adjacentTagged_retagOne hp (h.rel_head? rfl)

end Nemu
