import Rv32i.Nemu.Sdb.Reading

/-!
# When the evaluation returns

On a balanced range whose tokens follow each other as in an expression, `eval` returns if no operator
stands behind a prefix operator that `tokenise` has seen (`Sound.returns`), and trips the assertion of its
last branch if one does (`fails_of_stuck`).  Both go by the shape of the range (`range_shape`).
-/

namespace Nemu

open Rv32 Bracket

variable {tokens : ℤ → Token} {m : Machine}

/-! ## Neighbours -/

/-- The tokens of a list follow each other as in an expression, after `tokenise`. -/
def Chained (xs : List Token) : Prop := xs.IsChain fun a b => AdjacentTagged a.type b.type

theorem isBinary_precedence {t : TokenType} (h : t.isBinary = true) : 2 ≤ getOpPrecedence t := by
  cases t <;> first | decide | cases h

theorem isComparison_precedence {t : TokenType} (h : t.isComparison = true) : 4 ≤ getOpPrecedence t := by
  cases t <;> first | decide | cases h

theorem isSign_precedence {t : TokenType} (h : t.isSign = true) :
    2 ≤ getOpPrecedence t ∧ getOpPrecedence t ≤ 3 := by
  cases t <;> first | decide | cases h

theorem isPrefix_precedence {t : TokenType} (h : t.isPrefix = true) : getOpPrecedence t = 1 := by
  cases t <;> first | rfl | cases h

theorem startsOperand_precedence {t : TokenType} (h : t.startsOperand = true) : getOpPrecedence t ≤ 0 := by
  cases t <;> first | decide | cases h

theorem endsOperand_precedence {t : TokenType} (h : t.endsOperand = true) : getOpPrecedence t ≤ 0 := by
  cases t <;> first | decide | cases h

theorem Token.side_of_precedence {t : Token} (h : getOpPrecedence t.type ≠ 0) : t.side = .plain := by
  unfold Token.side
  split
  · rename_i ht
    exact absurd (by rw [ht]; rfl) h
  · rename_i ht
    exact absurd (by rw [ht]; rfl) h
  · rfl

/-- Behind the end of an operand stands a binary operator or a closing parenthesis. -/
theorem AdjacentTagged.after_end {a b : TokenType} (h : AdjacentTagged a b) (ha : a.endsOperand = true) :
    b.isBinary = true ∨ b = .rparen := by
  have hprec := endsOperand_precedence ha
  rcases h with ⟨-, hb⟩ | ⟨ha', -⟩ | ⟨ha', -⟩ | ⟨ha', -⟩
  · exact hb
  · exfalso
    rcases ha' with ha' | ha' | rfl
    · have := isBinary_precedence ha'
      omega
    · have := isPrefix_precedence ha'
      omega
    · cases ha
  · rw [(isSign_of_endsOperand ha).2] at ha'
    cases ha'
  · exfalso
    rcases ha' with ha' | ha'
    · have := isComparison_precedence ha'
      omega
    · have := isPrefix_precedence ha'
      omega

/-- A token that is no operator and has one behind it ends an operand. -/
theorem AdjacentTagged.ends {a b : TokenType} (h : AdjacentTagged a b) (ha : getOpPrecedence a = -1) :
    a.endsOperand = true := by
  rcases h with ⟨ha', -⟩ | ⟨ha', -⟩ | ⟨ha', -⟩ | ⟨ha', -⟩
  · exact ha'
  all_goals
    exfalso
    revert ha ha'
    cases a <;> simp [getOpPrecedence, TokenType.isBinary, TokenType.isPrefix, TokenType.sees,
      TokenType.isComparison]

/-- An operand ends in front of a closing parenthesis. -/
theorem AdjacentTagged.before_rparen {a : TokenType} (h : AdjacentTagged a .rparen) : a.endsOperand = true := by
  rcases h with ⟨ha, -⟩ | ⟨-, hb⟩ | ⟨-, hb⟩ | ⟨-, hb⟩
  · exact ha
  all_goals cases hb

theorem not_balanced_rparen {z : Token} {zs : List Token} (hz : z.type = .rparen) :
    ¬ Balanced Token.side (z :: zs) := by
  intro hb
  have hscan := hb.scan_eq 0
  unfold scan at hscan
  rw [if_pos ⟨Token.side_closing.mpr hz, rfl⟩] at hscan
  cases hscan

/-- The last token of a balanced list closes a parenthesis or is outside all of them. -/
theorem balanced_concat {xs : List Token} {z : Token} (h : Balanced Token.side (xs ++ [z])) :
    z.side = .closing ∨ (z.side = .plain ∧ Balanced Token.side xs) := by
  have hscan := h.scan_eq 0
  rw [scan_append] at hscan
  obtain ⟨d, hd, hz⟩ := Option.bind_eq_some_iff.mp hscan
  cases hside : z.side with
  | closing => exact .inl rfl
  | opening =>
    rw [scan_opening hside] at hz
    cases hz
  | plain =>
    rw [scan_plain hside] at hz
    cases hz
    exact .inr ⟨rfl, (balanced_iff_scan xs).mpr hd⟩

theorem outside_concat {P : ℤ → Prop} {xs : List Token} {z : Token} (h : Outside P (xs ++ [z]))
    (hb : Balanced Token.side xs) (hz : z.side = .plain) : P (getOpPrecedence z.type) := by
  refine h 0 (0 + xs.length, z) ?_
  rw [tops_split hb hz]
  simp

/-! ## The shape of a range -/

/-- Without an operator outside the parentheses, nothing follows the end of an operand. -/
theorem eq_nil_after_end {a : Token} {zs : List Token} (ha : a.type.endsOperand = true)
    (hb : Balanced Token.side zs) (hout : Outside (· = -1) zs) (hchain : Chained (a :: zs)) : zs = [] := by
  cases zs with
  | nil => rfl
  | cons z zs =>
    exfalso
    rcases (hchain.rel_head? rfl : AdjacentTagged a.type z.type).after_end ha with hz | hz
    · have hprec := isBinary_precedence hz
      have := ((outside_plain (Token.side_of_precedence (by omega))).mp hout).1
      omega
    · exact not_balanced_rparen hz hb

/-- **The shapes of a range**: a single token, a pair of parentheses, or split at a main operator. -/
theorem range_shape {xs : List Token} (hb : Balanced Token.side xs) (hchain : Chained xs) (hne : xs ≠ []) :
    (∃ t, xs = [t] ∧ t.side = .plain) ∨ Enclosed Token.side xs ∨
      (2 ≤ xs.length ∧ ∃ l op r, Split xs l op r) := by
  rcases exists_split hb with hout | ⟨l, op, r, hs⟩
  · cases hb with
    | nil => exact absurd rfl hne
    | @plain x xs hx hxs =>
      obtain ⟨hprec, hout⟩ := (outside_plain hx).mp hout
      have hnil : xs = [] := by
        cases xs with
        | nil => rfl
        | cons y ys =>
          have hadj : AdjacentTagged x.type y.type := hchain.rel_head? rfl
          exact eq_nil_after_end (hadj.ends hprec) hxs hout hchain
      exact .inl ⟨x, by rw [hnil], hx⟩
    | @group l body r xs hl hbody hr hxs =>
      have hout' : Outside (· = -1) xs := by
        intro i e he
        refine hout (i - (body.length + 2)) e ?_
        rw [tops_group hl hbody hr]
        convert he using 2
        omega
      have hend : r.type.endsOperand = true := by
        rw [Token.side_closing.mp hr]
        rfl
      have hchain' : Chained (r :: xs) := by
        have := hchain.tail
        exact List.IsChain.right_of_append this
      rw [eq_nil_after_end hend hxs hout' hchain']
      exact .inr (.inl ⟨l, body, r, hl, hbody, hr, rfl⟩)
  · rcases Nat.lt_or_ge xs.length 2 with hlt | hge
    · left
      have hl : l = [] ∧ r = [] := by
        have := hs.eq
        subst this
        simp only [List.length_append, List.length_cons] at hlt
        exact ⟨List.length_eq_zero_iff.mp (by omega), List.length_eq_zero_iff.mp (by omega)⟩
      refine ⟨op, ?_, hs.plain⟩
      rw [hs.eq, hl.1, hl.2]
      rfl
    · exact .inr (.inr ⟨hge, l, op, r, hs⟩)

/-- In front of a main operator, an operand ends or nothing stands, unless the operator is a sign behind a
prefix operator. -/
theorem Split.left_end {xs l r : List Token} {op : Token} (hs : Split xs l op r) (hchain : Chained xs) :
    l = [] ∨ ∃ init z, l = init ++ [z] ∧
      (z.type.endsOperand = true ∨ (z.type.isPrefix = true ∧ op.type.isSign = true)) := by
  rcases List.eq_nil_or_concat' l with hl | ⟨init, z, rfl⟩
  · exact .inl hl
  refine .inr ⟨init, z, rfl, ?_⟩
  have hadj : AdjacentTagged z.type op.type := by
    have := hs.eq ▸ hchain
    exact (List.isChain_append.mp this).2.2 z (by simp) op rfl
  have hop := hs.operator
  have hplain : ∀ k, getOpPrecedence z.type = k → 1 ≤ k → k ≤ getOpPrecedence op.type := by
    rintro k rfl hk
    rcases balanced_concat hs.left with hz | ⟨hz, hinit⟩
    · rw [Token.side_closing.mp hz] at hk
      exact absurd hk (by decide)
    · exact outside_concat (P := (· ≤ getOpPrecedence op.type)) hs.before hinit hz
  rcases hadj with ⟨hz, -⟩ | ⟨-, hstart⟩ | ⟨hsees, hpre⟩ | ⟨hz, hsign⟩
  · exact .inl hz
  · have := startsOperand_precedence hstart
    omega
  · exfalso
    have hprec := isPrefix_precedence hpre
    rcases balanced_concat hs.left with hz | ⟨hz, hinit⟩
    · rw [Token.side_closing.mp hz] at hsees
      cases hsees
    · have hbefore := outside_concat hs.before hinit hz
      unfold Token.side at hz
      revert hsees hbefore hz
      rw [hprec]
      cases z.type <;> simp [TokenType.sees, getOpPrecedence]
  · rcases hz with hz | hz
    · have h4 := isComparison_precedence hz
      have hle := hplain _ rfl (by omega)
      have := isSign_precedence hsign
      omega
    · exact .inr ⟨hz, hsign⟩

/-! ## Ranges that trip the assertion -/

/-- A prefix operator stands at the end of the list, or in front of a `-` or `*`. -/
def Stuck (xs : List Token) : Prop :=
  ∃ pre x post, xs = pre ++ x :: post ∧ x.type.isPrefix = true ∧ ∀ y ∈ post.head?, y.type.isSign = true

/-- A main operator that is a prefix operator has its operand behind it. -/
theorem Split.operand {xs l r : List Token} {op : Token} (hs : Split xs l op r) (hchain : Chained xs)
    (hlen : 2 ≤ xs.length) (hop : op.type.isPrefix = true) : ∃ y ∈ r.head?, y.type.isSign = false := by
  have hprec := isPrefix_precedence hop
  cases r with
  | nil =>
    exfalso
    rcases hs.left_end hchain with rfl | ⟨init, z, rfl, hz | ⟨-, hsign⟩⟩
    · have := congrArg List.length hs.eq
      simp at this
      omega
    · have hadj : AdjacentTagged z.type op.type := by
        have := hs.eq ▸ hchain
        exact (List.isChain_append.mp this).2.2 z (by simp) op rfl
      rcases hadj.after_end hz with hbin | hparen
      · rw [(isPrefix_disjoint hop).2.2.2.2] at hbin
        cases hbin
      · rw [hparen] at hop
        cases hop
    · rw [(isPrefix_disjoint hop).2.1] at hsign
      cases hsign
  | cons y ys =>
    refine ⟨y, rfl, ?_⟩
    rw [← Bool.not_eq_true]
    intro hy
    have hsign := isSign_precedence hy
    have hafter := ((outside_plain (Token.side_of_precedence (by omega))).mp hs.after).1
    omega

/-- An element of a list that is split at another one, or at this one. -/
theorem append_cons_cases {α : Type*} {pre post l r : List α} {x y : α} (h : pre ++ x :: post = l ++ y :: r) :
    (∃ as, l = pre ++ x :: as ∧ post = as ++ y :: r) ∨ (x = y ∧ post = r) ∨
      ∃ bs, r = bs ++ x :: post := by
  rcases List.append_eq_append_iff.mp h with ⟨as, rfl, has⟩ | ⟨bs, rfl, hbs⟩
  · rcases List.cons_eq_append_iff.mp has with ⟨rfl, heq⟩ | ⟨as', rfl, rfl⟩
    · obtain ⟨rfl, rfl⟩ := List.cons.inj heq
      exact .inr (.inl ⟨rfl, rfl⟩)
    · exact .inl ⟨as', rfl, rfl⟩
  · rcases List.cons_eq_append_iff.mp hbs with ⟨rfl, heq⟩ | ⟨bs', rfl, rfl⟩
    · obtain ⟨rfl, rfl⟩ := List.cons.inj heq
      exact .inr (.inl ⟨rfl, rfl⟩)
    · exact .inr (.inr ⟨bs', rfl⟩)

/-- A seen prefix operator in front of an unseen one is stuck. -/
theorem stuck_of_clashes {prev : TokenType} {xs : List Token} (h : clashes prev xs = true) :
    (prev.isPrefix = true ∧ ∀ y ∈ xs.head?, y.type.isSign = true) ∨ Stuck xs := by
  induction xs generalizing prev with
  | nil => cases h
  | cons x xs ih =>
    rcases clashes_cons.mp h with ⟨hp, hx⟩ | h
    · refine .inl ⟨hp, ?_⟩
      rintro y ⟨⟩
      exact hx
    · right
      rcases ih h with ⟨hx, hxs⟩ | ⟨pre, y, post, rfl, hy, hpost⟩
      · exact ⟨[], x, xs, rfl, hx, hxs⟩
      · exact ⟨x :: pre, y, post, rfl, hy, hpost⟩

/-- Split at its main operator, one of the two parts of a stuck list is stuck. -/
theorem Split.stuck {xs l r : List Token} {op : Token} (hs : Split xs l op r) (hchain : Chained xs)
    (hlen : 2 ≤ xs.length) (h : Stuck xs) : Stuck l ∨ Stuck r := by
  obtain ⟨pre, x, post, hxs, hx, hpost⟩ := h
  rcases append_cons_cases (hxs.symm.trans hs.eq) with ⟨as, rfl, rfl⟩ | ⟨rfl, rfl⟩ | ⟨bs, rfl⟩
  · refine .inl ⟨pre, x, as, rfl, hx, fun y hy => hpost y ?_⟩
    rw [List.head?_append, Option.mem_def.mp hy]
    rfl
  · obtain ⟨y, hy, hsign⟩ := hs.operand hchain hlen hx
    rw [hpost y hy] at hsign
    cases hsign
  · exact .inr ⟨bs, x, post, rfl, hx, hpost⟩

/-- Without its parentheses, a stuck list is stuck. -/
theorem Stuck.body {l r : Token} {body : List Token} (hl : l.side = .opening) (hr : r.side = .closing)
    (h : Stuck (l :: (body ++ [r]))) : Stuck body := by
  obtain ⟨pre, x, post, hxs, hx, hpost⟩ := h
  have hxl : x ≠ l := by
    rintro rfl
    rw [Token.side_opening.mp hl] at hx
    cases hx
  have hxr : x ≠ r := by
    rintro rfl
    rw [Token.side_closing.mp hr] at hx
    cases hx
  rcases List.cons_eq_append_iff.mp hxs with ⟨rfl, heq⟩ | ⟨pre', rfl, heq⟩
  · exact absurd (List.cons.inj heq).1 hxl
  rcases append_cons_cases heq.symm with ⟨as, hbody, rfl⟩ | ⟨hxr', -⟩ | ⟨bs, hnil⟩
  · refine ⟨pre', x, as, hbody, hx, fun y hy => hpost y ?_⟩
    rw [List.head?_append, Option.mem_def.mp hy]
    rfl
  · exact absurd hxr' hxr
  · simp at hnil

/-- **A stuck range trips the assertion**, unless the host stack ends first. -/
theorem fails_of_stuck {frames : ℕ} {xs : List Token} {p q : ℤ} (hb : Balanced Token.side xs)
    (hchain : Chained xs) (hstuck : Stuck xs) (h : Slice tokens p xs) (hq : p + xs.length = q + 1) (hp : 0 ≤ p)
    (hend : p + xs.length ≤ 32) : Fails tokens m frames p q := by
  induction frames generalizing xs p q with
  | zero => exact fun bad => ⟨.stack, rfl⟩
  | succ n ih =>
    have hne : xs ≠ [] := by
      rintro rfl
      obtain ⟨pre, x, post, hxs, -⟩ := hstuck
      simp at hxs
    rcases range_shape hb hchain hne with ⟨t, rfl, ht⟩ | henc | ⟨hlen, l, op, r, hs⟩
    · -- a prefix operator alone
      have hpq : q = p := by simp at hq; omega
      have htype : t.type.isPrefix = true := by
        obtain ⟨pre, x, post, hxs, hx, -⟩ := hstuck
        rcases List.cons_eq_append_iff.mp hxs with ⟨rfl, heq⟩ | ⟨pre', rfl, heq⟩
        · rwa [← (List.cons.inj heq).1]
        · simp at heq
      refine fun bad => ⟨.assert, ?_⟩
      rw [hpq, eval_token h.1 ht]
      unfold evalToken
      revert htype
      cases t.type <;> simp [TokenType.isPrefix, Except.map]
    · obtain ⟨l, body, r, hl, hbody, hr, rfl⟩ := henc
      have hlen : (l :: (body ++ [r])).length = body.length + 2 := by simp
      rw [hlen] at hq hend
      push_cast at hq hend
      have hinner := (slice_append.mp h.2).1
      have hchain' : Chained body := List.IsChain.left_of_append hchain.tail
      intro bad
      rw [eval_enclosed hl hbody hr h (by rw [hlen]; push_cast; omega)]
      exact ih hbody hchain' (hstuck.body hl hr) hinner (by omega) (by omega) (by omega) false
    · have hxs := hs.eq
      subst hxs
      have hslice := slice_append.mp h
      have hsplit := List.isChain_append.mp hchain
      have hlength : (l ++ op :: r).length = l.length + r.length + 1 := by simp; omega
      have hq' := hq
      have hend' := hend
      rw [hlength] at hq' hend'
      push_cast at hq' hend'
      rcases hs.stuck hchain hlen hstuck with hl | hr
      · exact hs.fails_left h hq hp hend hlen
          (ih hs.left hsplit.1 hl hslice.1 (by omega) (by omega) (by omega))
      · exact hs.fails_right h hq hp hend hlen
          (ih hs.right hsplit.2.1.tail hr hslice.2.2 (by omega) (by omega) (by omega))

/-! ## Ranges that have a value -/

/-- The tokens follow each other as in an expression, and no operator stands behind a seen prefix
operator. -/
def Clear (xs : List Token) : Prop :=
  xs.IsChain fun a b => AdjacentTagged a.type b.type ∧ ¬ (a.type.isPrefix = true ∧ b.type.isSign = true)

theorem Clear.chained {xs : List Token} (h : Clear xs) : Chained xs := List.IsChain.imp (fun _ _ => And.left) h

theorem clear_of_clashes {prev : TokenType} {xs : List Token} (hchain : Chained xs)
    (h : clashes prev xs = false) : Clear xs := by
  induction xs generalizing prev with
  | nil => exact List.isChain_nil
  | cons x xs ih =>
    have htail := (somewhere_cons.mp h).2
    refine List.IsChain.cons (ih hchain.tail htail) fun y hy => ⟨hchain.rel_head? hy, ?_⟩
    rintro ⟨hx, hsign⟩
    obtain ⟨ys, rfl⟩ := List.head?_eq_some_iff.mp hy
    have hhere := (somewhere_cons.mp htail).1
    rw [hx] at hhere
    rw [show ((y :: ys).head?.any fun t => t.type.isSign) = y.type.isSign from rfl, hsign] at hhere
    cases hhere

/-- A range that has a value. -/
structure Sound (xs : List Token) : Prop where
  ne : xs ≠ []
  balanced : Balanced Token.side xs
  clear : Clear xs
  last : ∀ t ∈ xs.getLast?, t.type.endsOperand = true

theorem evalToken_ok (m : Machine) {t : Token} (hend : t.type.endsOperand = true) (ht : t.side = .plain) :
    ∃ v, evalToken m t = .ok v := by
  unfold Token.side at ht
  unfold evalToken
  revert hend ht
  cases t.type <;> simp [TokenType.endsOperand]

theorem Sound.body {l r : Token} {body : List Token} (hl : l.side = .opening) (hbody : Balanced Token.side body)
    (hr : r.side = .closing) (h : Sound (l :: (body ++ [r]))) : Sound body := by
  have hclear : Clear (body ++ [r]) := List.IsChain.tail h.clear
  refine ⟨?_, hbody, List.IsChain.left_of_append hclear, fun t ht => ?_⟩
  · rintro rfl
    have hadj : AdjacentTagged l.type r.type := (List.IsChain.rel_head? h.clear rfl).1
    rw [Token.side_opening.mp hl, Token.side_closing.mp hr] at hadj
    cases hadj.before_rparen
  · have hadj : AdjacentTagged t.type r.type := ((List.isChain_append.mp hclear).2.2 t ht r rfl).1
    rw [Token.side_closing.mp hr] at hadj
    exact hadj.before_rparen

theorem Split.sound_left {xs l r : List Token} {op : Token} (hs : Split xs l op r) (h : Sound xs) :
    l = [] ∨ Sound l := by
  have hclear : Clear (l ++ op :: r) := hs.eq ▸ h.clear
  rcases hs.left_end h.clear.chained with hl | ⟨init, z, hl, hz⟩
  · exact .inl hl
  · refine .inr ⟨by rw [hl]; simp, hs.left, List.IsChain.left_of_append hclear, fun t ht => ?_⟩
    rw [hl, List.getLast?_concat] at ht
    cases ht
    rcases hz with hz | ⟨hz, hsign⟩
    · exact hz
    · have hnot := (List.isChain_append.mp hclear).2.2 z (by rw [hl]; simp) op rfl
      exact absurd ⟨hz, hsign⟩ hnot.2

theorem Split.sound_right {xs l r : List Token} {op : Token} (hs : Split xs l op r) (h : Sound xs) : Sound r := by
  have hclear : Clear (l ++ op :: r) := hs.eq ▸ h.clear
  have hlast := h.last
  rw [hs.eq, List.getLast?_append_of_ne_nil _ (List.cons_ne_nil _ _)] at hlast
  have hne : r ≠ [] := by
    rintro rfl
    have := endsOperand_precedence (hlast op rfl)
    have := hs.operator
    omega
  refine ⟨hne, hs.right, List.IsChain.tail (List.isChain_append.mp hclear).2.1, fun t ht => hlast t ?_⟩
  obtain ⟨u, us, rfl⟩ := List.exists_cons_of_ne_nil hne
  rwa [List.getLast?_cons_cons]

/-- **A sound range has a value.** -/
theorem Sound.returns {frames : ℕ} {xs : List Token} {p q : ℤ} (hsound : Sound xs) (h : Slice tokens p xs)
    (hq : p + xs.length = q + 1) (hp : 0 ≤ p) (hend : p + xs.length ≤ 32) (hf : xs.length ≤ frames) :
    ∃ v, Returns tokens m frames p q v := by
  induction frames generalizing xs p q with
  | zero => exact absurd (List.length_eq_zero_iff.mp (Nat.le_zero.mp hf)) hsound.ne
  | succ n ih =>
    rcases range_shape hsound.balanced hsound.clear.chained hsound.ne with
      ⟨t, rfl, ht⟩ | henc | ⟨hlen, l, op, r, hs⟩
    · have hpq : q = p := by simp at hq; omega
      obtain ⟨v, hv⟩ := evalToken_ok m (hsound.last t rfl) ht
      refine ⟨v, fun bad => ⟨false, ?_⟩⟩
      rw [hpq, eval_token h.1 ht, hv]
      rfl
    · obtain ⟨l, body, r, hl, hbody, hr, rfl⟩ := henc
      have hlen : (l :: (body ++ [r])).length = body.length + 2 := by simp
      rw [hlen] at hq hend hf
      push_cast at hq hend
      have hinner := (slice_append.mp h.2).1
      obtain ⟨v, hv⟩ := @ih body (p + 1) (q - 1) (hsound.body hl hbody hr) hinner (by omega) (by omega) (by omega)
        (by omega)
      refine ⟨v, fun bad => ?_⟩
      rw [eval_enclosed hl hbody hr h (by rw [hlen]; push_cast; omega)]
      exact hv false
    · have hxs := hs.eq
      subst hxs
      have hslice := slice_append.mp h
      have hlength : (l ++ op :: r).length = l.length + r.length + 1 := by simp; omega
      have hq' := hq
      have hend' := hend
      rw [hlength] at hq' hend' hf
      push_cast at hq' hend'
      have hright := hs.sound_right hsound
      have hpos : 0 < r.length := List.length_pos_of_ne_nil hright.ne
      obtain ⟨w, hw⟩ := @ih r (p + l.length + 1) q hright hslice.2.2 (by omega) (by omega) (by omega) (by omega)
      obtain ⟨v, hv⟩ : ∃ v, Returns tokens m n p (p + l.length - 1) v := by
        rcases hs.sound_left hsound with rfl | hleft
        · obtain ⟨k, rfl⟩ : ∃ k, n = k + 1 := ⟨n - 1, by omega⟩
          exact ⟨0, returns_empty (by simp)⟩
        · exact ih hleft hslice.1 (by omega) (by omega) (by omega) (by omega)
      obtain ⟨u, hu⟩ := applyOp_ok m op.type v w
      exact ⟨u, hs.returns h hq hp hend hlen hv hw hu⟩

end Nemu
