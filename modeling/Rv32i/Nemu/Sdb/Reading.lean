import Rv32i.Nemu.Sdb.Tokenise

/-!
# The expressions that are read right

`eval` groups a token list by the types that `tokenise` leaves (`Tagged`), a reader of the expression by
its syntax (`Derives`).  The two give the same value if no operator stands behind a prefix operator that
`tokenise` has seen (`clashes`), and if `tokenise` has missed only `-` signs whose product has no division
(`misread`); `Derives.tagged` finds the tree that `eval` reads.
-/

namespace Nemu

open Rv32 Bracket

/-! ## Prefix operators behind a comparison -/

/-- A `/` comes before the end of the product that the list starts with, outside its parentheses. -/
def divides : ℕ → List Token → Bool
  | _, [] => false
  | d, t :: ts =>
    if d = 0 ∧ (t.side = .closing ∨ 3 ≤ getOpPrecedence t.type) then false
    else (d = 0 && t.type = .slash) || divides (next Token.side d t) ts

/-- After `tokenise`: some `*` directly follows `==`, `!=` or `&&`, or some `-` does whose product has
a `/`. -/
def misread : TokenType → List Token → Bool :=
  somewhere fun prev ts =>
    match ts with
    | x :: rest => prev.isComparison && (x.type = .star || (x.type = .dash && divides 0 rest))
    | [] => false

theorem divides_left {d : ℕ} {xs : List Token} (ys : List Token) (h : divides d xs = true) :
    divides d (xs ++ ys) = true := by
  induction xs generalizing d with
  | nil => cases h
  | cons x xs ih =>
    rw [List.cons_append]
    unfold divides at h ⊢
    by_cases hc : d = 0 ∧ (x.side = .closing ∨ 3 ≤ getOpPrecedence x.type)
    · rw [if_pos hc] at h
      cases h
    · rw [if_neg hc] at h ⊢
      rw [Bool.or_eq_true] at h ⊢
      exact h.imp_right ih

theorem divides_inside {d : ℕ} {xs ys : List Token} (hb : Balanced Token.side xs)
    (h : divides (d + 1) ys = true) : divides (d + 1) (xs ++ ys) = true := by
  induction hb generalizing d ys with
  | nil => exact h
  | plain hx _ ih =>
    rw [List.cons_append]
    unfold divides
    rw [if_neg (by simp), next_plain hx, ih h, Bool.or_true]
  | @group l body r xs hl _ hr _ ihb ihx =>
    have hrest : divides (d + 1 + 1) (r :: (xs ++ ys)) = true := by
      unfold divides
      rw [if_neg (by simp), next_closing hr, ihx h, Bool.or_true]
    rw [List.cons_append, List.append_assoc, List.cons_append]
    unfold divides
    rw [if_neg (by simp), next_opening hl, ihb hrest, Bool.or_true]

/-- A product does not end before it does. -/
theorem divides_right {xs ys : List Token} (hb : Balanced Token.side xs) (hout : Outside (· ≤ 2) xs)
    (h : divides 0 ys = true) : divides 0 (xs ++ ys) = true := by
  induction hb with
  | nil => exact h
  | @plain x xs hx _ ih =>
    obtain ⟨hprec, hout⟩ := (outside_plain hx).mp hout
    rw [List.cons_append]
    unfold divides
    rw [if_neg (by rw [hx]; simp; omega), next_plain hx, ih hout, Bool.or_true]
  | @group l body r xs hl hbody hr hxs _ ihx =>
    have hout' : Outside (· ≤ 2) xs := by
      intro i e he
      refine hout (i - (body.length + 2)) e ?_
      rw [tops_group hl hbody hr]
      convert he using 2
      omega
    have hrest : divides (0 + 1) (r :: (xs ++ ys)) = true := by
      unfold divides
      rw [if_neg (by simp), next_closing hr, ihx hout', Bool.or_true]
    have hprec : getOpPrecedence l.type = 0 := by
      rw [Token.side_opening.mp hl]
      rfl
    rw [List.cons_append, List.append_assoc, List.cons_append]
    unfold divides
    rw [if_neg (by rw [hl, hprec]; simp), next_opening hl, divides_inside hbody hrest, Bool.or_true]

theorem misread_cons {prev : TokenType} {x : Token} {ts : List Token} : misread prev (x :: ts) = false ↔
    (prev.isComparison && (x.type = .star || (x.type = .dash && divides 0 ts))) = false ∧
      misread x.type ts = false :=
  somewhere_cons

theorem clashes_left {prev : TokenType} {xs ys : List Token} (h : clashes prev (xs ++ ys) = false) :
    clashes prev xs = false := by
  refine somewhere_left (fun prev xs ys h => ?_) h
  cases xs with
  | nil => exact Bool.and_false _
  | cons x xs => exact h

theorem misread_left {prev : TokenType} {xs ys : List Token} (h : misread prev (xs ++ ys) = false) :
    misread prev xs = false := by
  refine somewhere_left (fun prev xs ys h => ?_) h
  cases xs with
  | nil => rfl
  | cons x xs =>
    rw [← Bool.not_eq_true] at h ⊢
    simp only [List.cons_append, Bool.and_eq_true, Bool.or_eq_true] at h ⊢
    exact fun hc => h ⟨hc.1, hc.2.imp_right fun hd => ⟨hd.1, divides_left ys hd.2⟩⟩

/-! ## The tree that is read -/

/-- In every state in which `e` has a value, `e'` has the same. -/
structure SameValue (e' e : Ast) : Prop where
  all : ∀ P, e.All P → e'.All P
  defined : ∀ m, e.Defined m → e'.Defined m
  value : ∀ m, e'.value m = e.value m

theorem SameValue.refl (e : Ast) : SameValue e e := ⟨fun _ => id, fun _ => id, fun _ => rfl⟩

theorem SameValue.pre {e' e : Ast} (h : SameValue e' e) (o : PreOp) : SameValue (.pre o e') (.pre o e) := by
  refine ⟨h.all, fun m hd => ?_, fun m => congrArg (o.value m) (h.value m)⟩
  cases o with
  | neg => exact h.defined m hd
  | deref =>
    refine ⟨h.defined m hd.1, ?_⟩
    rw [h.value]
    exact hd.2

theorem SameValue.bin {l' l r' r : Ast} (hl : SameValue l' l) (hr : SameValue r' r) (o : BinOp) :
    SameValue (.bin o l' r') (.bin o l r) := by
  refine ⟨fun P h => ⟨hl.all P h.1, hr.all P h.2⟩, fun m h => ⟨hl.defined m h.1, hr.defined m h.2⟩, fun m => ?_⟩
  show o.value (l'.value m) (r'.value m) = o.value (l.value m) (r.value m)
  rw [hl.value, hr.value]

/-- A sign may be taken of the first factor or of the product. -/
theorem SameValue.neg_mul {e l r' r : Ast} (hl : SameValue (.pre .neg e) l) (hr : SameValue r' r) :
    SameValue (.pre .neg (.bin .mul e r')) (.bin .mul l r) := by
  refine ⟨fun P h => ⟨hl.all P h.1, hr.all P h.2⟩, fun m h => ⟨hl.defined m h.1, hr.defined m h.2⟩, fun m => ?_⟩
  show -(e.value m * r'.value m) = l.value m * r.value m
  rw [← hl.value, ← hr.value]
  exact (BitVec.neg_mul ..).symm

/-- Up to level 1 and without a prefix operator in front, it is a primary expression. -/
theorem Tagged.primary {k : ℕ} {e : Ast} {ts : List Token} (h : Tagged k e ts) (hk : k ≤ 1)
    (hhead : ∀ t ∈ ts.head?, t.type.isPrefix = false) : Tagged 0 e ts := by
  induction h with
  | atom a => exact .atom a
  | paren h _ => exact .paren h
  | @pre o _ _ _ _ =>
    have := hhead _ rfl
    cases o <;> cases this
  | @bin o _ _ _ _ _ _ _ _ =>
    have := o.level_pos
    omega
  | unseen _ _ => omega
  | up _ ih => exact ih (by omega) hhead

/-- How `eval` reads an expression behind a token: as an expression of the same level and value, or as
a product without the `-` in front of it. -/
def Reads (prev : TokenType) (k : ℕ) (e : Ast) (ts : List Token) : Prop :=
  (∃ e', Tagged k e' ts ∧ SameValue e' e) ∨
    (prev.isComparison = true ∧ k ≤ 2 ∧
      ∃ e' ts', ts = BinOp.sub.token :: ts' ∧ Tagged 2 e' ts' ∧ SameValue (.pre .neg e') e)

theorem Reads.tagged {prev : TokenType} {k : ℕ} {e : Ast} {ts : List Token} (h : Reads prev k e ts)
    (hprev : prev.isComparison = false) : ∃ e', Tagged k e' ts ∧ SameValue e' e := by
  rcases h with h | ⟨hc, -⟩
  · exact h
  · rw [hprev] at hc
    cases hc

theorem retagOne_of_not_sign {t : Token} (h : t.type.isSign = false) (prev : TokenType) : retagOne prev t = t := by
  unfold retagOne
  rw [h, Bool.false_and]
  rfl

theorem PreOp.retagOne {prev : TokenType} (h : prev.sees = true) (o : PreOp) :
    retagOne prev o.token = o.tagged := by
  unfold Nemu.retagOne
  rw [o.isSign, h]
  cases o <;> rfl

theorem isSign_of_endsOperand {t : TokenType} (h : t.endsOperand = true) : t.isSign = false ∧ t.sees = false := by
  cases t <;> first | exact ⟨rfl, rfl⟩ | cases h

theorem not_isSign_of_startsOperand {t : TokenType} (h : t.startsOperand = true) : t.isSign = false := by
  cases t <;> first | rfl | cases h

/-- Behind the end of an operand nothing is rewritten. -/
theorem Joined.retag_append {ls rs : List Token} (h : Joined ls) (prev : TokenType) (t : Token) :
    retag prev (ls ++ t :: rs) = retag prev ls ++ t :: retag t.type rs := by
  have hsign : ∀ u ∈ ls.getLast?, u.type.isSign = false := fun u hu => (isSign_of_endsOperand (h.last u hu)).1
  obtain ⟨u, hu, hlast⟩ := lastType_retag h.ne hsign
  rw [Nemu.retag_append, hlast, retag_cons, retagOne_of_not_sees (isSign_of_endsOperand (h.last u hu)).2]

/-- A prefix operator behind `prev`: seen, or a `-` that is not. -/
theorem Reads.pre {prev : TokenType} {o : PreOp} {e : Ast} {ts : List Token} (hd : Derives 1 e ts)
    (ih : ∀ prev, (prev.sees = true ∨ prev.isComparison = true ∨ ∀ t ∈ ts.head?, t.type.isSign = false) →
      clashes prev (retag prev ts) = false → misread prev (retag prev ts) = false →
      Reads prev 1 e (retag prev ts))
    (hprev : prev.sees = true ∨ prev.isComparison = true) (hclash : clashes prev (retag prev (o.token :: ts)) = false)
    (hmis : misread prev (retag prev (o.token :: ts)) = false) :
    Reads prev 1 (.pre o e) (retag prev (o.token :: ts)) := by
  rw [retag_cons] at hclash hmis ⊢
  rcases hprev with hsees | hcomp
  · -- behind a seen operator there is none
    rw [o.retagOne hsees] at hclash hmis ⊢
    have hpre : o.tagged.type.isPrefix = true := by cases o <;> rfl
    obtain ⟨hnosees, -, hnocomp, -, -⟩ := isPrefix_disjoint hpre
    obtain ⟨u, us, rfl⟩ := List.exists_cons_of_ne_nil hd.joined.ne
    have hu : retag o.tagged.type (u :: us) = u :: retag u.type us := by
      rw [retag_cons, retagOne_of_not_sees hnosees]
    have hhead : ∀ t ∈ (u :: us).head?, t.type.isSign = false := by
      rintro t ⟨⟩
      have hnext := (somewhere_cons.mp hclash).2
      rw [hu] at hnext
      have hsign := (somewhere_cons.mp hnext).1
      rwa [hpre] at hsign
    obtain ⟨e', he', hval⟩ := (ih _ (.inr (.inr hhead)) (somewhere_cons.mp hclash).2
      (somewhere_cons.mp hmis).2).tagged hnocomp
    refine .inl ⟨.pre o e', .pre (he'.primary (le_refl 1) fun t ht => ?_), hval.pre o⟩
    rw [hu] at ht
    cases ht
    exact (hd.wellFormed u List.mem_cons_self).isPrefix
  · -- an unseen one is a `-`
    have hnosees : prev.sees = false := by
      revert hcomp
      cases prev <;> simp [TokenType.isComparison, TokenType.sees]
    rw [retagOne_of_not_sees hnosees] at hclash hmis ⊢
    obtain ⟨hhere, hmis⟩ := misread_cons.mp hmis
    cases o with
    | deref =>
      rw [hcomp] at hhere
      cases hhere
    | neg =>
      obtain ⟨e', he', hval⟩ := (ih .dash (.inl rfl) (somewhere_cons.mp hclash).2 hmis).tagged rfl
      exact .inr ⟨hcomp, by omega, e', _, rfl, .up he', hval.pre .neg⟩

/-- A binary operator between two expressions. -/
theorem Reads.bin {prev : TokenType} {o : BinOp} {l r : Ast} {ls rs : List Token}
    (hl : Reads prev o.level l ls) (hr : Reads o.token.type (o.level - 1) r rs)
    (hmis : misread prev (ls ++ o.token :: rs) = false) :
    Reads prev o.level (.bin o l r) (ls ++ o.token :: rs) := by
  obtain ⟨r', hr', hrval⟩ : ∃ r', Tagged (o.level - 1) r' rs ∧ SameValue r' r := by
    rcases hr with hr | ⟨hcomp, hlevel, -⟩
    · exact hr
    · exfalso
      cases o <;> first | cases hcomp; done | exact absurd hlevel (by decide)
  rcases hl with ⟨l', hl', hlval⟩ | ⟨hcomp, hlevel, e', ts', rfl, he', hval⟩
  · exact .inl ⟨.bin o l' r', .bin hl' hr', hlval.bin hrval o⟩
  · -- a product behind an unseen `-`
    refine .inr ⟨hcomp, hlevel, ?_⟩
    cases o with
    | mul =>
      exact ⟨.bin .mul e' r', ts' ++ BinOp.mul.token :: rs, rfl, @Tagged.bin .mul e' r' ts' rs he' hr',
        hval.neg_mul hrval⟩
    | div =>
      have hdiv : divides 0 (ts' ++ BinOp.div.token :: rs) = true := divides_right he'.balanced he'.outside rfl
      rw [List.cons_append] at hmis
      have hhere := (misread_cons.mp hmis).1
      rw [hcomp, hdiv] at hhere
      cases hhere
    | _ => exact absurd hlevel (by decide)

/-- **`eval` reads every expression with its value** behind a token after which an operand may start,
unless an operator stands behind a seen prefix operator or is misread. -/
theorem Derives.reads {k : ℕ} {e : Ast} {ts : List Token} (h : Derives k e ts) (prev : TokenType)
    (hprev : prev.sees = true ∨ prev.isComparison = true ∨ ∀ t ∈ ts.head?, t.type.isSign = false)
    (hclash : clashes prev (retag prev ts) = false) (hmis : misread prev (retag prev ts) = false) :
    Reads prev k e (retag prev ts) := by
  induction h generalizing prev with
  | atom a =>
    rw [retag_cons, retagOne_of_not_sign (not_isSign_of_startsOperand a.startsOperand)]
    exact .inl ⟨.atom a, .atom a, .refl _⟩
  | @paren e ts h ih =>
    have hretag : retag prev (lparen :: (ts ++ [rparen])) = lparen :: (retag .lparen ts ++ [rparen]) := by
      rw [retag_cons, retagOne_of_not_sign rfl, h.joined.retag_append]
      rfl
    rw [hretag] at hclash hmis ⊢
    obtain ⟨e', he', hval⟩ := (ih .lparen (.inl rfl) (clashes_left (somewhere_cons.mp hclash).2)
      (misread_left (misread_cons.mp hmis).2)).tagged rfl
    exact .inl ⟨e', .paren he', hval⟩
  | @pre o e ts h ih =>
    refine Reads.pre h ih ?_ hclash hmis
    rcases hprev with hprev | hprev | hhead
    · exact .inl hprev
    · exact .inr hprev
    · have hsign := hhead _ rfl
      rw [o.isSign] at hsign
      cases hsign
  | @bin o l r ls rs hl hr ihl ihr =>
    rw [List.head?_append_of_ne_nil _ hl.joined.ne] at hprev
    rw [hl.joined.retag_append] at hclash hmis ⊢
    refine Reads.bin (ihl prev hprev (clashes_left hclash) (misread_left hmis)) (ihr _ ?_ ?_ ?_) hmis
    · cases o <;> simp [BinOp.token, TokenType.sees, TokenType.isComparison]
    · exact (somewhere_cons.mp (somewhere_right hclash)).2
    · exact (misread_cons.mp (somewhere_right hmis)).2
  | @up k e ts h ih =>
    rcases ih prev hprev hclash hmis with ⟨e', he', hval⟩ | ⟨hcomp, hk, e', ts', hts, he', hval⟩
    · exact .inl ⟨e', .up he', hval⟩
    · rcases Nat.lt_or_ge k 2 with hlt | hge
      · exact .inr ⟨hcomp, hlt, e', ts', hts, he', hval⟩
      · obtain rfl : k = 2 := by omega
        rw [hts]
        exact .inl ⟨.pre .neg e', .unseen he', hval⟩

end Nemu
