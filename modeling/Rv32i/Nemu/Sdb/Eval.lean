import Rv32i.Nemu.Sdb.Syntax
import Rv32i.Nemu.Sdb.MainOp

/-!
# The evaluation of a range

What `eval` does on a range of the token array, by the shape of the range: empty, a single token, enclosed
in parentheses, or split at its main operator.  The value never depends on `is_bad_expression`, so it is
stated for every value of the flag (`Returns`, `Fails`).

From this, the value of a range that is grouped as `eval` groups it (`Tagged.returns`).
-/

namespace Nemu

open Rv32 Bracket

/-- `eval` returns `v` on the range. -/
def Returns (tokens : ℤ → Token) (m : Machine) (frames : ℕ) (p q : ℤ) (v : Word) : Prop :=
  ∀ bad, ∃ bad', eval tokens m frames p q bad = .ok (v, bad')

/-- `eval` does not return on the range. -/
def Fails (tokens : ℤ → Token) (m : Machine) (frames : ℕ) (p q : ℤ) : Prop :=
  ∀ bad, ∃ f, eval tokens m frames p q bad = .error f

variable {tokens : ℤ → Token} {m : Machine} {frames : ℕ} {p q : ℤ}

/-! ## By the shape of the range -/

theorem returns_empty (h : p > q) : Returns tokens m (frames + 1) p q 0 := by
  intro bad
  refine ⟨bad, ?_⟩
  unfold eval checkParentheses
  rw [if_pos h]
  cases bad <;> simp [h]

/-- A single token that is no parenthesis. -/
theorem eval_token {t : Token} (h : tokens p = t) (ht : t.side = .plain) (bad : Bool) :
    eval tokens m (frames + 1) p p bad = (evalToken m t).map fun v => (v, false) := by
  have hslice : Slice tokens p [t] := ⟨h, trivial⟩
  have hcheck : checkParentheses tokens p p bad = (true, false) :=
    checkParentheses_balanced hslice (by simp) (List.cons_ne_nil _ _) (.plain ht .nil) bad
  unfold eval
  simp only [hcheck, h, gt_iff_lt, lt_self_iff_false, if_false, if_true, Bool.false_eq_true, and_false]
  cases evalToken m t <;> rfl

/-- A range in a pair of parentheses. -/
theorem eval_enclosed {l r : Token} {body : List Token} (hl : l.side = .opening)
    (hbody : Balanced Token.side body) (hr : r.side = .closing) (h : Slice tokens p (l :: (body ++ [r])))
    (hq : q = p + (l :: (body ++ [r])).length - 1) (bad : Bool) :
    eval tokens m (frames + 1) p q bad = eval tokens m frames (p + 1) (q - 1) false := by
  have henc : Enclosed Token.side (l :: (body ++ [r])) := ⟨l, body, r, hl, hbody, hr, rfl⟩
  have hcheck : ∀ bad, checkParentheses tokens p q bad = (true, false) := by
    intro bad
    rw [checkParentheses_balanced h hq (List.cons_ne_nil _ _) henc.balanced,
      (enclosed_iff henc.balanced (by simp)).mp henc]
  have hlt : ¬ p > q ∧ p ≠ q := by
    simp only [List.length_cons, List.length_append, List.length_nil] at hq
    push_cast at hq
    omega
  conv_lhs => unfold eval
  simp only [hcheck, hlt.1, hlt.2, if_false, if_true, Bool.false_eq_true, and_false]

theorem Split.balanced {xs l r : List Token} {op : Token} (h : Split xs l op r) : Balanced Token.side xs := by
  rw [h.eq]
  exact h.left.append (.plain h.plain h.right)

/-- A list with an operator outside all parentheses is not enclosed. -/
theorem Split.not_enclosed {xs l r : List Token} {op : Token} (h : Split xs l op r) :
    ¬ Enclosed Token.side xs := by
  rintro ⟨a, body, c, ha, hbody, hc, hxs⟩
  have htops := tops_group ha hbody hc 0 []
  rw [← hxs, h.eq, tops_split h.left h.plain] at htops
  simp [tops] at htops

/-- A range that is split at its main operator. -/
theorem eval_split {xs l r : List Token} {op : Token} (hs : Split xs l op r) (h : Slice tokens p xs)
    (hq : p + xs.length = q + 1) (hp : 0 ≤ p) (hend : p + xs.length ≤ 32) (hlen : 2 ≤ xs.length) (bad : Bool) :
    ∃ bad', eval tokens m (frames + 1) p q bad = do
      let (val1, bad) ← eval tokens m frames p (p + l.length - 1) bad'
      let (val2, bad) ← eval tokens m frames (p + l.length + 1) q bad
      let val ← applyOp m op.type val1 val2
      return (val, bad) := by
  have hne : xs ≠ [] := by
    rintro rfl
    simp at hlen
  have hheld : held Token.side 0 xs = false := by
    rw [← Bool.not_eq_true, ← enclosed_iff hs.balanced hlen]
    exact hs.not_enclosed
  have hcheck : ∀ bad, checkParentheses tokens p q bad = (false, false) := by
    intro bad
    rw [checkParentheses_balanced h (by omega) hne hs.balanced, hheld]
  obtain ⟨bad', hmain⟩ := getMainOp_eq hs h hq hp hend false
  have hop : tokens (p + l.length) = op := by
    have := h
    rw [hs.eq, slice_append] at this
    exact this.2.1
  refine ⟨bad', ?_⟩
  have hlt : ¬ p > q ∧ p ≠ q := by omega
  conv_lhs => unfold eval
  simp only [hcheck, hlt.1, hlt.2, if_false, Bool.false_eq_true, and_false, hmain]
  show (do let (val1, bad) ← eval tokens m frames p (p + l.length - 1) bad'
           let (val2, bad) ← eval tokens m frames (p + l.length + 1) q bad
           let val ← applyOp m (tokens (p + l.length)).type val1 val2
           return (val, bad)) = _
  rw [hop]

/-- An operator always has a value; a read of `TK_DEREF` is guarded. -/
theorem applyOp_ok (m : Machine) (t : TokenType) (v w : Word) : ∃ u, applyOp m t v w = .ok u := by
  unfold applyOp
  cases t
  case deref =>
    by_cases h : inPmem w = true
    · have hread := @paddrRead_eq m.pmem w .word h
      exact ⟨_, (if_pos h).trans hread⟩
    · exact ⟨0, if_neg h⟩
  all_goals exact ⟨_, rfl⟩

section Split

variable {xs l r : List Token} {op : Token} (hs : Split xs l op r) (h : Slice tokens p xs)
  (hq : p + xs.length = q + 1) (hp : 0 ≤ p) (hend : p + xs.length ≤ 32) (hlen : 2 ≤ xs.length)

include hs h hq hp hend hlen

theorem Split.returns {v w u : Word} (hl : Returns tokens m frames p (p + l.length - 1) v)
    (hr : Returns tokens m frames (p + l.length + 1) q w) (hop : applyOp m op.type v w = .ok u) :
    Returns tokens m (frames + 1) p q u := by
  intro bad
  obtain ⟨bad0, heval⟩ := @eval_split tokens m frames p q xs l r op hs h hq hp hend hlen bad
  obtain ⟨bad1, h1⟩ := hl bad0
  obtain ⟨bad2, h2⟩ := hr bad1
  refine ⟨bad2, ?_⟩
  rw [heval, h1]
  show (do let (val2, bad) ← eval tokens m frames (p + l.length + 1) q bad1
           let val ← applyOp m op.type v val2
           return (val, bad)) = _
  rw [h2]
  show (do let val ← applyOp m op.type v w; return (val, bad2)) = _
  rw [hop]
  rfl

theorem Split.fails_left (hl : Fails tokens m frames p (p + l.length - 1)) :
    Fails tokens m (frames + 1) p q := by
  intro bad
  obtain ⟨bad0, heval⟩ := @eval_split tokens m frames p q xs l r op hs h hq hp hend hlen bad
  obtain ⟨f, h1⟩ := hl bad0
  refine ⟨f, ?_⟩
  rw [heval, h1]
  rfl

theorem Split.fails_right (hr : Fails tokens m frames (p + l.length + 1) q) :
    Fails tokens m (frames + 1) p q := by
  intro bad
  obtain ⟨bad0, heval⟩ := @eval_split tokens m frames p q xs l r op hs h hq hp hend hlen bad
  cases h1 : eval tokens m frames p (p + l.length - 1) bad0 with
  | error f =>
    refine ⟨f, ?_⟩
    rw [heval, h1]
    rfl
  | ok v =>
    obtain ⟨f, h2⟩ := hr v.2
    refine ⟨f, ?_⟩
    rw [heval, h1]
    show (do let (val2, bad) ← eval tokens m frames (p + l.length + 1) q v.2
             let val ← applyOp m op.type v.1 val2
             return (val, bad)) = _
    rw [h2]
    rfl

end Split

/-! ## How a range is grouped -/

/-- The token of a prefix operator once `tokenise` has seen it. -/
def PreOp.tagged : PreOp → Token
  | .neg => ⟨.minus, ['-']⟩
  | .deref => ⟨.deref, ['*']⟩

/-- The tree that `eval` reads in a token list.  An operator that `tokenise` has seen takes a primary
expression.  A `-` that it has not seen is a subtraction without a left operand, and takes a whole
product. -/
inductive Tagged : ℕ → Ast → List Token → Prop
  | atom (a : Atom) : Tagged 0 (.atom a) [a.token]
  | paren {e ts} : Tagged 5 e ts → Tagged 0 e (lparen :: (ts ++ [rparen]))
  | pre {o e ts} : Tagged 0 e ts → Tagged 1 (.pre o e) (o.tagged :: ts)
  | bin {o l r ls rs} : Tagged o.level l ls → Tagged (o.level - 1) r rs →
      Tagged o.level (.bin o l r) (ls ++ o.token :: rs)
  | unseen {e ts} : Tagged 2 e ts → Tagged 3 (.pre .neg e) (BinOp.sub.token :: ts)
  | up {k e ts} : Tagged k e ts → Tagged (k + 1) e ts

theorem Atom.side (a : Atom) : a.token.side = .plain := by
  rcases a.isOperand with h | h | h <;> unfold Token.side <;> rw [h]

theorem Atom.precedence (a : Atom) : getOpPrecedence a.token.type = -1 := by
  rcases a.isOperand with h | h | h <;> rw [h] <;> rfl

theorem BinOp.side (o : BinOp) : o.token.side = .plain := by
  cases o <;> rfl

theorem BinOp.precedence (o : BinOp) : getOpPrecedence o.token.type = o.level := by
  cases o <;> rfl

theorem BinOp.level_pos (o : BinOp) : 2 ≤ o.level := by
  cases o <;> decide

theorem PreOp.tagged_side (o : PreOp) : o.tagged.side = .plain := by
  cases o <;> rfl

theorem PreOp.tagged_precedence (o : PreOp) : getOpPrecedence o.tagged.type = 1 := by
  cases o <;> rfl

theorem Tagged.balanced {k : ℕ} {e : Ast} {ts : List Token} (h : Tagged k e ts) : Balanced Token.side ts := by
  induction h with
  | atom a => exact .plain a.side .nil
  | paren _ ih => exact .group rfl ih rfl .nil
  | pre _ ih => exact .plain (PreOp.tagged_side _) ih
  | bin _ _ ihl ihr => exact ihl.append (.plain (BinOp.side _) ihr)
  | unseen _ ih => exact .plain (BinOp.side _) ih
  | up _ ih => exact ih

theorem Tagged.length_pos {k : ℕ} {e : Ast} {ts : List Token} (h : Tagged k e ts) : 0 < ts.length := by
  induction h with
  | up _ ih => exact ih
  | _ => simp

/-- At level `k`, no operator outside the parentheses is looser than `k`. -/
theorem Tagged.outside {k : ℕ} {e : Ast} {ts : List Token} (h : Tagged k e ts) : Outside (· ≤ (k : ℤ)) ts := by
  induction h with
  | atom a =>
    refine (outside_plain a.side).mpr ⟨?_, .nil _⟩
    rw [a.precedence]
    decide
  | paren h _ => exact outside_group rfl h.balanced rfl (.nil _)
  | @pre o e ts _ ih =>
    refine (outside_plain o.tagged_side).mpr ⟨?_, ih.mono fun k hk => ?_⟩
    · rw [o.tagged_precedence]
      decide
    · push_cast at hk ⊢
      omega
  | @bin o l r ls rs hl _ ihl ihr =>
    refine Outside.append hl.balanced ihl ((outside_plain o.side).mpr ⟨?_, ihr.mono fun k hk => ?_⟩)
    · rw [o.precedence]
    · have := o.level_pos
      push_cast [Nat.cast_sub (by omega : 1 ≤ o.level)] at hk
      omega
  | unseen _ ih =>
    refine (outside_plain (BinOp.side _)).mpr ⟨le_refl 3, ih.mono fun k hk => ?_⟩
    push_cast at hk ⊢
    omega
  | up _ ih =>
    refine ih.mono fun k hk => ?_
    push_cast
    omega

/-- A binary expression is split at its operator. -/
theorem Tagged.split_bin {o : BinOp} {l r : Ast} {ls rs : List Token} (hl : Tagged o.level l ls)
    (hr : Tagged (o.level - 1) r rs) : Split (ls ++ o.token :: rs) ls o.token rs := by
  have hlevel := o.level_pos
  refine ⟨rfl, hl.balanced, hr.balanced, o.side, ?_, ?_, ?_⟩
  · rw [o.precedence]
    omega
  · rw [o.precedence]
    exact hl.outside
  · rw [o.precedence]
    refine hr.outside.mono fun k hk => ?_
    push_cast [Nat.cast_sub (by omega : 1 ≤ o.level)] at hk
    omega

/-- A prefix operator on a primary expression is split at the operator. -/
theorem Tagged.split_pre {o : PreOp} {e : Ast} {ts : List Token} (h : Tagged 0 e ts) :
    Split (o.tagged :: ts) [] o.tagged ts := by
  refine ⟨rfl, .nil, h.balanced, o.tagged_side, ?_, .nil _, ?_⟩
  · rw [o.tagged_precedence]
  · rw [o.tagged_precedence]
    exact h.outside.mono fun k hk => by push_cast at hk; omega

/-- So is a product behind an unseen `-`. -/
theorem Tagged.split_unseen {e : Ast} {ts : List Token} (h : Tagged 2 e ts) :
    Split (BinOp.sub.token :: ts) [] BinOp.sub.token ts := by
  refine ⟨rfl, .nil, h.balanced, BinOp.side _, by decide, .nil _, ?_⟩
  exact h.outside.mono fun k hk => show k < (3 : ℤ) by push_cast at hk; omega

/-! ## Values -/

theorem applyOp_bin (m : Machine) (o : BinOp) (v w : Word) : applyOp m o.token.type v w = .ok (o.value v w) := by
  cases o
  case div =>
    show Except.ok (if w ≠ 0 then v / w else 0) = .ok (if w = 0 then 0 else BitVec.ofNat 32 (v.toNat / w.toNat))
    by_cases hw : w = 0
    · rw [if_pos hw, if_neg fun h => h hw]
    · rw [if_neg hw, if_pos hw, ← BitVec.toNat_udiv, BitVec.ofNat_toNat, BitVec.setWidth_eq]
  all_goals rfl

theorem applyOp_pre (m : Machine) (o : PreOp) (v w : Word) (h : o = .deref → InPmem w .word) :
    applyOp m o.tagged.type v w = .ok (o.value m w) := by
  cases o with
  | neg => rfl
  | deref =>
    have hin := (h rfl).first
    exact (if_pos hin).trans (paddrRead_eq .word hin)

/-- **The value of a range**, if every address that is dereferenced is in `pmem`. -/
theorem Tagged.returns {k : ℕ} {e : Ast} {ts : List Token} (h : Tagged k e ts)
    (hall : e.All fun a => a.InRange ∧ a.Known) (hs : Slice tokens p ts) (hq : p + ts.length = q + 1)
    (hp : 0 ≤ p) (hend : p + ts.length ≤ 32) (hf : ts.length ≤ frames) :
    ∃ v, Returns tokens m frames p q v ∧ (e.Defined m → v = e.value m) := by
  induction h generalizing p q frames with
  | atom a =>
    obtain ⟨n, rfl⟩ : ∃ n, frames = n + 1 := ⟨frames - 1, by simp at hf; omega⟩
    have hpq : q = p := by simp at hq; omega
    refine ⟨a.value m, fun bad => ⟨false, ?_⟩, fun _ => rfl⟩
    rw [hpq, eval_token hs.1 a.side, evalToken_atom m hall.1 hall.2]
    rfl
  | @paren e ts h ih =>
    obtain ⟨n, rfl⟩ : ∃ n, frames = n + 1 := ⟨frames - 1, by simp at hf; omega⟩
    have hlen : (lparen :: (ts ++ [rparen])).length = ts.length + 2 := by simp
    rw [hlen] at hq hend hf
    push_cast at hq hend
    have hinner : Slice tokens (p + 1) ts := (slice_append.mp hs.2).1
    obtain ⟨v, hv, hval⟩ := @ih n (p + 1) (q - 1) hall hinner (by omega) (by omega) (by omega) (by omega)
    refine ⟨v, fun bad => ?_, hval⟩
    rw [eval_enclosed rfl h.balanced rfl hs (by rw [hlen]; push_cast; omega)]
    exact hv false
  | @pre o e ts h ih =>
    obtain ⟨n, rfl⟩ : ∃ n, frames = n + 1 := ⟨frames - 1, by simp at hf; omega⟩
    have hpos := h.length_pos
    simp only [List.length_cons] at hq hend hf
    push_cast at hq hend
    obtain ⟨v, hv, hval⟩ := @ih n (p + 1) q hall hs.2 (by omega) (by omega) (by omega) (by omega)
    obtain ⟨u, hu⟩ := applyOp_ok m o.tagged.type 0 v
    obtain ⟨k, rfl⟩ : ∃ k, n = k + 1 := ⟨n - 1, by omega⟩
    have hleft : Returns tokens m (k + 1) p (p + ([] : List Token).length - 1) 0 := returns_empty (by simp)
    refine ⟨u, ?_, fun hd => ?_⟩
    · refine h.split_pre.returns hs (by simp; omega) hp (by simp; omega) (by simp; omega) hleft ?_ hu
      simpa using hv
    · cases o with
      | neg =>
        rw [applyOp_pre m .neg 0 v (fun h => by cases h)] at hu
        cases hu
        rw [hval hd]
        rfl
      | deref =>
        have hv' := hval hd.1
        rw [applyOp_pre m .deref 0 v (fun _ => hv' ▸ hd.2)] at hu
        cases hu
        rw [hv']
        rfl
  | @bin o l r ls rs hl hr ihl ihr =>
    obtain ⟨n, rfl⟩ : ∃ n, frames = n + 1 := ⟨frames - 1, by simp at hf; omega⟩
    have hposl := hl.length_pos
    have hposr := hr.length_pos
    have hslice := slice_append.mp hs
    simp only [List.length_cons, List.length_append] at hq hend hf
    push_cast at hq hend
    obtain ⟨v, hv, hvval⟩ := @ihl n p (p + ls.length - 1) hall.1 hslice.1 (by omega) (by omega) (by omega)
      (by omega)
    obtain ⟨w, hw, hwval⟩ := @ihr n (p + ls.length + 1) q hall.2 hslice.2.2 (by omega) (by omega) (by omega)
      (by omega)
    refine ⟨o.value v w, ?_, fun hd => ?_⟩
    · exact (hl.split_bin hr).returns hs (by simp; omega) hp (by simp; omega) (by simp; omega) hv hw
        (applyOp_bin m o v w)
    · rw [hvval hd.1, hwval hd.2]
      rfl
  | @unseen e ts h ih =>
    obtain ⟨n, rfl⟩ : ∃ n, frames = n + 1 := ⟨frames - 1, by simp at hf; omega⟩
    have hpos := h.length_pos
    simp only [List.length_cons] at hq hend hf
    push_cast at hq hend
    obtain ⟨v, hv, hval⟩ := @ih n (p + 1) q hall hs.2 (by omega) (by omega) (by omega) (by omega)
    obtain ⟨k, rfl⟩ : ∃ k, n = k + 1 := ⟨n - 1, by omega⟩
    have hleft : Returns tokens m (k + 1) p (p + ([] : List Token).length - 1) 0 := returns_empty (by simp)
    refine ⟨0 - v, ?_, fun hd => ?_⟩
    · refine h.split_unseen.returns hs (by simp; omega) hp (by simp; omega) (by simp; omega) hleft ?_ rfl
      simpa using hv
    · rw [hval hd]
      exact BitVec.zero_sub _
  | up _ ih => exact ih hall hs hq hp hend hf

end Nemu
