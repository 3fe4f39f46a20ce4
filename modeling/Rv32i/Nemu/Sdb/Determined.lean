import Rv32i.Nemu.Sdb.Answer
import Rv32i.Nemu.Sdb.Watchpoint

/-!
# What the value of an expression depends on

How `expr` runs — whether it returns, and with which `success` — depends on the string alone, and the value it
returns on the string and the machine; the tokens and flags of earlier calls are never seen.

* `eval_agree` — two arrays with the same tokens, two machines: `eval` returns on both or on neither;
* `Accepts`, `Values` — `expr` succeeds on a string; the value it then has on a machine;
* `Accepts.values` — a string accepted once has a value on every machine, from every state of `expr.c`.
-/

namespace Nemu

open Rv32 Bracket

variable {tokens tokens' : ℤ → Token} {m m' : Machine} {frames : ℕ} {p q : ℤ}

/-! ## The main operator -/

/-- On a balanced range `get_main_op` returns, with an index that the tokens of the range determine: the one of
an operator, or 0. -/
theorem getMainOp_agree {xs : List Token} (hb : Balanced Token.side xs) (hq : p + xs.length = q + 1) (hp : 0 ≤ p)
    (hend : p + xs.length ≤ 32) :
    ∃ op, (op = 0 ∨ p ≤ op ∧ op ≤ q) ∧
      ∀ tokens, Slice tokens p xs → ∀ bad, ∃ bad', getMainOp tokens p q bad = .ok (op, bad') := by
  rcases exists_split hb with hout | ⟨l, op, r, hs⟩
  · refine ⟨0, .inl rfl, fun tokens h bad => ?_⟩
    have hlen : xs.length ≤ (q - p + 1).toNat := by omega
    obtain ⟨bad', hloop⟩ := mainOpLoop_eq hb h hq hp hend hlen [] bad
    refine ⟨bad', ?_⟩
    unfold getMainOp
    rw [hloop, operators_of_outside hout]
    rfl
  · have hlen := congrArg List.length hs.eq
    rw [List.length_append, List.length_cons] at hlen
    exact ⟨p + l.length, .inr (by omega), fun tokens h bad => getMainOp_eq hs h hq hp hend bad⟩

/-! ## Evaluation -/

/-- What an expression can read is the same: registers, pc and memory. -/
def SameGuest (m m' : Machine) : Prop := m.cpu = m'.cpu ∧ m.pmem = m'.pmem

/-- A single token has a value on both machines or on neither. -/
theorem evalToken_agree {t : Token} {v : Word} (h : evalToken m t = .ok v) :
    ∃ v', evalToken m' t = .ok v' ∧ (SameGuest m m' → v = v') := by
  unfold evalToken at h ⊢
  cases ht : t.type <;> simp only [ht] at h ⊢ <;> cases h <;> refine ⟨_, rfl, fun hsame => ?_⟩
  case dec | hex => rfl
  case reg => rw [hsame.1]

theorem applyOp_same (h : SameGuest m m') (t : TokenType) (v w : Word) : applyOp m t v w = applyOp m' t v w := by
  unfold applyOp
  rw [h.2]

/-- The tokens of a range. -/
theorem exists_slice {ts : List Token} (hp : 0 ≤ p) (hpq : p ≤ q) (hq : q < ts.length) :
    ∃ xs, xs ≠ [] ∧ q = p + xs.length - 1 ∧ ∀ tokens, Slice tokens 0 ts → Slice tokens p xs := by
  refine ⟨(ts.drop p.toNat).take (q - p + 1).toNat, ?_, ?_, fun tokens h => ?_⟩
  · intro hnil
    have := congrArg List.length hnil
    simp at this
    omega
  · simp
    omega
  · rw [← List.take_append_drop p.toNat ts, slice_append] at h
    obtain ⟨-, h⟩ := h
    rw [← List.take_append_drop (q - p + 1).toNat (ts.drop p.toNat), slice_append] at h
    have hlen : (0 : ℤ) + (ts.take p.toNat).length = p := by
      simp
      omega
    rw [hlen] at h
    exact h.1

theorem slice_at {ts : List Token} (h : Slice tokens 0 ts) (h' : Slice tokens' 0 ts) (hp : 0 ≤ p)
    (hlt : p < ts.length) : tokens p = tokens' p := by
  obtain ⟨xs, hne, -, hslice⟩ := exists_slice hp (le_refl p) hlt
  have h1 := hslice tokens h
  have h2 := hslice tokens' h'
  cases xs with
  | nil => exact absurd rfl hne
  | cons x xs => exact h1.1.trans h2.1.symm

/-- **`eval` runs by the tokens alone**: if it returns on one array and machine, it returns on every array with the
same tokens and every machine, whatever `is_bad_expression` was; on the same guest, with the same value. -/
theorem eval_agree {ts : List Token} (hlen : ts.length ≤ 32) (h : Slice tokens 0 ts) (h' : Slice tokens' 0 ts)
    (frames : ℕ) {p q : ℤ} (hp : 0 ≤ p) (hq : q < ts.length) {bad : Bool} {r : Word × Bool}
    (hok : eval tokens m frames p q bad = .ok r) (bad' : Bool) :
    ∃ r', eval tokens' m' frames p q bad' = .ok r' ∧ (SameGuest m m' → r.1 = r'.1) := by
  induction frames generalizing p q bad bad' r with
  | zero => cases hok
  | succ frames ih =>
    by_cases hpq : p > q
    · -- an empty range
      obtain ⟨b, heq⟩ := @returns_empty tokens m frames p q hpq bad
      obtain ⟨b', heq'⟩ := @returns_empty tokens' m' frames p q hpq bad'
      rw [heq] at hok
      cases hok
      exact ⟨_, heq', fun _ => rfl⟩
    obtain ⟨xs, hne, hxs, hslice⟩ := exists_slice hp (by omega) hq
    by_cases hb : Balanced Token.side xs
    · have hcheck := checkParentheses_balanced (hslice tokens h) hxs hne hb
      have hcheck' := checkParentheses_balanced (hslice tokens' h') hxs hne hb
      unfold eval at hok ⊢
      simp only [hcheck, hcheck', Bool.false_eq_true, and_false, if_false, hpq] at hok ⊢
      by_cases heq : p = q
      · -- a single token
        simp only [heq, if_true] at hok ⊢
        obtain ⟨v, hv, hr⟩ := bind_ok hok
        cases hr
        rw [← heq, slice_at h h' hp (by omega)] at hv
        obtain ⟨v', hv', hsame⟩ := @evalToken_agree m m' _ _ hv
        rw [heq] at hv'
        rw [hv']
        exact ⟨_, rfl, hsame⟩
      · simp only [heq, if_false] at hok ⊢
        by_cases hheld : held Token.side 0 xs = true
        · -- in parentheses
          simp only [hheld, if_true] at hok ⊢
          exact ih (by omega) (by omega) hok false
        · -- at the main operator
          simp only [hheld] at hok ⊢
          obtain ⟨op, hop, hmain⟩ := getMainOp_agree hb (p := p) (q := q) (by omega) hp (by omega)
          obtain ⟨b1, h1⟩ := hmain tokens (hslice tokens h) false
          obtain ⟨b1', h1'⟩ := hmain tokens' (hslice tokens' h') false
          have hop0 : 0 ≤ op ∧ op < ts.length := by omega
          have htok : tokens op = tokens' op := slice_at h h' hop0.1 hop0.2
          obtain ⟨r1, hr1, hok⟩ := bind_ok hok
          rw [h1] at hr1
          cases hr1
          obtain ⟨r2, hr2, hok⟩ := bind_ok hok
          obtain ⟨r3, hr3, hok⟩ := bind_ok hok
          obtain ⟨u, hu, hok⟩ := bind_ok hok
          cases hok
          obtain ⟨r2', hr2', hs2⟩ := ih hp (by omega) hr2 b1'
          obtain ⟨r3', hr3', hs3⟩ := ih (by omega) hq hr3 r2'.2
          obtain ⟨u', hu'⟩ := applyOp_ok m' (tokens' op).type r2'.1 r3'.1
          refine ⟨(u', r3'.2), ?_, ?_⟩
          · simp only [bind, Except.bind, h1', hr2', hr3', hu']
            rfl
          · intro hsame
            rw [htok, hs2 hsame, hs3 hsame, applyOp_same hsame, hu'] at hu
            cases hu
            rfl
    · -- unbalanced parentheses
      have hcheck := checkParentheses_unbalanced (hslice tokens h) hxs hne hb
      have hcheck' := checkParentheses_unbalanced (hslice tokens' h') hxs hne hb
      unfold eval at hok ⊢
      simp only [hcheck, hcheck', and_self, if_true] at hok ⊢
      cases hok
      exact ⟨_, rfl, fun _ => rfl⟩

/-! ## Strings -/

theorem map_ok {α β : Type} {x : Exec α} {f : α → β} {b : β} (h : x.map f = .ok b) : ∃ a, x = .ok a ∧ f a = b := by
  cases x with
  | error e => cases h
  | ok a => exact ⟨a, rfl, Except.ok.inj h⟩

/-- A text of at most 31 characters cannot overrun the arrays of the tokens. -/
theorem lexemes_short (n : ℕ) (e : List Char) :
    (lexemes n e).1.length ≤ n ∧ ∀ t ∈ (lexemes n e).1, t.str.length ≤ e.length := by
  induction n generalizing e with
  | zero => cases e <;> simp [lexemes]
  | succ n ih =>
    cases e with
    | nil => simp [lexemes]
    | cons c e =>
      unfold lexemes
      cases hr : firstRule (c :: e) with
      | none => simp
      | some r =>
        obtain ⟨h1, h2⟩ := ih ((c :: e).drop r.2)
        have hdrop : ((c :: e).drop r.2).length ≤ (c :: e).length := by simp
        simp only
        split
        · exact ⟨by omega, fun t ht => (h2 t ht).trans hdrop⟩
        · refine ⟨by simpa using h1, fun t ht => ?_⟩
          rcases List.mem_cons.mp ht with rfl | ht
          · simp
          · exact (h2 t ht).trans hdrop

theorem inLimits_of_short {e : List Char} (h : e.length ≤ 31) : InLimits e := by
  obtain ⟨h1, h2⟩ := lexemes_short e.length e
  exact ⟨h1.trans (by omega), fun t ht => (h2 t ht).trans h⟩

/-- `expr` returns with `success`, at least once. -/
def Accepts (frames : ℕ) (e : List Char) : Prop :=
  ∃ m d v d', expr frames m e d = .ok (v, true, d')

/-- `expr` returns with `success` and the value, from any state of the static variables. -/
def Values (frames : ℕ) (m : Machine) (e : List Char) (v : Word) : Prop :=
  ∀ d, ∃ d', expr frames m e d = .ok (v, true, d')

theorem Values.unique {e : List Char} {v v' : Word} (h : Values frames m e v) (h' : Values frames m e v') :
    v = v' := by
  obtain ⟨d1, h1⟩ := h .init
  obtain ⟨d2, h2⟩ := h' .init
  rw [h1] at h2
  cases h2
  rfl

theorem Values.accepts {e : List Char} {v : Word} (h : Values frames m e v) : Accepts frames e := by
  obtain ⟨d', heq⟩ := h .init
  exact ⟨m, _, v, d', heq⟩

/-- What a call that succeeds says about every other call on the string. -/
theorem expr_agree {e : List Char} (hlen : e.length ≤ 31) {d d' : ExprState} {v : Word}
    (hok : expr frames m e d = .ok (v, true, d')) (m' : Machine) (d1 : ExprState) :
    ∃ v' d1', expr frames m' e d1 = .ok (v', true, d1') ∧ (SameGuest m m' → v = v') := by
  have hlim := inLimits_of_short hlen
  cases hlex : lexemes e.length e with
  | mk toks reached =>
    cases reached with
    | false =>
      obtain ⟨d2, hno⟩ := expr_no_tokens hlim (by rw [hlex]) frames m d
      rw [hno] at hok
      cases hok
    | true =>
      obtain ⟨tokens, f, hslice, heq⟩ := expr_tokens hlim hlex d
      obtain ⟨tokens', f', hslice', heq'⟩ := expr_tokens hlim hlex d1
      have hshort : (retag .lparen toks).length ≤ 32 := by
        have := hlim.1
        rw [hlex] at this
        rwa [retag_length]
      have hrange : ((toks.length : ℤ) - 1) < (retag .lparen toks).length := by
        rw [retag_length]
        omega
      rw [heq] at hok
      obtain ⟨r, hr, hv⟩ := map_ok hok
      cases hv
      obtain ⟨r', hr', hsame⟩ := eval_agree hshort hslice hslice' frames (le_refl 0) hrange hr d1.isBadExpression
      refine ⟨r'.1, f' r'.2, ?_, hsame⟩
      rw [heq', hr']
      rfl

/-- A call that succeeds gives the value of the string on its machine, and on every machine with the same guest. -/
theorem values_of_expr {e : List Char} (hlen : e.length ≤ 31) {d d' : ExprState} {v : Word}
    (hok : expr frames m e d = .ok (v, true, d')) (hsame : SameGuest m m') : Values frames m' e v := by
  intro d1
  obtain ⟨v', d1', h', heq⟩ := expr_agree hlen hok m' d1
  rw [heq hsame]
  exact ⟨d1', h'⟩

theorem Values.same {e : List Char} (hlen : e.length ≤ 31) {v : Word} (h : Values frames m e v)
    (hsame : SameGuest m m') : Values frames m' e v := by
  obtain ⟨d', hok⟩ := h .init
  exact values_of_expr hlen hok hsame

/-- **A string accepted once is accepted always**, with a value that the machine determines. -/
theorem Accepts.values {e : List Char} (hlen : e.length ≤ 31) (h : Accepts frames e) (m : Machine) :
    ∃ v, Values frames m e v := by
  obtain ⟨m0, d0, v0, d0', h0⟩ := h
  obtain ⟨v, d1, h1, -⟩ := expr_agree hlen h0 m .init
  exact ⟨v, values_of_expr hlen h1 ⟨rfl, rfl⟩⟩

end Nemu
