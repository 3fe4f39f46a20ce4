import Rv32i.Nemu.Sdb.Lexing

/-!
# NEMU: the bounds of `make_token`

`Lexes` is the lexical structure of a text by the rules alone: at every place the first rule that matches takes as
much as it can.  `make_token` stores the tokens that it finds in an array of 32 and their texts in arrays of 32
characters, without a look at either bound.  `makeToken_tokenises_iff`: it does what it is there for just on the
texts that fit.
-/

namespace Nemu

open Regex

/-! ## The lexical structure of a text -/

/-- The rule takes the start `u` of the text, and cannot take more. -/
def Rule.Takes (r : Rule) (e u rest : List Char) : Prop :=
  e = u ++ rest ∧ Matches r.regex u ∧ ∀ u' rest', e = u' ++ rest' → Matches r.regex u' → u'.length ≤ u.length

/-- The rule takes no start of the text. -/
def Rule.Fails (r : Rule) (e : List Char) : Prop := ∀ u rest, e = u ++ rest → ¬ Matches r.regex u

/-- The first rule that does not fail takes the token. -/
def Munch (e : List Char) (t : Token) (rest : List Char) : Prop :=
  ∃ before r after, rules = before ++ r :: after ∧ (∀ r' ∈ before, r'.Fails e) ∧ r.Takes e t.str rest ∧
    t.type = r.tokenType

/-- Token by token, spaces included, from the start of the text to where `rest` is left. -/
inductive Lexes : List Char → List Token → List Char → Prop
  | nil (e : List Char) : Lexes e [] e
  | cons {e rest rest' : List Char} {t : Token} {ts : List Token} :
    Munch e t rest → Lexes rest ts rest' → Lexes e (t :: ts) rest'

/-- No rule matches. -/
def NoRule (e : List Char) : Prop := ∀ t rest, ¬ Munch e t rest

/-- The tokens that are recorded. -/
def recorded (ts : List Token) : List Token := ts.filter fun t => t.type ≠ .notype

/-- As far as the rules go, the text has at most 32 tokens, of at most 31 characters. -/
def Fits (e : List Char) : Prop :=
  ∀ ts rest, Lexes e ts rest → (recorded ts).length ≤ 32 ∧ ∀ t ∈ recorded ts, t.str.length ≤ 31

variable {e rest rest' : List Char} {t t' : Token} {ts ts' : List Token}

theorem longest_some_iff {r : Rule} {n : ℕ} :
    longest r.regex e = some n ↔ ∃ u rest, r.Takes e u rest ∧ u.length = n := by
  have hspec := longest_spec r.regex e
  constructor
  · intro h
    rw [h] at hspec
    obtain ⟨⟨u, v, hsplit, hlen, hu⟩, hmax⟩ := hspec
    refine ⟨u, v, ⟨hsplit, hu, fun u' v' h' hu' => ?_⟩, hlen⟩
    rw [hlen]
    exact hmax u' v' h' hu'
  · rintro ⟨u, v, ⟨hsplit, hu, hmax⟩, rfl⟩
    cases hl : longest r.regex e with
    | none =>
      rw [hl] at hspec
      exact absurd hu (hspec u v hsplit)
    | some n =>
      rw [hl] at hspec
      obtain ⟨⟨u', v', hsplit', hlen', hu'⟩, hmax'⟩ := hspec
      have hle := hmax u' v' hsplit' hu'
      have hge := hmax' u v hsplit hu
      congr 1
      omega

theorem longest_none_iff {r : Rule} : longest r.regex e = none ↔ r.Fails e := by
  have hspec := longest_spec r.regex e
  constructor
  · intro h
    rw [h] at hspec
    exact hspec
  · intro h
    cases hl : longest r.regex e with
    | none => rfl
    | some n =>
      rw [hl] at hspec
      obtain ⟨⟨u, v, hsplit, -, hu⟩, -⟩ := hspec
      exact absurd hu (h u v hsplit)

/-- The first rule of the source takes what the structure says. -/
theorem munch_iff : Munch e t rest ↔ firstRule e = some (t.type, t.str.length) ∧ e = t.str ++ rest := by
  rw [firstRule_eq, List.findSome?_eq_some_iff]
  constructor
  · rintro ⟨before, r, after, hrules, hbefore, htakes, htype⟩
    have hlen := longest_some_iff.mpr ⟨_, _, htakes, rfl⟩
    refine ⟨⟨before, r, after, hrules, by rw [hlen, htype]; rfl, fun r' hr' => ?_⟩, htakes.1⟩
    rw [longest_none_iff.mpr (hbefore r' hr')]
    rfl
  · rintro ⟨⟨before, r, after, hrules, hr, hbefore⟩, hsplit⟩
    obtain ⟨n, hn, heq⟩ := Option.map_eq_some_iff.mp hr
    obtain ⟨htype, hlen⟩ := Prod.mk.inj heq
    obtain ⟨u, v, htakes, hu⟩ := longest_some_iff.mp hn
    have hsame : u = t.str := List.append_inj_left (htakes.1.symm.trans hsplit) (hu.trans hlen)
    have hrest : v = rest := List.append_inj_right (htakes.1.symm.trans hsplit) (hu.trans hlen)
    subst hsame hrest
    refine ⟨before, r, after, hrules, fun r' hr' => ?_, htakes, htype.symm⟩
    exact longest_none_iff.mp (Option.map_eq_none_iff.mp (hbefore r' hr'))

theorem Munch.nonempty (h : Munch e t rest) : t.str ≠ [] := by
  obtain ⟨hrule, -⟩ := munch_iff.mp h
  have := (firstRule_bounds hrule).1
  rintro hnil
  rw [hnil] at this
  cases this

/-- There is one way to go on. -/
theorem Munch.unique (h : Munch e t rest) (h' : Munch e t' rest') : t = t' ∧ rest = rest' := by
  obtain ⟨hrule, hsplit⟩ := munch_iff.mp h
  obtain ⟨hrule', hsplit'⟩ := munch_iff.mp h'
  obtain ⟨htype, hlen⟩ := Prod.mk.inj (Option.some.inj (hrule.symm.trans hrule'))
  have hstr := List.append_inj_left (hsplit.symm.trans hsplit') hlen
  have hrest := List.append_inj_right (hsplit.symm.trans hsplit') hlen
  obtain ⟨type, str⟩ := t
  obtain ⟨type', str'⟩ := t'
  obtain rfl : type = type' := htype
  obtain rfl : str = str' := hstr
  exact ⟨rfl, hrest⟩

theorem noRule_iff : NoRule e ↔ firstRule e = none := by
  constructor
  · intro h
    cases hr : firstRule e with
    | none => rfl
    | some p =>
      obtain ⟨type, len⟩ := p
      have hbounds := firstRule_bounds hr
      refine absurd (munch_iff.mpr ⟨?_, (List.take_append_drop len e).symm⟩) (h ⟨type, e.take len⟩ (e.drop len))
      rw [hr, List.length_take_of_le hbounds.2]
  · intro h t rest hm
    rw [(munch_iff.mp hm).1] at h
    cases h

theorem noRule_nil : NoRule [] := by
  intro t rest h
  have hsplit := (munch_iff.mp h).2
  exact h.nonempty (List.append_eq_nil_iff.mp hsplit.symm).1

/-! ## Runs along the structure -/

/-- The texts of the tokens and what is left make up the text. -/
theorem Lexes.flatten (h : Lexes e ts rest) : (ts.map Token.str).flatten ++ rest = e := by
  induction h with
  | nil => rfl
  | cons hm _ ih =>
    rw [List.map_cons, List.flatten_cons, List.append_assoc, ih]
    exact (munch_iff.mp hm).2.symm

/-- What is skipped are spaces. -/
theorem Lexes.skipped (h : Lexes e ts rest) : ∀ t ∈ ts, t.type = .notype → ∀ c ∈ t.str, c = ' ' := by
  have hrule : ∀ r ∈ rules, r.tokenType = .notype → r.regex = [Regex.plus fun c => c = ' '] := by
    intro r hr
    simp only [rules, List.mem_cons, List.not_mem_nil, or_false] at hr
    rcases hr with rfl | rfl | rfl | rfl | rfl | rfl | rfl | rfl | rfl | rfl | rfl | rfl | rfl <;> simp
  have hspaces : ∀ u : List Char, Matches [Regex.plus fun c => decide (c = ' ')] u → ∀ c ∈ u, c = ' ' := by
    intro u
    induction u with
    | nil => intro _ c hc; cases hc
    | cons d u ih =>
      intro hu c hc
      obtain ⟨hd, hu⟩ := matches_cons_iff.mp hu
      have hd : d = ' ' := of_decide_eq_true hd
      rcases List.mem_cons.mp hc with rfl | hc
      · exact hd
      · rcases hu with hu | ⟨-, hu⟩
        · rw [(matches_nil_iff u).mp hu] at hc
          cases hc
        · exact ih hu c hc
  induction h with
  | nil => intro t ht; cases ht
  | cons hm _ ih =>
    intro t ht htype
    rcases List.mem_cons.mp ht with rfl | ht
    · obtain ⟨before, r, after, hrules, -, ⟨-, hmatch, -⟩, hr⟩ := hm
      have hmem : r ∈ rules := by rw [hrules]; simp
      rw [hrule r hmem (hr.symm.trans htype)] at hmatch
      exact hspaces _ hmatch
    · exact ih t ht htype

/-- Every text has a structure up to where no rule matches. -/
theorem exists_lexes (e : List Char) : ∃ ts rest, Lexes e ts rest ∧ NoRule rest := by
  obtain ⟨n, hn⟩ : ∃ n, e.length ≤ n := ⟨_, le_rfl⟩
  induction n generalizing e with
  | zero =>
    rw [List.length_eq_zero_iff.mp (Nat.le_zero.mp hn)]
    exact ⟨[], [], .nil [], noRule_nil⟩
  | succ n ih =>
    by_cases hstop : NoRule e
    · exact ⟨[], e, .nil e, hstop⟩
    · obtain ⟨t, rest, hm⟩ : ∃ t rest, Munch e t rest := by
        by_contra hnone
        exact hstop fun t rest hm => hnone ⟨t, rest, hm⟩
      have hlen := congrArg List.length (munch_iff.mp hm).2
      have hpos := List.length_pos_iff.mpr hm.nonempty
      rw [List.length_append] at hlen
      obtain ⟨ts, rest', hlex, hno⟩ := ih rest (by omega)
      exact ⟨t :: ts, rest', .cons hm hlex, hno⟩

/-- Up to there every other run along the structure goes. -/
theorem Lexes.reaches (h : Lexes e ts rest) (hno : NoRule rest) (h' : Lexes e ts' rest') : ts' <+: ts := by
  induction h generalizing ts' with
  | nil e =>
    cases h' with
    | nil => exact List.nil_prefix
    | cons hm _ => exact absurd hm (hno _ _)
  | cons hm _ ih =>
    cases h' with
    | nil => exact List.nil_prefix
    | cons hm' hlex' =>
      obtain ⟨rfl, rfl⟩ := hm.unique hm'
      exact List.cons_prefix_cons.mpr ⟨rfl, ih hno hlex'⟩

theorem recorded_cons (t : Token) (ts : List Token) :
    recorded (t :: ts) = if t.type = .notype then recorded ts else t :: recorded ts := by
  unfold recorded
  by_cases ht : t.type = .notype
  · rw [if_pos ht, List.filter_cons_of_neg (by simpa using ht)]
  · rw [if_neg ht, List.filter_cons_of_pos (by simpa using ht)]

/-- **What `make_token` finds is the structure of the text.** -/
theorem Lexes.lexemes (h : Lexes e ts rest) (hno : NoRule rest) {n : ℕ} (hn : e.length ≤ n) :
    lexemes n e = (recorded ts, decide (rest = [])) := by
  induction h generalizing n with
  | nil e =>
    cases e with
    | nil => cases n <;> rfl
    | cons c e =>
      obtain ⟨n, rfl⟩ : ∃ i, n = i + 1 := ⟨n - 1, by simp at hn; omega⟩
      unfold Nemu.lexemes
      rw [noRule_iff.mp hno]
      rfl
  | @cons e rest rest' t ts hm _ ih =>
    obtain ⟨hrule, hsplit⟩ := munch_iff.mp hm
    obtain ⟨c, str, hstr⟩ := List.exists_cons_of_ne_nil hm.nonempty
    have hlen := congrArg List.length hsplit
    rw [List.length_append, hstr, List.length_cons] at hlen
    obtain ⟨n, rfl⟩ : ∃ i, n = i + 1 := ⟨n - 1, by omega⟩
    have hrest := ih hno (n := n) (by omega)
    have hdrop : e.drop t.str.length = rest := by rw [hsplit, List.drop_left]
    have htake : e.take t.str.length = t.str := by rw [hsplit, List.take_left]
    obtain ⟨c', e', rfl⟩ : ∃ c' e', e = c' :: e' := ⟨c, str ++ rest, by rw [hsplit, hstr]; rfl⟩
    rw [recorded_cons]
    unfold Nemu.lexemes
    rw [hrule]
    simp only [hdrop, htake, hrest]
    by_cases ht : t.type = .notype
    · rw [if_pos ht, if_pos ht]
    · rw [if_neg ht, if_neg ht]

theorem fits_iff : Fits e ↔ InLimits e := by
  obtain ⟨ts, rest, hlex, hno⟩ := exists_lexes e
  unfold InLimits
  rw [hlex.lexemes hno le_rfl]
  constructor
  · intro h
    exact h ts rest hlex
  · rintro ⟨hcount, hstr⟩ ts' rest' hlex'
    obtain ⟨more, rfl⟩ := hlex.reaches hno hlex'
    have happend : recorded (ts' ++ more) = recorded ts' ++ recorded more := List.filter_append ..
    rw [happend] at hcount hstr
    rw [List.length_append] at hcount
    exact ⟨by omega, fun t ht => hstr t (List.mem_append_left _ ht)⟩

/-! ## The two bounds -/

/-- A run of `make_token` that returns has stored nothing outside the arrays. -/
theorem makeTokenLoop_limits {n : ℕ} {d : ExprState} {r : Bool × ExprState} (hn : e.length ≤ n)
    (hd : d.nrToken ≤ 32) (h : makeTokenLoop n e d = .ok r) :
    d.nrToken + (lexemes n e).1.length ≤ 32 ∧ ∀ t ∈ (lexemes n e).1, t.str.length ≤ 31 := by
  induction n generalizing e d with
  | zero =>
    rw [List.length_eq_zero_iff.mp (Nat.le_zero.mp hn)]
    exact ⟨hd, fun t ht => by cases ht⟩
  | succ n ih =>
    cases e with
    | nil => exact ⟨hd, fun t ht => by cases ht⟩
    | cons c e =>
      unfold makeTokenLoop at h
      unfold lexemes
      cases hr : firstRule (c :: e) with
      | none => exact ⟨hd, fun t ht => by cases ht⟩
      | some m =>
        obtain ⟨type, len⟩ := m
        rw [hr] at h
        have hbounds := firstRule_bounds hr
        have hrest : ((c :: e).drop len).length ≤ n := by
          rw [List.length_drop]
          omega
        by_cases ht : type = .notype
        · simp only [ht, if_true] at h ⊢
          exact ih hrest hd h
        · simp only [ht, if_false] at h ⊢
          split at h
          · cases h
          · obtain ⟨hcount, hstr⟩ := ih hrest (by simp only []; omega) h
            simp only [] at hcount
            refine ⟨by rw [List.length_cons]; omega, fun t hmem => ?_⟩
            rcases List.mem_cons.mp hmem with rfl | hmem
            · rw [List.length_take_of_le hbounds.2]
              omega
            · exact hstr t hmem

theorem store_nrToken (d : ExprState) (ts : List Token) : (d.store ts).nrToken = d.nrToken + ts.length := by
  induction ts generalizing d with
  | nil => rfl
  | cons t ts ih =>
    show (ExprState.store _ ts).nrToken = _
    rw [ih, List.length_cons]
    simp only []
    omega

/-- Behind the stored tokens the array is as it was. -/
theorem store_tokens_of_ge (d : ExprState) (ts : List Token) {j : ℤ} (hj : d.nrToken + ts.length ≤ j) :
    (d.store ts).tokens j = d.tokens j := by
  induction ts generalizing d with
  | nil => rfl
  | cons t ts ih =>
    rw [List.length_cons] at hj
    push_cast at hj
    show (ExprState.store _ ts).tokens j = _
    rw [ih _ (by push_cast; omega)]
    exact Function.update_of_ne (by omega) _ _

/-- `make_token` returns.  The array holds the recorded tokens from its start on and is as it was behind them, with
at most 32 tokens of at most 31 characters.  Together with the spaces that are skipped their texts are the text, if
the result is true; else no rule matches at what is left. -/
def Tokenises (e : List Char) (d : ExprState) : Prop :=
  ∃ ok d' ts rest, makeToken e d = .ok (ok, d') ∧ Slice d'.tokens 0 (recorded ts) ∧
    (∀ i : ℤ, i < 0 ∨ (recorded ts).length ≤ i → d'.tokens i = d.tokens i) ∧
    d'.nrToken = (recorded ts).length ∧ (recorded ts).length ≤ 32 ∧ (∀ t ∈ recorded ts, t.str.length < 32) ∧
    (∀ t ∈ ts, t.type = .notype → ∀ c ∈ t.str, c = ' ') ∧ (ts.map Token.str).flatten ++ rest = e ∧
    (ok = true → rest = []) ∧ (ok = false → rest ≠ [] ∧ NoRule rest)

theorem Tokenises.fits {d : ExprState} (h : Tokenises e d) : Fits e := by
  obtain ⟨ok, d', ts, rest, hmake, -⟩ := h
  rw [fits_iff]
  have hlimits := makeTokenLoop_limits le_rfl (Nat.zero_le _) hmake
  simp only [Nat.zero_add] at hlimits
  exact hlimits

/-- **`make_token` does its work just on the texts that fit.** -/
theorem makeToken_tokenises_iff (e : List Char) (d : ExprState) : Tokenises e d ↔ Fits e := by
  refine ⟨Tokenises.fits, fun hfits => ?_⟩
  have hlim := fits_iff.mp hfits
  obtain ⟨ts, rest, hlex, hno⟩ := exists_lexes e
  have hmake := makeToken_eq hlim d
  rw [hlex.lexemes hno le_rfl] at hmake
  obtain ⟨hcount, hstr⟩ := hfits ts rest hlex
  refine ⟨_, _, ts, rest, hmake, store_slice _ _, fun i hi => ?_, ?_, hcount,
    fun t ht => Nat.lt_succ_of_le (hstr t ht), hlex.skipped, hlex.flatten, fun hok => of_decide_eq_true hok,
    fun hok => ⟨of_decide_eq_false hok, hno⟩⟩
  · rcases hi with hi | hi
    · exact store_tokens_of_lt _ _ hi
    · exact store_tokens_of_ge _ _ (by push_cast; omega)
  · rw [store_nrToken]
    exact Nat.zero_add _

/-- 33 signs: the last token is stored behind the array. -/
theorem makeToken_overruns :
    makeToken (List.replicate 33 '+') .init = .error .overrun ∧ ¬ Tokenises (List.replicate 33 '+') .init := by
  have hmake : makeToken (List.replicate 33 '+') .init = .error .overrun := rfl
  refine ⟨hmake, ?_⟩
  rintro ⟨ok, d', ts, rest, h, -⟩
  rw [hmake] at h
  cases h

end Nemu
