import Rv32i.Nemu.Sdb.Item

/-!
# The evaluation of a list of items

`eval` on a range of the array that is a list of items: how a call ends for each shape of the list.

* `Only`, `Seq` — in which ways a call ends, and one call after another;
* `Node` — a range of the array as a list of items; `Node.induction` follows `eval` down to single items and rows;
* `Node.seq_split`, `Node.seq_row` — the calls that `eval` makes at a main operator, and where there is none;
* `Node.lost`, `Node.halting_of_unclosed`, `Node.safe_of_unclosed` — operators that come to stand alone, and ranges
  that are never evaluated from index 1 on.
-/

namespace Nemu

open Rv32 Bracket

variable {tokens : ℤ → Token} {m : Machine} {p q : ℤ}

/-! ## Outcomes -/

/-- What a call faults with, if it does. -/
def fault {α : Type} : Exec α → Option Fault
  | .ok _ => none
  | .error f => some f

/-- Whatever the flag is, the call ends in one of the given ways. -/
def Only (R : Set (Option Fault)) (x : Bool → Exec (Word × Bool)) : Prop := ∀ bad, fault (x bad) ∈ R

/-- Two calls, one after the other, and an operation on what they return. -/
def Seq (x a b : Bool → Exec (Word × Bool)) : Prop :=
  ∀ bad, ∃ (bad' : Bool) (op : Word → Word → Exec Word), (∀ v w, ∃ u, op v w = .ok u) ∧ x bad = do
    let (val1, bad) ← a bad'
    let (val2, bad) ← b bad
    let val ← op val1 val2
    return (val, bad)

section Outcomes

variable {R R' : Set (Option Fault)} {x a b : Bool → Exec (Word × Bool)}

theorem Only.mono (h : Only R x) (hR : R ⊆ R') : Only R' x := fun bad => hR (h bad)

theorem Seq.only (h : Seq x a b) (ha : Only (insert none R) a) (hb : Only R b) : Only R x := by
  intro bad
  obtain ⟨bad', op, hop, heq⟩ := h bad
  have h1 := ha bad'
  rw [heq]
  cases hcall : a bad' with
  | error f =>
    rw [hcall] at h1
    exact h1.resolve_left nofun
  | ok v =>
    have h2 := hb v.2
    show fault (do let (val2, bad) ← b v.2; let val ← op v.1 val2; return (val, bad)) ∈ R
    cases hcall2 : b v.2 with
    | error f =>
      rw [hcall2] at h2
      exact h2
    | ok w =>
      rw [hcall2] at h2
      obtain ⟨u, hu⟩ := hop v.1 w.1
      show fault (do let val ← op v.1 w.1; return (val, w.2)) ∈ R
      rw [hu]
      exact h2

/-- If the first call does not return, the second is not made. -/
theorem Seq.only_left (h : Seq x a b) (ha : Only R a) (hR : none ∉ R) : Only R x := by
  intro bad
  obtain ⟨bad', op, hop, heq⟩ := h bad
  have h1 := ha bad'
  rw [heq]
  cases hcall : a bad' with
  | error f =>
    rw [hcall] at h1
    exact h1
  | ok v =>
    rw [hcall] at h1
    exact absurd h1 hR

end Outcomes

/-! ## Ranges as items -/

/-- The array holds the items from `p` to `q`, and no token that is not one. -/
def Node (tokens : ℤ → Token) (p q : ℤ) (xs : List Item) : Prop :=
  ∃ ts, Parses xs ts ∧ Slice tokens p ts ∧ p + ts.length = q + 1 ∧ 0 ≤ p ∧ q < 32 ∧
    ∀ t ∈ ts, t.type ≠ .unset ∧ t.type ≠ .notype

theorem Node.append {k : ℤ} {xs ys : List Item} (h : Node tokens p (k - 1) xs) (h' : Node tokens k q ys) :
    Node tokens p q (xs ++ ys) := by
  obtain ⟨ts, hts, hslice, hlen, hp, -, htype⟩ := h
  obtain ⟨us, hus, hslice', hlen', -, hq, htype'⟩ := h'
  refine ⟨ts ++ us, hts.append hus, slice_append.mpr ⟨hslice, ?_⟩, ?_, hp, hq, fun t ht => ?_⟩
  · rwa [hlen, Int.sub_add_cancel]
  · rw [List.length_append]
    push_cast
    omega
  · exact (List.mem_append.mp ht).elim (htype t) (htype' t)

theorem Node.split {xs ys : List Item} (h : Node tokens p q (xs ++ ys)) :
    ∃ k, Node tokens p (k - 1) xs ∧ Node tokens k q ys := by
  obtain ⟨ts, hts, hslice, hlen, hp, hq, htype⟩ := h
  obtain ⟨us, vs, rfl, hus, hvs⟩ := hts.split
  rw [List.length_append] at hlen
  push_cast at hlen
  obtain ⟨hleft, hright⟩ := slice_append.mp hslice
  refine ⟨p + us.length, ⟨us, hus, hleft, by omega, hp, by omega, fun t ht => ?_⟩,
    ⟨vs, hvs, hright, by omega, by omega, hq, fun t ht => ?_⟩⟩
  · exact htype t (List.mem_append_left vs ht)
  · exact htype t (List.mem_append_right us ht)

theorem Node.bounds {xs : List Item} (h : Node tokens p q xs) : 0 ≤ p ∧ p + xs.length ≤ q + 1 ∧ q < 32 := by
  obtain ⟨ts, hts, -, hlen, hp, hq, -⟩ := h
  have := hts.length_le
  exact ⟨hp, by omega, hq⟩

theorem Node.nil_eq (h : Node tokens p q []) : q = p - 1 := by
  obtain ⟨ts, hts, -, hlen, -⟩ := h
  cases hts
  simp at hlen
  omega

theorem Node.token {t : Token} (h : Node tokens p q [.token t]) :
    q = p ∧ tokens p = t ∧ t.side = .plain ∧ t.type ≠ .unset ∧ t.type ≠ .notype := by
  obtain ⟨ts, hts, hslice, hlen, -, -, htype⟩ := h
  cases hts with
  | token ht hnil =>
    cases hnil
    simp at hlen
    exact ⟨by omega, hslice.1, ht, htype t List.mem_cons_self⟩

theorem Node.group {b : List Item} (h : Node tokens p q [.group b]) :
    Node tokens (p + 1) (q - 1) b ∧ ∃ (l r : Token) (body : List Token), l.side = .opening ∧ r.side = .closing ∧
      Balanced Token.side body ∧ Slice tokens p (l :: (body ++ [r])) ∧ p + body.length + 1 = q := by
  obtain ⟨ts, hts, hslice, hlen, hp, hq, htype⟩ := h
  cases hts with
  | @group l _ body r _ _ hl hb hr hnil =>
    cases hnil
    simp at hlen
    refine ⟨⟨body, hb, (slice_append.mp hslice.2).1, by omega, by omega, by omega, fun t ht => ?_⟩,
      l, r, body, hl, hr, hb.balanced, hslice, by omega⟩
    exact htype t (List.mem_cons_of_mem l (List.mem_append_left _ ht))

theorem Node.split_op {l r : List Item} {op : Item} (hop : 1 ≤ op.precedence) (h : Node tokens p q (l ++ op :: r)) :
    ∃ k, Node tokens p (k - 1) l ∧ Node tokens k k [op] ∧ Node tokens (k + 1) q r := by
  obtain ⟨k, hl, hrest⟩ := h.split
  obtain ⟨e, hone, hr⟩ := @Node.split tokens k q [op] r hrest
  cases op with
  | group b => exact absurd hop (by simp [Item.precedence])
  | token t =>
    have hk := hone.token.1
    rw [hk] at hone
    obtain rfl : e = k + 1 := by omega
    exact ⟨k, hl, hone, hr⟩

theorem Node.tail {x : Token} {xs : List Item} (h : Node tokens p q (.token x :: xs)) : Node tokens (p + 1) q xs := by
  obtain ⟨k, hone, hrest⟩ := @Node.split tokens p q [.token x] xs h
  have hk := hone.token.1
  obtain rfl : k = p + 1 := by omega
  exact hrest

/-- What `eval` does on a range goes from the range to its parts, down to single items and rows. -/
theorem Node.induction {P : ℤ → ℤ → List Item → Prop} (nil : ∀ p q, Node tokens p q [] → P p q [])
    (token : ∀ p q t, Node tokens p q [.token t] → P p q [.token t])
    (group : ∀ p q b, Node tokens p q [.group b] → Node tokens (p + 1) (q - 1) b → P (p + 1) (q - 1) b →
      P p q [.group b])
    (row : ∀ p q c, Node tokens p q c → Row c → P p q c)
    (split : ∀ p q k l op r, 1 ≤ op.precedence → Rightmost.IsMain Item.precedence l op r → (l ≠ [] ∨ r ≠ []) →
      Node tokens p (k - 1) l → Node tokens k k [op] → Node tokens (k + 1) q r → P p (k - 1) l → P (k + 1) q r →
      P p q (l ++ op :: r))
    {xs : List Item} (h : Node tokens p q xs) : P p q xs := by
  obtain ⟨n, hn⟩ : ∃ n, (q + 1 - p).toNat ≤ n := ⟨_, le_rfl⟩
  induction n generalizing p q xs with
  | zero =>
    have hbounds := h.bounds
    obtain rfl : xs = [] := List.length_eq_zero_iff.mp (by omega)
    exact nil p q h
  | succ n ih =>
    rcases item_cases xs with rfl | ⟨t | b, rfl⟩ | hrow | ⟨l, op, r, rfl, hop, hmain, hne⟩
    · exact nil p q h
    · exact token p q t h
    · obtain ⟨hbody, l, r, body, -, -, -, -, hlen⟩ := h.group
      exact group p q b h hbody (ih hbody (by omega))
    · exact row p q xs h hrow
    · obtain ⟨k, hl, hone, hr⟩ := h.split_op hop
      have hbl := hl.bounds
      have hbr := hr.bounds
      exact split p q k l op r hop hmain hne hl hone hr (ih hl (by omega)) (ih hr (by omega))

/-! ## The evaluation of a node -/

section Shapes

theorem only_zero (p q : ℤ) : Only {some .stack} (eval tokens m 0 p q) := fun _ => rfl

/-- Without a frame left, the stack ends. -/
theorem only_of_succ {R : Set (Option Fault)} (hR : some .stack ∈ R) (h : ∀ n, Only R (eval tokens m (n + 1) p q))
    (n : ℕ) : Only R (eval tokens m n p q) := by
  cases n with
  | zero => exact (only_zero p q).mono (Set.singleton_subset_iff.mpr hR)
  | succ n => exact h n

theorem only_empty (n : ℕ) (h : p > q) : Only {none} (eval tokens m (n + 1) p q) := by
  intro bad
  obtain ⟨bad', heval⟩ := @returns_empty tokens m n p q h bad
  rw [heval]
  rfl

theorem only_empty_safe (n : ℕ) (h : p > q) : Only {none, some .stack} (eval tokens m n p q) :=
  only_of_succ (.inr rfl) (fun n => (only_empty n h).mono fun _ hx => .inl hx) n

theorem Node.only_operand {t : Token} (h : Node tokens p q [.token t]) (ht : getOpPrecedence t.type < 1) (n : ℕ) :
    Only {none} (eval tokens m (n + 1) p q) := by
  obtain ⟨rfl, htoken, hside, hunset, hnotype⟩ := h.token
  intro bad
  rw [eval_token htoken hside]
  unfold evalToken
  revert ht hside hunset hnotype
  unfold Token.side
  cases t.type <;> simp [getOpPrecedence, Except.map, fault]

theorem Node.only_operator {t : Token} (h : Node tokens p q [.token t]) (ht : 1 ≤ getOpPrecedence t.type) (n : ℕ) :
    Only {some .assert} (eval tokens m (n + 1) p q) := by
  obtain ⟨rfl, htoken, hside, -⟩ := h.token
  intro bad
  rw [eval_token htoken hside]
  unfold evalToken
  revert ht
  cases t.type <;> simp [getOpPrecedence, Except.map, fault]

theorem Node.only_group {b : List Item} (h : Node tokens p q [.group b]) {R : Set (Option Fault)} {n : ℕ}
    (hbody : Only R (eval tokens m n (p + 1) (q - 1))) : Only R (eval tokens m (n + 1) p q) := by
  obtain ⟨-, l, r, body, hl, hr, hb, hslice, hlen⟩ := h.group
  intro bad
  rw [eval_enclosed hl hb hr hslice (by simp; omega)]
  exact hbody false

/-- A range with a main operator is evaluated from left to right. -/
theorem Node.seq_split {k : ℤ} {l r : List Item} {op : Item} (hop : 1 ≤ op.precedence)
    (hmain : Rightmost.IsMain Item.precedence l op r) (hne : l ≠ [] ∨ r ≠ []) (hl : Node tokens p (k - 1) l)
    (hone : Node tokens k k [op]) (hr : Node tokens (k + 1) q r) (n : ℕ) :
    Seq (eval tokens m (n + 1) p q) (eval tokens m n p (k - 1)) (eval tokens m n (k + 1) q) := by
  intro bad
  cases op with
  | group b => exact absurd hop (by simp [Item.precedence])
  | token t =>
    obtain ⟨-, htoken, hside, -⟩ := hone.token
    obtain ⟨ls, hls, hslicel, hlenl, hp, -⟩ := hl
    obtain ⟨rs, hrs, hslicer, hlenr, -, hq, -⟩ := hr
    have hsplit : Split (ls ++ t :: rs) ls t rs := by
      refine ⟨rfl, hls.balanced, hrs.balanced, hside, hop, hls.outside fun u hu => ?_, hrs.outside fun u hu => ?_⟩
      · exact hmain.1 _ hu
      · exact hmain.2 _ hu
    have hk : p + ls.length = k := by omega
    have hslice : Slice tokens p (ls ++ t :: rs) := by
      rw [slice_append, hk]
      exact ⟨hslicel, htoken, hslicer⟩
    have hlength : (ls ++ t :: rs).length = ls.length + rs.length + 1 := by simp; omega
    have htwo : 2 ≤ (ls ++ t :: rs).length := by
      have := hls.length_le
      have := hrs.length_le
      rcases hne with hne | hne
      · have := List.length_pos_of_ne_nil hne
        omega
      · have := List.length_pos_of_ne_nil hne
        omega
    obtain ⟨bad', heval⟩ := @eval_split tokens m n p q _ _ _ _ hsplit hslice (by omega) hp (by omega) htwo bad
    rw [hk] at heval
    exact ⟨bad', applyOp m t.type, applyOp_ok m t.type, heval⟩

theorem Parses.not_enclosed {c : List Item} {ts : List Token} (h : Parses c ts) (hc : Row c) :
    ¬ Enclosed Token.side ts := by
  rintro ⟨l, body, r, hl, hbody, hr, heq⟩
  have hlen := hc.length
  cases h with
  | nil => simp at hlen
  | token ht _ =>
    obtain ⟨rfl, -⟩ := List.cons.inj heq
    rw [ht] at hl
    cases hl
  | @group _ _ body' r' is ts _ hb hr' hrest =>
    obtain ⟨rfl, -⟩ := List.cons.inj heq
    cases is with
    | nil => simp at hlen
    | cons i is =>
      -- the first group would be a proper prefix
      have hpost : ts ≠ [] := by
        rintro rfl
        cases hrest
      exact Enclosed.not_balanced_prefix hl hbody (heq.symm.trans (by simp)) (List.cons_ne_nil _ (body' ++ [r'])) hpost
        (.group hl hb.balanced hr' .nil)

/-- A range of several operands has no main operator, and is evaluated as the tokens before index 0 and those behind
it. -/
theorem Node.seq_row {c : List Item} (h : Node tokens p q c) (hc : Row c) (n : ℕ) :
    Seq (eval tokens m (n + 1) p q) (eval tokens m n p (-1)) (eval tokens m n 1 q) := by
  intro bad
  obtain ⟨ts, hts, hslice, hlen, hp, hq, -⟩ := h
  have htwo : 2 ≤ ts.length := hc.length.trans hts.length_le
  have hne : ts ≠ [] := List.ne_nil_of_length_pos (by omega)
  have hheld : held Token.side 0 ts = false := by
    rw [← Bool.not_eq_true, ← enclosed_iff hts.balanced htwo]
    exact hts.not_enclosed hc
  have hcheck : ∀ bad, checkParentheses tokens p q bad = (false, false) := by
    intro bad
    rw [checkParentheses_balanced hslice (by omega) hne hts.balanced, hheld]
  have hnone : operators p ts = [] := by
    refine operators_of_outside (hts.outside fun t ht => ?_) p
    have hprec : getOpPrecedence t.type < 1 := hc.operand _ ht
    have := Token.precedence_of_plain (hts.plain ht)
    omega
  obtain ⟨bad', hloop⟩ := mainOpLoop_eq hts.balanced hslice hlen hp (by omega) (le_refl ts.length) [] false
  have hmain : getMainOp tokens p q false = .ok (0, bad') := by
    have hlength : (q - p + 1).toNat = ts.length := by omega
    unfold getMainOp
    rw [hlength, hloop, hnone]
    rfl
  have hlt : ¬ p > q ∧ p ≠ q := by omega
  refine ⟨bad', applyOp m (tokens 0).type, applyOp_ok m (tokens 0).type, ?_⟩
  conv_lhs => unfold eval
  simp only [hcheck, hlt.1, hlt.2, if_false, Bool.false_eq_true, and_false, hmain]
  rfl

/-- A range that is not balanced is not looked into. -/
theorem only_unbalanced (h : ¬ Balanced Token.side (range tokens p q)) (n : ℕ) :
    Only {none} (eval tokens m (n + 1) p q) := by
  intro bad
  have hne : range tokens p q ≠ [] := by
    intro hnil
    rw [hnil] at h
    exact h .nil
  have hlen : (range tokens p q).length = (q - p + 1).toNat := range_length p q
  have hpos := List.length_pos_of_ne_nil hne
  have hcheck : checkParentheses tokens p q bad = (false, true) :=
    checkParentheses_unbalanced (slice_range p q) (by omega) hne h bad
  unfold eval
  simp only [hcheck, and_self, if_true]
  rfl

end Shapes

/-! ## Ranges that end -/

/-- With enough frames, the call returns or trips an assertion. -/
def Halting (tokens : ℤ → Token) (m : Machine) (p q : ℤ) : Prop :=
  ∃ n, ∀ k, n ≤ k → Only {none, some .assert} (eval tokens m k p q)

theorem halting_of_succ (h : ∀ n, Only {none, some .assert} (eval tokens m (n + 1) p q)) : Halting tokens m p q := by
  refine ⟨1, fun k hk => ?_⟩
  obtain ⟨n, rfl⟩ : ∃ n, k = n + 1 := ⟨k - 1, by omega⟩
  exact h n

theorem halting_empty (h : p > q) : Halting tokens m p q :=
  halting_of_succ fun n => (only_empty n h).mono fun _ hx => .inl hx

theorem halting_unbalanced (h : ¬ Balanced Token.side (range tokens p q)) : Halting tokens m p q :=
  halting_of_succ fun n => (only_unbalanced h n).mono fun _ hx => .inl hx

theorem Node.halting_token {t : Token} (h : Node tokens p q [.token t]) : Halting tokens m p q := by
  refine halting_of_succ fun n => ?_
  rcases lt_or_ge (getOpPrecedence t.type) 1 with ht | ht
  · exact (h.only_operand ht n).mono fun _ hx => .inl hx
  · exact (h.only_operator ht n).mono fun _ hx => .inr hx

/-- A step, after which the call ends as another one with a frame less. -/
theorem Halting.step {a b : ℤ} (h : Halting tokens m a b)
    (hstep : ∀ n, Only {none, some .assert} (eval tokens m n a b) →
      Only {none, some .assert} (eval tokens m (n + 1) p q)) :
    Halting tokens m p q := by
  obtain ⟨n, hn⟩ := h
  refine ⟨n + 1, fun k hk => ?_⟩
  obtain ⟨i, rfl⟩ : ∃ i, k = i + 1 := ⟨k - 1, by omega⟩
  exact hstep i (hn i (by omega))

theorem Halting.seq {a b c d : ℤ} (h1 : Halting tokens m a b) (h2 : Halting tokens m c d)
    (h : ∀ n, Seq (eval tokens m (n + 1) p q) (eval tokens m n a b) (eval tokens m n c d)) :
    Halting tokens m p q := by
  obtain ⟨n1, h1⟩ := h1
  obtain ⟨n2, h2⟩ := h2
  refine ⟨max n1 n2 + 1, fun k hk => ?_⟩
  obtain ⟨i, rfl⟩ : ∃ i, k = i + 1 := ⟨k - 1, by omega⟩
  refine (h i).only ((h1 i (by omega)).mono fun _ hx => ?_) (h2 i (by omega))
  exact .inr hx

/-- A first call that trips an assertion ends the whole. -/
theorem Halting.seq_left {a b c d : ℤ} (h1 : Halting tokens m a b) (hlost : ∀ n, Only {none}ᶜ (eval tokens m n a b))
    (h : ∀ n, Seq (eval tokens m (n + 1) p q) (eval tokens m n a b) (eval tokens m n c d)) :
    Halting tokens m p q := by
  refine h1.step fun n hn => ?_
  have hassert : Only {some .assert} (eval tokens m n a b) := fun bad => (hn bad).resolve_left (hlost n bad)
  exact ((h n).only_left hassert nofun).mono fun _ hx => .inr hx

/-- An operator that comes to stand alone keeps the call from returning. -/
theorem Node.lost {xs : List Item} (h : Node tokens p q xs) (hdead : Dead xs) (n : ℕ) :
    Only {none}ᶜ (eval tokens m n p q) := by
  revert hdead n
  refine Node.induction (P := fun p q xs => Dead xs → ∀ n, Only {none}ᶜ (eval tokens m n p q)) ?_ ?_ ?_ ?_ ?_ h
  · intro p q _ hdead
    exact absurd hdead not_dead_nil
  · intro p q t h hdead
    rcases dead_singleton.mp hdead with hop | ⟨body, heq, -⟩
    · exact only_of_succ nofun fun n => (h.only_operator hop n).mono (by simp)
    · cases heq
  · intro p q b h _ ih hdead
    rcases dead_singleton.mp hdead with hop | ⟨body, heq, hbody⟩
    · exact absurd hop (by simp [Item.precedence])
    · obtain rfl := Item.group.inj heq
      exact only_of_succ nofun fun n => h.only_group (ih hbody n)
  · intro p q c _ hc hdead
    exact absurd hdead hc.not_dead
  · intro p q k l op r hop hmain hne hl hone hr ihl ihr hdead
    refine only_of_succ nofun fun n => ?_
    have hseq := Node.seq_split (m := m) hop hmain hne hl hone hr n
    rcases (dead_split hop hmain hne).mp hdead with hd | hd
    · exact hseq.only_left (ihl hd n) (by simp)
    · exact hseq.only (fun bad => by simp [em]) (ihr hd n)

/-! ## Behind an open parenthesis -/

/-- From the token with index 1 on, no range that ends from `p` to `q` is balanced. -/
def Unclosed (tokens : ℤ → Token) (p q : ℤ) : Prop :=
  ∀ e, p ≤ e → e ≤ q → ¬ Balanced Token.side (range tokens 1 e)

theorem Unclosed.mono {a b : ℤ} (h : Unclosed tokens p q) (ha : p ≤ a) (hb : b ≤ q) : Unclosed tokens a b :=
  fun e hae heb => h e (ha.trans hae) (heb.trans hb)

/-- In a group. -/
theorem Node.unclosed {b : List Item} (h : Node tokens p q [.group b]) (hp : 1 ≤ p) :
    Unclosed tokens (p + 1) (q - 1) := by
  obtain ⟨-, l, r, body, hl, -, hbody, ⟨htoken, hslice⟩, hlen⟩ := h.group
  intro e hpe heq
  have hb : range tokens (p + 1) (q - 1) = body :=
    range_eq_of_slice (slice_append.mp hslice).1 (by omega)
  have hinner : range tokens (p + 1) (q - 1) = range tokens (p + 1) e ++ range tokens (e + 1) (q - 1) := by
    have := @range_append tokens (p + 1) (e + 1) (q - 1) (by omega) (by omega)
    rwa [Int.add_sub_cancel] at this
  have hfront : range tokens 1 e = range tokens 1 (p - 1) ++ tokens p :: range tokens (p + 1) e := by
    rw [← range_cons (by omega)]
    exact range_append (by omega) (by omega)
  rw [← hb, hinner] at hbody
  rw [hfront, htoken]
  exact hbody.not_opened hl

theorem Node.halting_of_unclosed {xs : List Item} (h : Node tokens p q xs) (hopen : Unclosed tokens p q) :
    Halting tokens m p q := by
  revert hopen
  refine Node.induction (P := fun p q _ => Unclosed tokens p q → Halting tokens m p q) ?_ ?_ ?_ ?_ ?_ h
  · intro p q h _
    have := h.nil_eq
    exact halting_empty (by omega)
  · intro p q t h _
    exact h.halting_token
  · intro p q b h _ ih hopen
    exact (ih (hopen.mono (by omega) (by omega))).step fun n hn => h.only_group hn
  · intro p q c h hc hopen
    have hbounds := h.bounds
    have hlen := hc.length
    have hback : Halting tokens m 1 q := halting_unbalanced (hopen q (by omega) le_rfl)
    exact (halting_empty (by omega)).seq hback fun n => h.seq_row hc n
  · intro p q k l op r hop hmain hne hl hone hr ihl ihr hopen
    have hbl := hl.bounds
    have hbr := hr.bounds
    exact (ihl (hopen.mono le_rfl (by omega))).seq (ihr (hopen.mono (by omega) le_rfl)) fun n =>
      Node.seq_split hop hmain hne hl hone hr n

theorem Node.safe_of_unclosed {xs : List Item} (h : Node tokens p q xs) (hopen : Unclosed tokens p q)
    (hdead : ¬ Dead xs) (n : ℕ) : Only {none, some .stack} (eval tokens m n p q) := by
  revert hopen hdead n
  refine Node.induction (P := fun p q xs => Unclosed tokens p q → ¬ Dead xs → ∀ n,
    Only {none, some .stack} (eval tokens m n p q)) ?_ ?_ ?_ ?_ ?_ h
  · intro p q h _ _ n
    have := h.nil_eq
    exact only_empty_safe n (by omega)
  · intro p q t h _ hdead
    have ht : getOpPrecedence t.type < 1 := by
      by_contra hge
      exact hdead (dead_singleton.mpr (.inl (not_lt.mp hge)))
    exact only_of_succ (.inr rfl) fun n => (h.only_operand ht n).mono (by simp)
  · intro p q b h _ ih hopen hdead
    have hbody : ¬ Dead b := fun hd => hdead (dead_singleton.mpr (.inr ⟨b, rfl, hd⟩))
    exact only_of_succ (.inr rfl) fun n => h.only_group (ih (hopen.mono (by omega) (by omega)) hbody n)
  · intro p q c h hc hopen _
    have hbounds := h.bounds
    have hlen := hc.length
    have hback : ∀ n, Only {none, some .stack} (eval tokens m n 1 q) := only_of_succ (.inr rfl) fun n =>
      (only_unbalanced (hopen q (by omega) le_rfl) n).mono (by simp)
    refine only_of_succ (.inr rfl) fun n => ?_
    exact (h.seq_row hc n).only ((only_empty_safe n (by omega)).mono (by simp)) (hback n)
  · intro p q k l op r hop hmain hne hl hone hr ihl ihr hopen hdead
    have hbl := hl.bounds
    have hbr := hr.bounds
    rw [dead_split hop hmain hne, not_or] at hdead
    refine only_of_succ (.inr rfl) fun n => ?_
    have hleft := ihl (hopen.mono le_rfl (by omega)) hdead.1 n
    refine (Node.seq_split hop hmain hne hl hone hr n).only (hleft.mono (by simp)) ?_
    exact ihr (hopen.mono (by omega) le_rfl) hdead.2 n

end Nemu
