import Rv32i.Nemu.Sdb.Node
import Rv32i.Nemu.Sdb.MakeToken
import Rv32i.Nemu.Refine

/-!
# Where the evaluation does not end

A range without an operator outside the parentheses, but with more than one operand, has no main operator.  For such a
range `[p, q]` the code splits at index 0: it evaluates the tokens from 1 to `q`, which end in the same range.

* `Node.exists_row` — what does not end comes to a row of operands without a stop before it;
* `Front.stacks` — two operands next to each other, with no stop before them from index 1 on, come back;
* `eval_ends_iff` — the strings on which the recursion ends.
-/

namespace Nemu

open Rv32 Bracket

variable {tokens : ℤ → Token} {m : Machine} {p q : ℤ}

/-! ## A row that is reached -/

/-- **What does not end comes to a row**, with no operator that stands alone before it; and what follows for the row
does not end.  A range that begins at index 0 begins with a token here. -/
theorem Node.exists_row {xs : List Item} (h : Node tokens p q xs) (hfirst : p = 0 → ∀ b, xs.head? ≠ some (.group b))
    (hnot : ¬ Halting tokens m p q) :
    ∃ s c t k, xs = s ++ c ++ t ∧ Row c ∧ ¬ Dead (s ++ c) ∧ Node tokens p k (s ++ c) ∧ ¬ Halting tokens m 1 k := by
  revert hfirst hnot
  refine Node.induction (P := fun p q xs => (p = 0 → ∀ b, xs.head? ≠ some (.group b)) → ¬ Halting tokens m p q →
    ∃ s c t k, xs = s ++ c ++ t ∧ Row c ∧ ¬ Dead (s ++ c) ∧ Node tokens p k (s ++ c) ∧ ¬ Halting tokens m 1 k)
    ?_ ?_ ?_ ?_ ?_ h
  · intro p q h _ hnot
    have := h.nil_eq
    exact absurd (halting_empty (by omega)) hnot
  · intro p q t h _ hnot
    exact absurd h.halting_token hnot
  · intro p q b h hbody _ hfirst hnot
    have hp : 1 ≤ p := by
      have := h.bounds
      by_contra hlt
      exact hfirst (by omega) b rfl
    refine absurd (Halting.step (hbody.halting_of_unclosed (h.unclosed hp)) fun n hn => ?_) hnot
    exact h.only_group hn
  · intro p q c h hc _ hnot
    have hbounds := h.bounds
    have hlen := hc.length
    refine ⟨[], c, [], q, by simp, hc, hc.not_dead, h, fun hrow => hnot ?_⟩
    exact (halting_empty (by omega)).seq hrow fun n => h.seq_row hc n
  · intro p q k l op r hop hmain hne hl hone hr ihl ihr hfirst hnot
    have hseq := fun n => Node.seq_split (m := m) hop hmain hne hl hone hr n
    have hbl := hl.bounds
    by_cases hleft : Halting tokens m p (k - 1)
    · -- the left side returns, so the right side does not end
      have hright : ¬ Halting tokens m (k + 1) q := fun hright => hnot (hleft.seq hright hseq)
      have hdead : ¬ Dead l := fun hd => hnot (hleft.seq_left (fun n => hl.lost hd n) hseq)
      obtain ⟨s, c, t, e, rfl, hc, hdead', hnode, hnext⟩ := ihr (fun hk => by omega) hright
      refine ⟨l ++ op :: s, c, t, e, by simp, hc, ?_, ?_, hnext⟩
      · have hmain' : Rightmost.IsMain Item.precedence l op (s ++ c) :=
          ⟨hmain.1, fun y hy => hmain.2 y (List.mem_append_left t hy)⟩
        have hlen := hc.length
        have hne' : s ++ c ≠ [] := List.append_ne_nil_of_right_ne_nil s (List.ne_nil_of_length_pos (by omega))
        rw [List.append_assoc, List.cons_append, dead_split hop hmain' (.inr hne')]
        exact fun hd => hd.elim hdead hdead'
      · have hfront : Node tokens p (k + 1 - 1) (l ++ [op]) := by
          rw [Int.add_sub_cancel]
          exact hl.append hone
        have := hfront.append hnode
        simpa using this
    · have hfirst' : p = 0 → ∀ b, l.head? ≠ some (.group b) := by
        intro hp b hb
        refine hfirst hp b ?_
        rw [List.head?_append, hb]
        rfl
      obtain ⟨s, c, t, e, rfl, hc, hdead, hnode, hnext⟩ := ihl hfirst' hleft
      exact ⟨s, c, t ++ op :: r, e, by simp, hc, hdead, hnode, hnext⟩

/-! ## A row that comes back -/

section Front

variable {o : ℤ} {w s : List Item} {a b : Item}

/-- Before the tokens from index 1 on there is nothing, or one token. -/
def Front (tokens : ℤ → Token) (o : ℤ) (w : List Item) : Prop :=
  Node tokens o 0 w ∧ (w = [] ∨ ∃ x, w = [.token x])

theorem Front.start (h : Front tokens o w) : o = 1 - w.length := by
  obtain ⟨hnode, rfl | ⟨x, rfl⟩⟩ := h
  · have := hnode.nil_eq
    simp
    omega
  · have := hnode.token.1
    simp
    omega

theorem Front.back {v : List Item} (h : Front tokens o w) (hv : Node tokens o q (w ++ v)) : Node tokens 1 q v := by
  obtain ⟨hnode, rfl | ⟨x, rfl⟩⟩ := h
  · have := hnode.nil_eq
    obtain rfl : o = 1 := by omega
    exact hv
  · obtain rfl : o = 0 := hnode.token.1.symm
    exact hv.tail

/-- A group of the front is behind index 0. -/
theorem Front.group_pos {pre v post : List Item} {g : List Item} (h : Front tokens o w)
    (hpre : Node tokens o (p - 1) pre) (heq : pre ++ .group g :: post = w ++ v) : 1 ≤ p := by
  have hbounds := hpre.bounds
  have hstart := h.start
  obtain ⟨-, rfl | ⟨x, rfl⟩⟩ := h
  · simp at hstart
    omega
  · cases pre with
    | nil => cases (List.cons.inj heq).1
    | cons y pre =>
      simp at hbounds
      omega

theorem Front.length (h : Front tokens o w) : w.length ≤ 1 := by
  obtain ⟨-, rfl | ⟨x, rfl⟩⟩ := h <;> simp

/-- A list that is longer than the front goes on behind it. -/
theorem Front.rest (h : Front tokens o w) {ys post v : List Item} (heq : ys ++ post = w ++ v) (hlen : 2 ≤ ys.length) :
    ∃ v', ys = w ++ v' ∧ v = v' ++ post ∧ v' ≠ [] := by
  have hw := h.length
  rcases List.append_eq_append_iff.mp heq with ⟨as, rfl, -⟩ | ⟨v', rfl, rfl⟩
  · rw [List.length_append] at hw
    omega
  · refine ⟨v', rfl, rfl, ?_⟩
    rintro rfl
    rw [List.append_nil] at hlen
    omega

/-- Before two operands without a stop in front of them, nothing trips an assertion. -/
theorem Front.safe (hw : Front tokens o w) {v : List Item} (hv : ¬ Dead v) {pre xs post : List Item}
    (hpre : Node tokens o (p - 1) pre) (h : Node tokens p q xs) (heq : pre ++ xs ++ post = w ++ v)
    (hpost : Item.OpOrNone post.head?) (hdead : ¬ Dead xs) (n : ℕ) :
    Only {none, some .stack} (eval tokens m n p q) := by
  induction n generalizing p q pre xs post with
  | zero => exact (only_zero p q).mono (by simp)
  | succ n ih =>
    rcases item_cases xs with rfl | ⟨t | g, rfl⟩ | hrow | ⟨l, op, r, rfl, hop, hmain, hne⟩
    · have := h.nil_eq
      exact only_empty_safe _ (by omega)
    · have ht : getOpPrecedence t.type < 1 := by
        by_contra hge
        exact hdead (dead_singleton.mpr (.inl (not_lt.mp hge)))
      exact (h.only_operand ht n).mono (by simp)
    · have hp : 1 ≤ p := hw.group_pos hpre (by simpa using heq)
      have hg : ¬ Dead g := fun hd => hdead (dead_singleton.mpr (.inr ⟨g, rfl, hd⟩))
      exact h.only_group (h.group.1.safe_of_unclosed (h.unclosed hp) hg n)
    · have hbounds := h.bounds
      have hlen := hrow.length
      have hlong : 2 ≤ (pre ++ xs).length := by
        rw [List.length_append]
        omega
      obtain ⟨v', hv', rfl, hne⟩ := hw.rest heq hlong
      have hback : Node tokens 1 q v' := hw.back (hv' ▸ hpre.append h)
      have hdead' : ¬ Dead v' := by
        refine fun hd => hv (hd.append (fun y hy => ?_) hpost)
        have hxs : xs ≠ [] := List.ne_nil_of_length_pos (by omega)
        rw [← List.getLast?_append_of_ne_nil w hne, ← hv', List.getLast?_append_of_ne_nil pre hxs] at hy
        exact hrow.operand y (List.mem_of_mem_getLast? hy)
      refine (h.seq_row hrow n).only ((only_empty_safe n (by omega)).mono (by simp)) ?_
      exact ih hw.1 hback (List.append_assoc w v' post) hpost hdead'
    · obtain ⟨k, hl, hone, hr⟩ := h.split_op hop
      rw [dead_split hop hmain hne, not_or] at hdead
      have heql : pre ++ l ++ op :: (r ++ post) = w ++ v := by
        rw [← heq]
        simp
      have hleft : Only {none, some .stack} (eval tokens m n p (k - 1)) := by
        refine ih hpre hl heql ?_ hdead.1
        rintro u ⟨⟩
        exact hop
      refine (Node.seq_split hop hmain hne hl hone hr n).only (hleft.mono (by simp)) ?_
      have hfront : Node tokens o (k + 1 - 1) (pre ++ (l ++ [op])) := by
        rw [Int.add_sub_cancel]
        exact hpre.append (hl.append hone)
      refine ih hfront hr ?_ hpost hdead.2
      rw [← heq]
      simp

/-- **Two operands next to each other come back**, if no operator stands alone before them. -/
theorem Front.stacks (hw : Front tokens o w) (ha : a.precedence < 1) (hb : b.precedence < 1)
    (hs : ¬ Dead (s ++ [a, b])) {pre xs s' t : List Item} (hpre : Node tokens o (p - 1) pre) (h : Node tokens p q xs)
    (hxs : xs = s' ++ a :: b :: t) (heq : pre ++ s' = w ++ s) (hdead : ¬ Dead (s' ++ [a, b])) (n : ℕ) :
    Only {some .stack} (eval tokens m n p q) := by
  induction n generalizing p q pre xs s' t with
  | zero => exact only_zero p q
  | succ n ih =>
    have hbounds := h.bounds
    have hlen : 2 ≤ xs.length := by
      rw [hxs, List.length_append, List.length_cons, List.length_cons]
      omega
    rcases item_cases xs with rfl | ⟨y, rfl⟩ | hrow | ⟨l, op, r, rfl, hop, hmain, hne⟩
    · simp at hlen
    · simp at hlen
    · -- the row leads to the tokens from 1 on, which end in the same operands
      have hback : Node tokens 1 q (s ++ a :: b :: t) := by
        apply hw.back
        rw [← List.append_assoc, ← heq, List.append_assoc, ← hxs]
        exact hpre.append h
      refine (h.seq_row hrow n).only ((only_empty_safe n (by omega)).mono (by simp)) ?_
      exact ih hw.1 hback rfl rfl hs
    · obtain ⟨k, hl, hone, hr⟩ := h.split_op hop
      have hseq := Node.seq_split (m := m) hop hmain hne hl hone hr n
      rcases append_cons_cases hxs.symm with ⟨as, rfl, has⟩ | ⟨rfl, -⟩ | ⟨bs, rfl⟩
      · cases as with
        | nil =>
          obtain ⟨rfl, -⟩ := List.cons.inj has
          omega
        | cons c as =>
          obtain ⟨rfl, -⟩ := List.cons.inj has
          exact hseq.only_left (ih hpre hl rfl heq hdead) nofun
      · omega
      · obtain rfl : s' = l ++ op :: bs := by
          rw [← List.cons_append, ← List.append_assoc] at hxs
          exact (List.append_cancel_right hxs).symm
        have hmain' : Rightmost.IsMain Item.precedence l op (bs ++ [a, b]) := by
          refine ⟨hmain.1, fun y hy => hmain.2 y ?_⟩
          rcases List.mem_append.mp hy with hy | hy
          · exact List.mem_append_left _ hy
          · have hab : y = a ∨ y = b := by simpa using hy
            exact List.mem_append_right bs (by rcases hab with rfl | rfl <;> simp)
        rw [List.append_assoc, List.cons_append, dead_split hop hmain' (.inr (by simp)), not_or] at hdead
        have heql : pre ++ l ++ op :: (bs ++ [a, b]) = w ++ (s ++ [a, b]) := by
          rw [← List.append_assoc, ← heq]
          simp
        have hleft : Only {none, some .stack} (eval tokens m n p (k - 1)) := by
          refine hw.safe hs hpre hl heql ?_ hdead.1 n
          rintro u ⟨⟩
          exact hop
        have hfront : Node tokens o (k + 1 - 1) (pre ++ (l ++ [op])) := by
          rw [Int.add_sub_cancel]
          exact hpre.append (hl.append hone)
        refine hseq.only (hleft.mono (by simp)) (ih hfront hr rfl ?_ hdead.2)
        rw [← heq]
        simp

end Front

/-! ## What begins with a group -/

/-- A group that begins at index 0, and what is behind it. -/
theorem Node.first_group {g rest : List Item} (h : Node tokens 0 q (.group g :: rest)) :
    ∃ j, 1 ≤ j ∧ Node tokens 0 j [.group g] ∧ Node tokens 1 (j - 1) g ∧ Node tokens (j + 1) q rest ∧
      ∀ e, Unclosed tokens j e := by
  obtain ⟨k, hgroup, hrest⟩ := @Node.split tokens 0 q [.group g] rest h
  obtain ⟨hbody, l, r, body, -, hr, hb, ⟨-, hslice⟩, hlen⟩ := hgroup.group
  obtain ⟨hbodyslice, htoken, -⟩ := slice_append.mp hslice
  rw [zero_add] at hbody hbodyslice htoken hlen
  refine ⟨k - 1, by omega, hgroup, hbody, by rwa [Int.sub_add_cancel], fun _ e hje _ => ?_⟩
  -- the group is closed at index `k - 1`
  have hinner : range tokens 1 (k - 1 - 1) = body := range_eq_of_slice hbodyslice (by omega)
  have hpos : (1 : ℤ) + body.length = k - 1 := by omega
  rw [hpos] at htoken
  have hsplit : range tokens 1 e = body ++ r :: range tokens (k - 1 + 1) e := by
    rw [← hinner, ← htoken, ← range_cons hje]
    exact range_append (by omega) (by omega)
  rw [hsplit]
  exact hb.not_closed hr

/-- The group in front of a main operator, and what is between them. -/
theorem group_front {g rest l r : List Item} {op : Item} (heq : .group g :: rest = l ++ op :: r)
    (hop : 1 ≤ op.precedence) : ∃ l', l = .group g :: l' ∧ rest = l' ++ op :: r := by
  rcases List.cons_eq_append_iff.mp heq with ⟨rfl, hcons⟩ | ⟨l', rfl, hrest⟩
  · obtain ⟨rfl, -⟩ := List.cons.inj hcons
    exact absurd hop (by simp [Item.precedence])
  · exact ⟨l', rfl, hrest⟩

/-- It ends if the group is no operand of its own, or if its body ends. -/
theorem Node.halting_of_group {g rest : List Item} (h : Node tokens 0 q (.group g :: rest))
    (hbody : Item.OpOrNone rest.head? → ∀ j, Node tokens 1 j g → Halting tokens m 1 j) : Halting tokens m 0 q := by
  obtain ⟨n, hn⟩ : ∃ n, rest.length ≤ n := ⟨_, le_rfl⟩
  induction n generalizing q rest with
  | zero =>
    obtain rfl : rest = [] := List.length_eq_zero_iff.mp (by omega)
    exact (hbody nofun _ h.group.1).step fun n hn => h.only_group hn
  | succ n ih =>
    obtain ⟨j, hj, -, -, hrest, hopen⟩ := h.first_group
    rcases item_cases (.group g :: rest) with hnil | ⟨y, hone⟩ | hrow | ⟨l, op, r, heq, hop, hmain, hne⟩
    · cases hnil
    · obtain rfl : rest = [] := (List.cons.inj hone).2
      exact (hbody nofun _ h.group.1).step fun n hn => h.only_group hn
    · have hbounds := hrest.bounds
      have hlen := hrow.length
      rw [List.length_cons] at hlen
      have hback : Halting tokens m 1 q := halting_unbalanced (hopen q q (by omega) le_rfl)
      exact (halting_empty (by omega)).seq hback fun n => h.seq_row hrow n
    · rw [heq] at h
      obtain ⟨k, hl, hone, hr⟩ := h.split_op hop
      obtain ⟨l', rfl, rfl⟩ := group_front heq hop
      obtain ⟨j', -, -, -, hl', hopen'⟩ := hl.first_group
      have hbounds := hl'.bounds
      rw [List.length_append, List.length_cons] at hn
      have hleft : Halting tokens m 0 (k - 1) := by
        refine ih hl (fun hl'head => hbody ?_) (by omega)
        cases l' with
        | nil =>
          rintro u ⟨⟩
          exact hop
        | cons y l' => exact hl'head
      have hright : Halting tokens m (k + 1) q := hr.halting_of_unclosed ((hopen' q).mono (by omega) le_rfl)
      exact hleft.seq hright fun n => Node.seq_split hop hmain hne hl hone hr n

theorem Node.stacks_of_group {g rest : List Item} (h : Node tokens 0 q (.group g :: rest))
    (hrest : Item.OpOrNone rest.head?)
    (hbody : ∀ j n, Node tokens 1 j g → Only {some .stack} (eval tokens m n 1 j)) (n : ℕ) :
    Only {some .stack} (eval tokens m n 0 q) := by
  induction n generalizing q rest with
  | zero => exact only_zero 0 q
  | succ n ih =>
    rcases item_cases (.group g :: rest) with hnil | ⟨y, hone⟩ | hrow | ⟨l, op, r, heq, hop, hmain, hne⟩
    · cases hnil
    · obtain rfl : rest = [] := (List.cons.inj hone).2
      exact h.only_group (hbody _ n h.group.1)
    · cases rest with
      | nil =>
        have := hrow.length
        simp at this
      | cons y rest =>
        have hop := hrest y rfl
        have := hrow.operand y (by simp)
        omega
    · rw [heq] at h
      obtain ⟨k, hl, hone, hr⟩ := h.split_op hop
      obtain ⟨l', rfl, rfl⟩ := group_front heq hop
      refine (Node.seq_split hop hmain hne hl hone hr n).only_left (ih hl fun u hu => hrest u ?_) nofun
      rw [List.head?_append, hu]
      rfl

/-! ## All ranges that begin at index 0 -/

theorem Node.empty (hp : 0 ≤ p) (hp' : p ≤ 32) : Node tokens p (p - 1) [] :=
  ⟨[], .nil, trivial, by simp, hp, by omega, by simp⟩

theorem Node.stacks_of_loops {items : List Item} (h : Node tokens 0 q items) (hloops : Loops items) (n : ℕ) :
    Only {some .stack} (eval tokens m n 0 q) := by
  match items, hloops with
  | .token x :: k, ⟨s, a, b, t, hk, ha, hb, hs, hdead⟩ =>
    obtain ⟨e, hx, -⟩ := @Node.split tokens 0 q [.token x] k h
    have he := hx.token.1
    have hfront : Front tokens 0 [.token x] := ⟨he ▸ hx, .inr ⟨x, rfl⟩⟩
    have heq : .token x :: k = (.token x :: s) ++ a :: b :: t := by
      rw [hk]
      rfl
    exact hfront.stacks ha hb hs (Node.empty le_rfl (by decide)) h heq rfl hdead n
  | .group g :: rest, ⟨hrest, s, a, b, t, hg, ha, hb, hs, _⟩ =>
    have hfront : Front tokens 1 [] := ⟨Node.empty (by decide) (by decide), .inl rfl⟩
    refine h.stacks_of_group hrest (fun j n hj => ?_) n
    exact hfront.stacks ha hb hs (Node.empty (by decide) (by decide)) hj hg rfl hs n

/-- The tokens from 1 on, up to a row that does not end, have two operands next to each other. -/
theorem Node.juxtaposed {v : List Item} {k : ℤ} (h : Node tokens 1 k v) (hnot : ¬ Halting tokens m 1 k)
    {w t : List Item} (hw : ¬ Dead (w ++ v) ∨ w = []) : Juxtaposed w (v ++ t) := by
  obtain ⟨s, c, t', e, rfl, hc, hdead, -, -⟩ := h.exists_row (fun h => absurd h (by decide)) hnot
  obtain ⟨a, b, c', rfl⟩ : ∃ a b c', c = a :: b :: c' := by
    have hlen := hc.length
    match c, hlen with
    | a :: b :: c', _ => exact ⟨a, b, c', rfl⟩
  have ha : a.precedence < 1 := hc.operand a (by simp)
  have hb : b.precedence < 1 := hc.operand b (by simp)
  have hs : ¬ Dead (s ++ [a, b]) := fun hd => hdead (hd.append_operands ha hb)
  refine ⟨s, a, b, c' ++ t' ++ t, by simp, ha, hb, hs, ?_⟩
  rcases hw with hw | rfl
  · intro hd
    rw [← List.append_assoc] at hd
    have := @Dead.append_operands (w ++ s) (c' ++ t') a b ha hb hd
    refine hw ?_
    simpa using this
  · exact hs

theorem Node.halting_of_not_loops {items : List Item} (h : Node tokens 0 q items) (hnot : ¬ Loops items) :
    Halting tokens m 0 q := by
  match items with
  | [] =>
    have := h.nil_eq
    exact halting_empty (by omega)
  | .token x :: k =>
    by_contra hend
    obtain ⟨s, c, t, e, heq, hc, hdead, hnode, hnext⟩ := h.exists_row (fun _ b => by simp) hend
    have hlen := hc.length
    obtain ⟨v, hv⟩ : ∃ v, s ++ c = .token x :: v := by
      cases hsc : s ++ c with
      | nil =>
        have hzero := congrArg List.length hsc
        rw [List.length_append, List.length_nil] at hzero
        omega
      | cons y v =>
        rw [hsc] at heq
        exact ⟨v, by rw [(List.cons.inj heq).1]⟩
    rw [hv] at heq hdead hnode
    obtain rfl : k = v ++ t := (List.cons.inj heq).2
    exact hnot (hnode.tail.juxtaposed hnext (.inl hdead))
  | .group g :: rest =>
    refine h.halting_of_group fun hrest j hj => ?_
    by_contra hend
    refine hnot ⟨hrest, ?_⟩
    have := @Node.juxtaposed tokens m g j hj hend [] [] (.inr rfl)
    rwa [List.append_nil] at this

/-! ## The strings -/

/-- The type of a recorded token: one of those in the rules, and no space. -/
theorem lexemes_types (n : ℕ) (e : List Char) : ∀ t ∈ (lexemes n e).1, t.type ≠ .unset ∧ t.type ≠ .notype := by
  induction n generalizing e with
  | zero =>
    intro t ht
    cases e <;> cases ht
  | succ n ih =>
    intro t ht
    cases e with
    | nil => cases ht
    | cons c e =>
      unfold lexemes at ht
      cases hrule : firstRule (c :: e) with
      | none =>
        rw [hrule] at ht
        cases ht
      | some r =>
        obtain ⟨type, len⟩ := r
        simp only [hrule] at ht
        by_cases htype : type = .notype
        · rw [if_pos htype] at ht
          exact ih _ t ht
        · rw [if_neg htype] at ht
          rcases List.mem_cons.mp ht with rfl | ht
          · refine ⟨?_, htype⟩
            rw [firstRule_eq] at hrule
            obtain ⟨r, hr, hlen⟩ := List.exists_of_findSome?_eq_some hrule
            obtain ⟨k, -, heq⟩ := Option.map_eq_some_iff.mp hlen
            obtain rfl : r.tokenType = type := congrArg Prod.fst heq
            have hall : ∀ r ∈ rules, r.tokenType ≠ .unset := by
              simp [rules]
            exact hall r hr
          · exact ih _ t ht

theorem retag_types {ts : List Token} (h : ∀ t ∈ ts, t.type ≠ .unset ∧ t.type ≠ .notype) (prev : TokenType) :
    ∀ t ∈ retag prev ts, t.type ≠ .unset ∧ t.type ≠ .notype := by
  induction ts generalizing prev with
  | nil =>
    intro t ht
    cases ht
  | cons x xs ih =>
    rw [List.forall_mem_cons] at h
    intro t ht
    rw [retag_cons] at ht
    rcases List.mem_cons.mp ht with rfl | ht
    · rcases retagOne_cases prev x with ⟨-, -, hprefix⟩ | ⟨-, heq⟩
      · revert hprefix
        cases (retagOne prev x).type <;> simp [TokenType.isPrefix]
      · rw [heq]
        exact h.1
    · exact ih h.2 _ t ht

/-- The tokens of a string in the array, behind `tokenise`. -/
theorem tokenised {e : List Char} {d d' : ExprState} (h : makeToken e d = .ok (true, d')) :
    ∃ ts, ts.length = d'.lengthToken ∧ ts.length ≤ 32 ∧ Slice (tokenise d'.tokens d'.lengthToken) 0 ts ∧
      ∀ t ∈ ts, t.type ≠ .unset ∧ t.type ≠ .notype := by
  have hlimits := makeTokenLoop_limits le_rfl (Nat.zero_le _) h
  simp only [Nat.zero_add] at hlimits
  have hmake := makeToken_eq hlimits d
  obtain ⟨ts, hts⟩ : ∃ ts, ts = (lexemes e.length e).1 := ⟨_, rfl⟩
  rw [h, ← hts] at hmake
  obtain rfl : d' = ExprState.store { d with nrToken := 0, lengthToken := 0 } ts :=
    congrArg Prod.snd (Except.ok.inj hmake)
  have hlength := store_lengthToken { d with nrToken := 0, lengthToken := 0 } ts
  have hslice := store_slice { d with nrToken := 0, lengthToken := 0 } ts
  simp only [Nat.zero_add, Nat.cast_zero] at hlength hslice
  refine ⟨retag .lparen ts, by rw [retag_length, hlength], ?_, ?_, retag_types ?_ _⟩
  · rw [retag_length, hts]
    exact hlimits.1
  · rw [hlength]
    exact tokenise_slice hslice
  · rw [hts]
    exact lexemes_types _ _

/-! ## Strings without neighbouring operands -/

/-- The token ends an operand. -/
def Token.EndsOperand (t : Token) : Prop := t.side = .closing ∨ t.side = .plain ∧ getOpPrecedence t.type < 1

/-- The token starts an operand. -/
def Token.StartsOperand (t : Token) : Prop := t.side = .opening ∨ t.side = .plain ∧ getOpPrecedence t.type < 1

instance (t : Token) : Decidable t.EndsOperand := by unfold Token.EndsOperand; infer_instance

instance (t : Token) : Decidable t.StartsOperand := by unfold Token.StartsOperand; infer_instance

/-- No operand follows another. -/
def Separated (ts : List Token) : Prop := ts.IsChain fun x y => ¬ (x.EndsOperand ∧ y.StartsOperand)

instance (ts : List Token) : Decidable (Separated ts) := by unfold Separated; infer_instance

section Neighbours

variable {a b : Item} {s t : List Item} {ts : List Token}

theorem Parses.endsOperand (h : Parses [a] ts) (ha : a.precedence < 1) : ∃ us x, ts = us ++ [x] ∧ x.EndsOperand := by
  cases h with
  | token hx hnil =>
    cases hnil
    exact ⟨[], _, rfl, .inr ⟨hx, ha⟩⟩
  | group hl hb hr hnil =>
    cases hnil
    exact ⟨_ :: _, _, rfl, .inl hr⟩

theorem Parses.startsOperand (h : Parses [b] ts) (hb : b.precedence < 1) : ∃ y us, ts = y :: us ∧ y.StartsOperand := by
  cases h with
  | token hx hnil => exact ⟨_, _, rfl, .inr ⟨hx, hb⟩⟩
  | group hl _ _ _ => exact ⟨_, _, rfl, .inl hl⟩

/-- Neighbouring operands show in the tokens. -/
theorem Parses.not_juxtaposed (h : Parses (s ++ a :: b :: t) ts) (hsep : Separated ts) (ha : a.precedence < 1) :
    ¬ b.precedence < 1 := by
  intro hb
  obtain ⟨us, vs, rfl, -, hvs⟩ := h.split
  obtain ⟨as, ws, rfl, has, hws⟩ := @Parses.split [a] _ _ hvs
  obtain ⟨bs, zs, rfl, hbs, -⟩ := @Parses.split [b] _ _ hws
  obtain ⟨as', x, rfl, hx⟩ := has.endsOperand ha
  obtain ⟨y, bs', rfl, hy⟩ := hbs.startsOperand hb
  have hpair : Separated ([x, y] ++ (bs' ++ zs)) := by
    have hright := (List.isChain_append.mp hsep).2.1
    rw [List.append_assoc] at hright
    exact (List.isChain_append.mp hright).2.1
  exact (List.isChain_cons_cons.mp hpair).1 ⟨hx, hy⟩

/-- **Where no operand follows another, the recursion ends.** -/
theorem Parses.not_loops {items : List Item} (h : Parses items ts) (hsep : Separated ts) : ¬ Loops items := by
  intro hloops
  match items, h, hloops with
  | .token x :: _, h, ⟨s, a, b, t, hk, ha, hb, _⟩ =>
    subst hk
    exact h.not_juxtaposed (s := .token x :: s) hsep ha hb
  | .group _ :: _, .group _ hbody _ _, ⟨_, s, a, b, t, hk, ha, hb, _⟩ =>
    subst hk
    have hinner := (List.isChain_append.mp (List.isChain_cons.mp hsep).2).1
    exact hbody.not_juxtaposed hinner ha hb

end Neighbours

/-- The call returns, or trips an assertion, which ends the program. -/
def Ends (x : Exec (Word × Bool)) : Prop := fault x = none ∨ fault x = some .assert

/-- **The recursion ends on a string exactly if its tokens are not balanced or do not loop.** -/
theorem eval_ends_iff {e : List Char} {d d' : ExprState} (h : makeToken e d = .ok (true, d')) (m : Machine)
    (bad : Bool) :
    (∃ frames, Ends (eval (tokenise d'.tokens d'.lengthToken) m frames 0 (d'.lengthToken - 1) bad)) ↔
      ¬ ∃ items, Parses items (range (tokenise d'.tokens d'.lengthToken) 0 (d'.lengthToken - 1)) ∧ Loops items := by
  obtain ⟨ts, hlen, hle, hslice, htypes⟩ := tokenised h
  have hrange : range (tokenise d'.tokens d'.lengthToken) 0 (d'.lengthToken - 1) = ts :=
    range_eq_of_slice hslice (by omega)
  have hnode : ∀ items, Parses items ts →
      Node (tokenise d'.tokens d'.lengthToken) 0 (d'.lengthToken - 1) items := fun items hitems =>
    ⟨ts, hitems, hslice, by omega, le_rfl, by omega, htypes⟩
  constructor
  · rintro ⟨frames, hends⟩ ⟨items, hitems, hloops⟩
    rw [hrange] at hitems
    have hstack := (hnode items hitems).stacks_of_loops hloops (m := m) frames bad
    unfold Ends at hends
    rw [Set.mem_singleton_iff.mp hstack] at hends
    rcases hends with hends | hends <;> cases hends
  · intro hnot
    by_cases hb : Balanced Token.side ts
    · obtain ⟨items, hitems⟩ := exists_parses hb
      have hloops : ¬ Loops items := fun hl => hnot ⟨items, hrange.symm ▸ hitems, hl⟩
      obtain ⟨n, hn⟩ := (hnode items hitems).halting_of_not_loops hloops (m := m)
      exact ⟨n, hn n le_rfl bad⟩
    · rw [← hrange] at hb
      exact ⟨1, .inl (only_unbalanced hb 0 bad)⟩

/-- `2*(3+4)` -/
theorem eval_ends_product : ∃ (d' : ExprState) (frames : ℕ),
    makeToken ['2', '*', '(', '3', '+', '4', ')'] .init = .ok (true, d') ∧
      Ends (eval (tokenise d'.tokens d'.lengthToken) (oneInst 0 0) frames 0 (d'.lengthToken - 1) false) := by
  obtain ⟨d', h⟩ : ∃ d', makeToken ['2', '*', '(', '3', '+', '4', ')'] .init = .ok (true, d') := ⟨_, rfl⟩
  obtain ⟨hlength, hslice⟩ : d'.lengthToken = 7 ∧ Slice d'.tokens 0 [⟨.dec, ['2']⟩, ⟨.star, ['*']⟩, ⟨.lparen, ['(']⟩,
      ⟨.dec, ['3']⟩, ⟨.plus, ['+']⟩, ⟨.dec, ['4']⟩, ⟨.rparen, [')']⟩] := by
    cases h
    exact ⟨rfl, rfl, rfl, rfl, rfl, rfl, rfl, rfl, trivial⟩
  obtain ⟨frames, hends⟩ := (eval_ends_iff h (oneInst 0 0) false).mpr (by
    rintro ⟨items, hitems, hloops⟩
    have hrange : range (tokenise d'.tokens 7) 0 ((7 : ℕ) - 1) = _ := range_eq_of_slice (tokenise_slice hslice) rfl
    rw [hlength, hrange] at hitems
    exact hitems.not_loops (by decide) hloops)
  exact ⟨d', frames, h, hends⟩

/-- `1 2 3`: the range of `2` and `3` leads back to itself. -/
theorem eval_does_not_end : ∃ d', makeToken ['1', ' ', '2', ' ', '3'] .init = .ok (true, d') ∧
    ¬ ∃ frames, Ends (eval (tokenise d'.tokens d'.lengthToken) (oneInst 0 0) frames 0 (d'.lengthToken - 1) false) := by
  obtain ⟨d', h⟩ : ∃ d', makeToken ['1', ' ', '2', ' ', '3'] .init = .ok (true, d') := ⟨_, rfl⟩
  refine ⟨d', h, ?_⟩
  rintro ⟨frames, hends⟩
  obtain ⟨hlength, hslice⟩ : d'.lengthToken = 3 ∧
      Slice d'.tokens 0 [⟨.dec, ['1']⟩, ⟨.dec, ['2']⟩, ⟨.dec, ['3']⟩] := by
    cases h
    exact ⟨rfl, rfl, rfl, rfl, trivial⟩
  have hnode : Node (tokenise d'.tokens 3) 0 2
      [.token ⟨.dec, ['1']⟩, .token ⟨.dec, ['2']⟩, .token ⟨.dec, ['3']⟩] :=
    ⟨_, .token rfl (.token rfl (.token rfl .nil)), tokenise_slice hslice, rfl, le_rfl, by decide, by simp⟩
  have hrow : ∀ c : List Item, (∀ i ∈ c, i.precedence = -1) → 2 ≤ c.length → ¬ Dead c := fun c hc hlen =>
    Row.not_dead ⟨hlen, fun i hi => by rw [hc i hi]; decide⟩
  have hloops : Loops [.token ⟨.dec, ['1']⟩, .token ⟨.dec, ['2']⟩, .token ⟨.dec, ['3']⟩] :=
    ⟨[], .token ⟨.dec, ['2']⟩, .token ⟨.dec, ['3']⟩, [], rfl, by decide, by decide,
      hrow _ (by simp [Item.precedence, getOpPrecedence]) (by decide),
      hrow _ (by simp [Item.precedence, getOpPrecedence]) (by decide)⟩
  have hstack := hnode.stacks_of_loops hloops (m := oneInst 0 0) frames false
  rw [hlength] at hends
  unfold Ends at hends
  rw [show ((3 : ℕ) : ℤ) - 1 = 2 from rfl, Set.mem_singleton_iff.mp hstack] at hends
  rcases hends with hends | hends <;> cases hends

end Nemu
