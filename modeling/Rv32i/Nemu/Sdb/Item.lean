import Rv32i.Nemu.Sdb.Matching
import Rv32i.Nemu.Sdb.Termination

/-!
# Operands, operators and groups

A balanced range as a list of items: the tokens outside all parentheses, and the groups in parentheses.

* `Parses` — the items of a list of tokens; `exists_parses`;
* `Dead` — an operator comes to stand alone when the range is split at its main operators, one after the
  other; `dead_split` goes from a range to the two sides of its main operator.
-/

namespace Nemu

open Bracket

inductive Item
  | token (t : Token)
  | group (body : List Item)

namespace Item

/-- The precedence of a token; a group is an operand. -/
def precedence : Item → ℤ
  | token t => getOpPrecedence t.type
  | group _ => 0

end Item

/-- The items that the tokens stand for. -/
inductive Parses : List Item → List Token → Prop
  | nil : Parses [] []
  | token {t is ts} : t.side = .plain → Parses is ts → Parses (.token t :: is) (t :: ts)
  | group {l bs body r is ts} : l.side = .opening → Parses bs body → r.side = .closing → Parses is ts →
      Parses (.group bs :: is) (l :: (body ++ r :: ts))

theorem Parses.balanced {is : List Item} {ts : List Token} (h : Parses is ts) : Balanced Token.side ts := by
  induction h with
  | nil => exact .nil
  | token ht _ ih => exact .plain ht ih
  | group hl _ hr _ ihb ih => exact .group hl ihb hr ih

theorem exists_parses {ts : List Token} (h : Balanced Token.side ts) : ∃ is, Parses is ts := by
  induction h with
  | nil => exact ⟨[], .nil⟩
  | plain ht _ ih =>
    obtain ⟨is, his⟩ := ih
    exact ⟨_, .token ht his⟩
  | group hl _ hr _ ihb ih =>
    obtain ⟨bs, hbs⟩ := ihb
    obtain ⟨is, his⟩ := ih
    exact ⟨_, .group hl hbs hr his⟩

theorem Parses.append {is js : List Item} {ts us : List Token} (h : Parses is ts) (h' : Parses js us) :
    Parses (is ++ js) (ts ++ us) := by
  induction h with
  | nil => exact h'
  | token ht _ ih => exact .token ht ih
  | @group l bs body r is ts hl hb hr _ _ ih =>
    have happend : l :: (body ++ r :: ts) ++ us = l :: (body ++ r :: (ts ++ us)) := by simp
    rw [List.cons_append, happend]
    exact .group hl hb hr ih

theorem Parses.split {is js : List Item} {ts : List Token} (h : Parses (is ++ js) ts) :
    ∃ us vs, ts = us ++ vs ∧ Parses is us ∧ Parses js vs := by
  induction is generalizing ts with
  | nil => exact ⟨[], ts, rfl, .nil, h⟩
  | cons i is ih =>
    cases h with
    | token ht hrest =>
      obtain ⟨us, vs, rfl, hus, hvs⟩ := ih hrest
      exact ⟨_ :: us, vs, rfl, .token ht hus, hvs⟩
    | group hl hb hr hrest =>
      obtain ⟨us, vs, rfl, hus, hvs⟩ := ih hrest
      exact ⟨_, vs, by rw [List.cons_append, List.append_assoc]; rfl, .group hl hb hr hus, hvs⟩

theorem Parses.plain {is : List Item} {ts : List Token} (h : Parses is ts) {t : Token} (ht : .token t ∈ is) :
    t.side = .plain := by
  induction h with
  | nil => cases ht
  | token hx _ ih =>
    rcases List.mem_cons.mp ht with heq | ht
    · rwa [Item.token.inj heq]
    · exact ih ht
  | group _ _ _ _ _ ih =>
    rcases List.mem_cons.mp ht with heq | ht
    · cases heq
    · exact ih ht

theorem Parses.outside {P : ℤ → Prop} {is : List Item} {ts : List Token} (h : Parses is ts)
    (hP : ∀ t, .token t ∈ is → P (getOpPrecedence t.type)) : Outside P ts := by
  induction h with
  | nil => exact .nil P
  | token ht _ ih =>
    exact (outside_plain ht).mpr ⟨hP _ List.mem_cons_self, ih fun t h => hP t (List.mem_cons_of_mem _ h)⟩
  | group hl hb hr _ _ ih =>
    exact outside_group hl hb.balanced hr (ih fun t h => hP t (List.mem_cons_of_mem _ h))

theorem Parses.length_le {is : List Item} {ts : List Token} (h : Parses is ts) : is.length ≤ ts.length := by
  induction h with
  | nil => exact le_rfl
  | token _ _ ih => simpa using ih
  | group _ _ _ _ _ ih =>
    simp only [List.length_cons, List.length_append]
    omega

/-! ## Operators that come to stand alone -/

/-- No item, or an operator. -/
def Item.OpOrNone (i : Option Item) : Prop := ∀ u ∈ i, 1 ≤ u.precedence

/-- While it is split at its main operators, the list comes to a range that is an operator alone: both its neighbours
are main operators before it.  A group comes to be a range of its own between operators. -/
inductive Dead : List Item → Prop
  | lone {s op t} : 1 ≤ op.precedence → (∀ u ∈ s.getLast?, op.precedence < u.precedence) →
      (∀ u ∈ t.head?, op.precedence ≤ u.precedence) → Dead (s ++ op :: t)
  | group {s body t} : Item.OpOrNone s.getLast? → Item.OpOrNone t.head? → Dead body → Dead (s ++ .group body :: t)

/-- An item between two neighbours is such an operator, or a group with one. -/
def DeadBetween (u v : Option Item) (y : Item) : Prop :=
  (1 ≤ y.precedence ∧ (∀ a ∈ u, y.precedence < a.precedence) ∧ ∀ a ∈ v, y.precedence ≤ a.precedence) ∨
    Item.OpOrNone u ∧ Item.OpOrNone v ∧ ∃ body, y = .group body ∧ Dead body

theorem dead_iff {xs : List Item} : Dead xs ↔ ∃ s y t, xs = s ++ y :: t ∧ DeadBetween s.getLast? t.head? y := by
  constructor
  · rintro (⟨hop, hs, ht⟩ | ⟨hs, ht, hbody⟩)
    · exact ⟨_, _, _, rfl, .inl ⟨hop, hs, ht⟩⟩
    · exact ⟨_, _, _, rfl, .inr ⟨hs, ht, _, rfl, hbody⟩⟩
  · rintro ⟨s, y, t, rfl, ⟨hop, hs, ht⟩ | ⟨hs, ht, body, rfl, hbody⟩⟩
    · exact .lone hop hs ht
    · exact .group hs ht hbody

theorem DeadBetween.mono {u u' v v' : Option Item} {y : Item} (h : DeadBetween u v y) (hu : ∀ a ∈ u', a ∈ u)
    (hv : ∀ a ∈ v', a ∈ v) : DeadBetween u' v' y := by
  rcases h with ⟨hop, hl, hr⟩ | ⟨hl, hr, hbody⟩
  · exact .inl ⟨hop, fun a ha => hl a (hu a ha), fun a ha => hr a (hv a ha)⟩
  · exact .inr ⟨fun a ha => hl a (hu a ha), fun a ha => hr a (hv a ha), hbody⟩

/-- An operand next to it keeps an item from it. -/
theorem DeadBetween.neighbour {u v : Option Item} {y a : Item} (h : DeadBetween u v y) (ha : a ∈ u ∨ a ∈ v) :
    1 ≤ a.precedence := by
  rcases h with ⟨hop, hl, hr⟩ | ⟨hl, hr, -⟩
  · rcases ha with ha | ha
    · exact hop.trans (hl a ha).le
    · exact hop.trans (hr a ha)
  · rcases ha with ha | ha
    · exact hl a ha
    · exact hr a ha

theorem not_dead_nil : ¬ Dead [] := by
  rw [dead_iff]
  rintro ⟨s, y, t, h, -⟩
  exact List.append_ne_nil_of_right_ne_nil s (List.cons_ne_nil y t) h.symm

theorem dead_singleton {y : Item} : Dead [y] ↔ 1 ≤ y.precedence ∨ ∃ body, y = .group body ∧ Dead body := by
  rw [dead_iff]
  constructor
  · rintro ⟨s, z, t, h, hz⟩
    obtain ⟨rfl, hrest⟩ | ⟨s', rfl, hrest⟩ := List.cons_eq_append_iff.mp h
    · obtain ⟨rfl, -⟩ := List.cons.inj hrest
      exact hz.imp And.left fun hz => hz.2.2
    · exact absurd hrest.symm (List.append_ne_nil_of_right_ne_nil s' (List.cons_ne_nil z t))
  · intro h
    refine ⟨[], y, [], rfl, ?_⟩
    rcases h with h | h
    · exact .inl ⟨h, by simp, by simp⟩
    · exact .inr ⟨by simp [Item.OpOrNone], by simp [Item.OpOrNone], h⟩

/-- **From a range to the sides of its main operator.** -/
theorem dead_split {l r : List Item} {op : Item} (hop : 1 ≤ op.precedence)
    (hmain : Rightmost.IsMain Item.precedence l op r) (hne : l ≠ [] ∨ r ≠ []) :
    Dead (l ++ op :: r) ↔ Dead l ∨ Dead r := by
  simp only [dead_iff]
  constructor
  · rintro ⟨s, y, t, h, hy⟩
    rcases append_cons_cases h.symm with ⟨as, rfl, rfl⟩ | ⟨rfl, rfl⟩ | ⟨bs, rfl⟩
    · -- before the main operator
      refine .inl ⟨s, y, as, rfl, hy.mono (fun a ha => ha) fun a ha => ?_⟩
      rw [List.head?_append, Option.mem_def.mp ha]
      rfl
    · -- the main operator: a neighbour on either side is none before it
      exfalso
      obtain rfl : s = l := by simpa using h.symm
      rcases hy with ⟨-, hl, hr⟩ | ⟨-, -, body, rfl, -⟩
      · rcases hne with hne | hne
        · obtain ⟨u, hu⟩ := Option.ne_none_iff_exists'.mp (mt List.getLast?_eq_none_iff.mp hne)
          have hlt := hl u hu
          have hle := hmain.1 u (List.mem_of_mem_getLast? hu)
          omega
        · obtain ⟨u, us, rfl⟩ := List.exists_cons_of_ne_nil hne
          have hle := hr u rfl
          have hlt := hmain.2 u List.mem_cons_self
          omega
      · exact absurd hop (by simp [Item.precedence])
    · refine .inr ⟨bs, y, t, rfl, hy.mono (fun a ha => ?_) fun a ha => ha⟩
      have hs : s = l ++ op :: bs := by
        have := h
        rw [← List.cons_append, ← List.append_assoc] at this
        exact (List.append_cancel_right this).symm
      rw [hs, List.getLast?_append, List.getLast?_cons, Option.mem_def.mp ha]
      rfl
  · rintro (⟨s, y, t, rfl, hy⟩ | ⟨s, y, t, rfl, hy⟩)
    · refine ⟨s, y, t ++ op :: r, by simp, ?_⟩
      cases t with
      | cons z t => exact hy
      | nil =>
        rcases hy with ⟨hyop, hl, -⟩ | ⟨hl, -, hbody⟩
        · refine .inl ⟨hyop, hl, ?_⟩
          rintro a ⟨⟩
          exact hmain.1 y (List.mem_append_right s List.mem_cons_self)
        · refine .inr ⟨hl, ?_, hbody⟩
          rintro a ⟨⟩
          exact hop
    · refine ⟨l ++ op :: s, y, t, by simp, ?_⟩
      rcases List.eq_nil_or_concat' s with rfl | ⟨s', z, rfl⟩
      · rcases hy with ⟨hyop, -, hr⟩ | ⟨-, hr, hbody⟩
        · refine .inl ⟨hyop, ?_, hr⟩
          intro a ha
          obtain rfl : op = a := by simpa using ha
          exact hmain.2 y (List.mem_append_right [] List.mem_cons_self)
        · refine .inr ⟨?_, hr, hbody⟩
          intro a ha
          obtain rfl : op = a := by simpa using ha
          exact hop
      · have hassoc : l ++ op :: (s' ++ [z]) = l ++ op :: s' ++ [z] := by simp
        rw [hassoc, List.getLast?_concat]
        rwa [List.getLast?_concat] at hy

/-- What follows a list that ends in an operand and an operator does not change what is in it. -/
theorem Dead.append {v t : List Item} (h : Dead v) (hlast : ∀ y ∈ v.getLast?, y.precedence < 1)
    (ht : Item.OpOrNone t.head?) : Dead (v ++ t) := by
  obtain ⟨s, y, w, rfl, hy⟩ := dead_iff.mp h
  refine dead_iff.mpr ⟨s, y, w ++ t, by simp, ?_⟩
  cases w with
  | cons z w => exact hy
  | nil =>
    have hoperand : y.precedence < 1 := hlast y (by simp)
    rcases hy with ⟨hop, -⟩ | ⟨hs, -, hbody⟩
    · omega
    · exact .inr ⟨hs, ht, hbody⟩

/-- Of two operands next to each other, the second hides what follows. -/
theorem Dead.append_operands {s t : List Item} {a b : Item} (ha : a.precedence < 1) (hb : b.precedence < 1)
    (h : Dead (s ++ [a, b])) : Dead (s ++ a :: b :: t) := by
  obtain ⟨s', y, w, hsplit, hy⟩ := dead_iff.mp h
  rcases append_cons_cases hsplit.symm with ⟨as, rfl, rfl⟩ | ⟨rfl, rfl⟩ | ⟨bs, hbs⟩
  · refine dead_iff.mpr ⟨s', y, as ++ a :: b :: t, by simp, ?_⟩
    cases as with
    | nil => exact hy
    | cons z as => exact hy
  · have := hy.neighbour (.inr rfl)
    omega
  · obtain ⟨rfl, hbw⟩ | ⟨bs', rfl, hnil⟩ := List.cons_eq_append_iff.mp hbs
    · obtain ⟨rfl, rfl⟩ := List.cons.inj hbw
      have hs : s' = s ++ [a] := by
        have hassoc : s ++ [a, y] = (s ++ [a]) ++ [y] := by simp
        exact (List.append_cancel_right (hassoc.symm.trans hsplit)).symm
      rw [hs, List.getLast?_concat] at hy
      have := hy.neighbour (.inl rfl)
      omega
    · simp at hnil

/-- Operands only, and more than one. -/
structure Row (c : List Item) : Prop where
  length : 2 ≤ c.length
  operand : ∀ i ∈ c, i.precedence < 1

theorem Row.not_dead {c : List Item} (hc : Row c) : ¬ Dead c := by
  intro h
  obtain ⟨s, y, t, rfl, hy⟩ := dead_iff.mp h
  rcases List.eq_nil_or_concat' s with rfl | ⟨s', u, rfl⟩
  · cases t with
    | nil =>
      have := hc.length
      simp at this
    | cons v t =>
      have := hc.operand v (by simp)
      have := hy.neighbour (.inr rfl)
      omega
  · rw [List.getLast?_concat] at hy
    have := hc.operand u (by simp)
    have := hy.neighbour (.inl rfl)
    omega

/-- An operator of a list that stands at a main operator, or a row of operands, or one item or none. -/
theorem item_cases (xs : List Item) : xs = [] ∨ (∃ y, xs = [y]) ∨ Row xs ∨
    ∃ l op r, xs = l ++ op :: r ∧ 1 ≤ op.precedence ∧ Rightmost.IsMain Item.precedence l op r ∧ (l ≠ [] ∨ r ≠ []) := by
  by_cases hnil : xs = []
  · exact .inl hnil
  obtain ⟨l, x, r, rfl, hmain⟩ := @Rightmost.exists_isMain _ Item.precedence _ hnil
  by_cases hone : l = [] ∧ r = []
  · obtain ⟨rfl, rfl⟩ := hone
    exact .inr (.inl ⟨x, rfl⟩)
  have hne : l ≠ [] ∨ r ≠ [] := not_and_or.mp hone
  by_cases hx : 1 ≤ x.precedence
  · exact .inr (.inr (.inr ⟨l, x, r, rfl, hx, hmain, hne⟩))
  · refine .inr (.inr (.inl ⟨?_, ?_⟩))
    · rw [List.length_append, List.length_cons]
      rcases hne with hne | hne
      · have := List.length_pos_of_ne_nil hne
        omega
      · have := List.length_pos_of_ne_nil hne
        omega
    · intro i hi
      rcases List.mem_append.mp hi with hi | hi
      · have := hmain.1 i hi
        omega
      · rcases List.mem_cons.mp hi with rfl | hi
        · omega
        · have := hmain.2 i hi
          omega

/-- Two operands next to each other, with no operator before them that comes to stand alone; nor with `w` in front. -/
def Juxtaposed (w k : List Item) : Prop :=
  ∃ s a b t, k = s ++ a :: b :: t ∧ a.precedence < 1 ∧ b.precedence < 1 ∧ ¬ Dead (s ++ [a, b]) ∧
    ¬ Dead (w ++ (s ++ [a, b]))

/-- Such operands stand behind the first token, or in the group that the range begins with, if it is an operand of its
own there. -/
def Loops : List Item → Prop
  | [] => False
  | .token x :: k => Juxtaposed [.token x] k
  | .group k :: rest => Item.OpOrNone rest.head? ∧ Juxtaposed [] k

end Nemu
