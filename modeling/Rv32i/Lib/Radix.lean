import Mathlib.Data.List.Nodup
import Mathlib.Data.List.Pairwise
import Mathlib.Data.List.Perm.Basic
import Mathlib.Logic.Function.Basic

/-!
# Radix trees in a store of tables

A table is a row of entries; an entry may link to another table.  A tree of depth `n` has `n` links from its root to a
leaf table, and the entry that a path names is in a leaf table.

* `tables`, `entry`, `Links` — the tables of a tree, its entries and its links; they depend on those tables only;
* `reach`, `reach_grown` — a walk that adds the tables it misses: the tree gets these tables and keeps its entries;
* `put_leaf` — an entry is stored in a leaf table;
* `release`, `release_eq` — a teardown gives back every table once, and reads none that was given back.
-/

namespace Radix

variable {β ι ε : Type*}

section Tree

variable (link : ε → Option β) (idx : List ι)

/-- The tables of a tree of depth `n`, each behind those it links to. -/
def tables (m : β → ι → ε) : ℕ → β → List β
  | 0, b => [b]
  | n + 1, b => (idx.flatMap fun i => (link (m b i)).elim [] (tables m n)) ++ [b]

/-- The entry behind a path of links; `z` where a link is missing. -/
def entry (z : ε) (m : β → ι → ε) : List ι → β → ι → ε
  | [], b, k => m b k
  | i :: is, b, k => (link (m b i)).elim z fun c => entry z m is c k

/-- The leaf table behind a path of links. -/
def leafAt (m : β → ι → ε) : List ι → β → Option β
  | [], b => some b
  | i :: is, b => (link (m b i)).bind (leafAt m is)

/-- The entries that a walk along a path reads satisfy `Q`. -/
def Along (Q : ε → Prop) (m : β → ι → ε) : List ι → β → Prop
  | [], _ => True
  | i :: is, b => Q (m b i) ∧ ∀ c, link (m b i) = some c → Along Q m is c

/-- The entries by which the tables of a tree are linked satisfy `Q`. -/
def Links (Q : ε → Prop) (m : β → ι → ε) : ℕ → β → Prop
  | 0, _ => True
  | n + 1, b => ∀ i ∈ idx, ∀ c, link (m b i) = some c → Q (m b i) ∧ Links Q m n c

end Tree

section Tables

variable {link : ε → Option β} {idx : List ι} {m m' : β → ι → ε} {n : ℕ} {b c t : β} {i j k : ι} {is : List ι} {z : ε}

theorem self_mem_tables : b ∈ tables link idx m n b := by
  cases n with
  | zero => exact List.mem_singleton_self b
  | succ n => exact List.mem_append_right _ (List.mem_singleton_self b)

theorem child_subset (hi : i ∈ idx) (hc : link (m b i) = some c) :
    tables link idx m n c ⊆ tables link idx m (n + 1) b := by
  intro t ht
  refine List.mem_append_left _ (List.mem_flatMap.mpr ⟨i, hi, ?_⟩)
  rw [hc]
  exact ht

/-- **The tables of a tree depend on these tables only.** -/
theorem tables_congr (h : ∀ t ∈ tables link idx m n b, m' t = m t) :
    tables link idx m' n b = tables link idx m n b := by
  induction n generalizing b with
  | zero => rfl
  | succ n ih =>
    have hb : m' b = m b := h b self_mem_tables
    have hchild : ∀ i ∈ idx, (link (m' b i)).elim [] (tables link idx m' n) =
        (link (m b i)).elim [] (tables link idx m n) := by
      intro i hi
      rw [hb]
      cases hc : link (m b i) with
      | none => rfl
      | some c => exact ih fun t ht => h t (child_subset hi hc ht)
    rw [tables, tables]
    congr 1
    exact List.flatMap_congr hchild

/-- **So do its entries.** -/
theorem entry_congr (h : ∀ t ∈ tables link idx m is.length b, m' t = m t) (his : ∀ i ∈ is, i ∈ idx) :
    entry link z m' is b k = entry link z m is b k := by
  induction is generalizing b with
  | nil => exact congrFun (h b self_mem_tables) k
  | cons i is ih =>
    have hb : m' b = m b := h b self_mem_tables
    rw [entry, entry, hb]
    cases hc : link (m b i) with
    | none => rfl
    | some c =>
      exact ih (fun t ht => h t (child_subset (his i List.mem_cons_self) hc ht))
        fun j hj => his j (List.mem_cons_of_mem _ hj)

theorem along_of_tables {Q : ε → Prop} (hQ : ∀ t ∈ tables link idx m is.length b, ∀ i, Q (m t i))
    (his : ∀ i ∈ is, i ∈ idx) : Along link Q m is b := by
  induction is generalizing b with
  | nil => exact trivial
  | cons i is ih =>
    obtain ⟨hi, his⟩ := List.forall_mem_cons.mp his
    exact ⟨hQ b self_mem_tables i, fun c hc => ih (fun t ht => hQ t (child_subset hi hc ht)) his⟩

theorem links_congr {Q : ε → Prop} (h : ∀ t ∈ tables link idx m n b, m' t = m t) (hlinks : Links link idx Q m n b) :
    Links link idx Q m' n b := by
  induction n generalizing b with
  | zero => exact trivial
  | succ n ih =>
    intro i hi c hc
    rw [h b self_mem_tables] at hc ⊢
    obtain ⟨hQ, hc'⟩ := hlinks i hi c hc
    exact ⟨hQ, ih (fun t ht => h t (child_subset hi hc ht)) hc'⟩

theorem links_of_clear {Q : ε → Prop} (h : ∀ i, link (m b i) = none) : Links link idx Q m n b := by
  cases n with
  | zero => exact trivial
  | succ n =>
    intro i _ c hc
    rw [h i] at hc
    cases hc

/-- A table without links. -/
theorem tables_of_clear (h : ∀ i, link (m b i) = none) : tables link idx m n b = [b] := by
  cases n with
  | zero => rfl
  | succ n =>
    have hnil : (idx.flatMap fun i => (link (m b i)).elim [] (tables link idx m n)) = [] := by
      refine List.flatMap_eq_nil_iff.mpr fun i _ => ?_
      rw [h i]
      rfl
    rw [tables, hnil, List.nil_append]

theorem entry_of_clear (hz : link z = none) (h : ∀ i, m b i = z) : entry link z m is b k = z := by
  cases is with
  | nil => exact h k
  | cons i is =>
    rw [entry, h i, hz]
    rfl

theorem leafAt_mem (his : ∀ i ∈ is, i ∈ idx) (h : leafAt link m is b = some c) : c ∈ tables link idx m is.length b := by
  induction is generalizing b with
  | nil =>
    obtain rfl : b = c := Option.some.inj h
    exact self_mem_tables
  | cons i is ih =>
    obtain ⟨hi, his⟩ := List.forall_mem_cons.mp his
    cases hd : link (m b i) with
    | none =>
      rw [leafAt, hd] at h
      cases h
    | some d =>
      rw [leafAt, hd] at h
      exact child_subset hi hd (ih his h)

theorem entry_of_leafAt (h : leafAt link m is b = some c) : entry link z m is b k = m c k := by
  induction is generalizing b with
  | nil =>
    obtain rfl : b = c := Option.some.inj h
    rfl
  | cons i is ih =>
    cases hd : link (m b i) with
    | none =>
      rw [leafAt, hd] at h
      cases h
    | some d =>
      rw [leafAt, hd] at h
      rw [entry, hd]
      exact ih h

/-! ## Trees without sharing -/

/-- No table of a child is the table itself, and two children have no table in common. -/
theorem nodup_succ (h : (tables link idx m (n + 1) b).Nodup) :
    (∀ i ∈ idx, ∀ c, link (m b i) = some c → (tables link idx m n c).Nodup ∧ b ∉ tables link idx m n c) ∧
    ∀ i ∈ idx, ∀ j ∈ idx, i ≠ j → ∀ c d, link (m b i) = some c → link (m b j) = some d →
      (tables link idx m n c).Disjoint (tables link idx m n d) := by
  obtain ⟨hflat, -, hdisj⟩ := List.nodup_append'.mp h
  obtain ⟨hnodup, hpair⟩ := List.nodup_flatMap.mp hflat
  constructor
  · intro i hi c hc
    constructor
    · have hn := hnodup i hi
      rwa [hc] at hn
    · intro hb
      refine hdisj (List.mem_flatMap.mpr ⟨i, hi, ?_⟩) (List.mem_singleton_self b)
      rw [hc]
      exact hb
  · intro i hi j hj hij c d hc hd
    have hsymm : Std.Symm (Function.onFun List.Disjoint fun i => (link (m b i)).elim [] (tables link idx m n)) :=
      ⟨fun _ _ h t ht ht' => h ht' ht⟩
    have hdis : ((link (m b i)).elim [] (tables link idx m n)).Disjoint
        ((link (m b j)).elim [] (tables link idx m n)) := hpair.forall hi hj hij
    rw [hc, hd] at hdis
    exact hdis

/-- The leaf table of a path of links is not the root. -/
theorem leafAt_ne (hi : i ∈ idx) (his : ∀ i ∈ is, i ∈ idx) (hnodup : (tables link idx m (is.length + 1) b).Nodup)
    (h : leafAt link m (i :: is) b = some c) : c ≠ b := by
  cases hd : link (m b i) with
  | none =>
    rw [leafAt, hd] at h
    cases h
  | some d =>
    rw [leafAt, hd] at h
    rintro rfl
    exact ((nodup_succ hnodup).1 i hi d hd).2 (leafAt_mem his h)

theorem flatMap_perm [DecidableEq ι] {f f' : ι → List β} {new : List β} (hidx : idx.Nodup) (hi : i ∈ idx)
    (hsame : ∀ j ∈ idx, j ≠ i → f' j = f j) (hnew : (f' i).Perm (new ++ f i)) :
    (idx.flatMap f').Perm (new ++ idx.flatMap f) := by
  have hidx' : idx.Perm (i :: idx.erase i) := List.perm_cons_erase hi
  have hrest : (idx.erase i).flatMap f' = (idx.erase i).flatMap f := by
    refine List.flatMap_congr fun j hj => hsame j (List.mem_of_mem_erase hj) ?_
    rintro rfl
    exact hidx.not_mem_erase hj
  have hmid : ((i :: idx.erase i).flatMap f').Perm (new ++ (i :: idx.erase i).flatMap f) := by
    rw [List.flatMap_cons, List.flatMap_cons, hrest, ← List.append_assoc]
    exact hnew.append_right _
  calc (idx.flatMap f').Perm ((i :: idx.erase i).flatMap f') := hidx'.flatMap_right f'
    List.Perm _ (new ++ (i :: idx.erase i).flatMap f) := hmid
    List.Perm _ (new ++ idx.flatMap f) := (hidx'.flatMap_right f).symm.append_left new

end Tables

/-! ## Growth -/

/-- A tree after it got the tables `new`: it keeps its entries, and the other tables keep theirs.  The links that are
new are entries that `mk` makes. -/
structure Grown (link : ε → Option β) (idx : List ι) (mk : β → ε) (z : ε) (n : ℕ) (b : β) (m m' : β → ι → ε)
    (new : List β) : Prop where
  tables : (Radix.tables link idx m' n b).Perm (new ++ Radix.tables link idx m n b)
  other : ∀ t, t ∉ Radix.tables link idx m n b → t ∉ new → m' t = m t
  entry : ∀ is k, is.length = n → (∀ i ∈ is, i ∈ idx) → Radix.entry link z m' is b k = Radix.entry link z m is b k
  made : ∀ t j, t ∉ new ∧ m' t j = m t j ∨ m' t j = z ∨ ∃ c ∈ new, m' t j = mk c

section Growth

variable {link : ε → Option β} {idx : List ι} {mk : β → ε} {z : ε} {m m' : β → ι → ε} {n : ℕ} {b c : β}
  {i : ι} {new : List β}

/-- The links of a tree that grew are those it had and those that `mk` made. -/
theorem Grown.links {Q : ε → Prop} {l : ℕ} {t : β} (h : Grown link idx mk z n b m m' new) (hz : link z = none)
    (hmk : ∀ c ∈ new, link (mk c) = some c ∧ Q (mk c)) (ht : t ∈ new ∨ Links link idx Q m l t) :
    Links link idx Q m' l t := by
  induction l generalizing t with
  | zero => exact trivial
  | succ l ih =>
    intro i hi c hc
    obtain ⟨hnew, heq⟩ | heq | ⟨d, hd, heq⟩ := h.made t i
    · obtain ht | ht := ht
      · exact absurd ht hnew
      rw [heq] at hc ⊢
      obtain ⟨hQ, hc'⟩ := ht i hi c hc
      exact ⟨hQ, ih (.inr hc')⟩
    · rw [heq, hz] at hc
      cases hc
    · obtain ⟨hlink, hQ⟩ := hmk d hd
      rw [heq, hlink] at hc
      cases hc
      rw [heq]
      exact ⟨hQ, ih (.inl hd)⟩

/-- A tree grows by what one child grows. -/
theorem grown_succ [DecidableEq ι] (hidx : idx.Nodup) (hi : i ∈ idx) (hnodup : (tables link idx m (n + 1) b).Nodup)
    (hfresh : ∀ t ∈ new, t ∉ tables link idx m (n + 1) b) (hroot : ∀ j, j ≠ i → m' b j = m b j)
    (hlink : link (m' b i) = some c)
    (htables : (tables link idx m' n c).Perm (new ++ (link (m b i)).elim [] (tables link idx m n)))
    (hother : ∀ t, t ∉ (link (m b i)).elim [] (tables link idx m n) → t ≠ b → t ∉ new → m' t = m t)
    (hentry : ∀ is k, is.length = n → (∀ i ∈ is, i ∈ idx) →
      entry link z m' is c k = (link (m b i)).elim z fun d => entry link z m is d k)
    (hmade : ∀ t j, t ∉ new ∧ m' t j = m t j ∨ m' t j = z ∨ ∃ c ∈ new, m' t j = mk c) :
    Grown link idx mk z (n + 1) b m m' new := by
  obtain ⟨hself, hdisj⟩ := nodup_succ hnodup
  have hchild : ∀ j ∈ idx, j ≠ i → ∀ d, link (m b j) = some d → ∀ t ∈ tables link idx m n d, m' t = m t := by
    intro j hj hji d hd t ht
    refine hother t ?_ ?_ fun hnew => hfresh t hnew (child_subset hj hd ht)
    · cases hc : link (m b i) with
      | none => exact List.not_mem_nil
      | some c => exact fun htc => hdisj j hj i hi hji d c hd hc ht htc
    · rintro rfl
      exact (hself j hj d hd).2 ht
  refine ⟨?_, ?_, ?_, hmade⟩
  · rw [tables, tables, ← List.append_assoc]
    refine List.Perm.append_right _ (flatMap_perm hidx hi ?_ ?_)
    · intro j hj hji
      rw [hroot j hji]
      cases hd : link (m b j) with
      | none => rfl
      | some d => exact tables_congr (hchild j hj hji d hd)
    · rw [hlink]
      exact htables
  · intro t ht hnew
    refine hother t (fun hc => ht ?_) (fun hb => ht (hb ▸ self_mem_tables)) hnew
    cases hd : link (m b i) with
    | none =>
      rw [hd] at hc
      exact absurd hc List.not_mem_nil
    | some d =>
      rw [hd] at hc
      exact child_subset hi hd hc
  · intro is k hlen his
    obtain _ | ⟨j, is⟩ := is
    · exact absurd hlen (by simp)
    have hlen : is.length = n := Nat.succ.inj hlen
    have his' : ∀ i ∈ is, i ∈ idx := fun l hl => his l (List.mem_cons_of_mem _ hl)
    rw [entry, entry]
    by_cases hji : j = i
    · subst hji
      rw [hlink]
      exact hentry is k hlen his'
    · rw [hroot j hji]
      cases hd : link (m b j) with
      | none => rfl
      | some d =>
        have hd' : ∀ t ∈ tables link idx m is.length d, m' t = m t := by
          rw [hlen]
          exact hchild j (his j List.mem_cons_self) hji d hd
        exact entry_congr hd' his'

/-- The tree of a child grew. -/
theorem Grown.child [DecidableEq ι] (hidx : idx.Nodup) (hi : i ∈ idx)
    (hnodup : (Radix.tables link idx m (n + 1) b).Nodup) (hfresh : ∀ t ∈ new, t ∉ Radix.tables link idx m (n + 1) b)
    (hd : link (m b i) = some c) (h : Grown link idx mk z n c m m' new) :
    Grown link idx mk z (n + 1) b m m' new ∧ m' b = m b := by
  have hb : m' b = m b :=
    h.other b ((nodup_succ hnodup).1 i hi c hd).2 fun hnew => hfresh b hnew self_mem_tables
  refine ⟨grown_succ hidx hi hnodup hfresh (fun j _ => by rw [hb]) (by rw [hb, hd]) ?_ ?_ ?_ h.made, hb⟩
  · rw [hd]
    exact h.tables
  · rw [hd]
    exact fun t ht _ hnew => h.other t ht hnew
  · rw [hd]
    exact h.entry

end Growth

/-! ## Stores -/

section Store

variable [DecidableEq β]

/-- All entries of table `b` get the value `z`. -/
def clear (z : ε) (m : β → ι → ε) (b : β) : β → ι → ε := Function.update m b fun _ => z

theorem clear_self {z : ε} {m : β → ι → ε} {b : β} {i : ι} : clear z m b b i = z := by
  rw [clear, Function.update_self]

theorem clear_other {z : ε} {m : β → ι → ε} {b b' : β} (h : b' ≠ b) : clear z m b b' = m b' :=
  Function.update_of_ne h _ _

variable [DecidableEq ι]

/-- The entry `i` of table `b` gets the value `e`. -/
def put (m : β → ι → ε) (b : β) (i : ι) (e : ε) : β → ι → ε :=
  Function.update m b (Function.update (m b) i e)

section Put

variable {m : β → ι → ε} {b b' : β} {i j : ι} {e : ε}

theorem put_self : put m b i e b i = e := by
  rw [put, Function.update_self, Function.update_self]

theorem put_ne (h : j ≠ i) : put m b i e b j = m b j := by
  rw [put, Function.update_self, Function.update_of_ne h]

theorem put_other (h : b' ≠ b) : put m b i e b' = m b' := Function.update_of_ne h _ _

end Put

/-- A walk along a path of links.  A table that is missing is taken from `free`, cleared, and linked by the entry that
`mk` makes. -/
def reach (link : ε → Option β) (mk : β → ε) (z : ε) :
    List ι → β → (β → ι → ε) → List β → Option (β × (β → ι → ε) × List β)
  | [], b, m, free => some (b, m, free)
  | i :: is, b, m, free =>
    match link (m b i), free with
    | some c, free => reach link mk z is c m free
    | none, [] => none
    | none, c :: free => reach link mk z is c (put (clear z m c) b i (mk c)) free

section Walk

variable {link : ε → Option β} {idx : List ι} {mk : β → ε} {z : ε} {m m' : β → ι → ε} {b c : β} {is : List ι}
  {free rest : List β}

/-- A table got linked, and its tree grew. -/
theorem Grown.linked {n : ℕ} {d : β} {i : ι} {new : List β} (hidx : idx.Nodup) (hi : i ∈ idx)
    (hnodup : (Radix.tables link idx m (n + 1) b).Nodup)
    (hfresh : ∀ t ∈ d :: new, t ∉ Radix.tables link idx m (n + 1) b) (hd : link (m b i) = none) (hmk : link (mk d) = some d) (hz : link z = none)
    (h : Grown link idx mk z n d (put (clear z m d) b i (mk d)) m' new) :
    Grown link idx mk z (n + 1) b m m' (d :: new) ∧ link (m' b i) = some d ∧ ∀ j, j ≠ i → m' b j = m b j := by
  obtain ⟨m₁, hm₁⟩ : ∃ m₁, m₁ = put (clear z m d) b i (mk d) := ⟨_, rfl⟩
  rw [← hm₁] at h
  obtain ⟨hdfresh, hfresh'⟩ := List.forall_mem_cons.mp hfresh
  have hdb : d ≠ b := by
    rintro rfl
    exact hdfresh self_mem_tables
  have hclear : ∀ j, m₁ d j = z := fun j => by rw [hm₁, put_other hdb, clear_self]
  have htabled : Radix.tables link idx m₁ n d = [d] := tables_of_clear fun j => by rw [hclear j, hz]
  have hother : ∀ t, t ≠ d → t ≠ b → m₁ t = m t := fun t htd htb => by rw [hm₁, put_other htb, clear_other htd]
  have hb : m' b = m₁ b := by
    refine h.other b ?_ fun hnew => hfresh' b hnew self_mem_tables
    rw [htabled, List.mem_singleton]
    exact hdb.symm
  have hlink : link (m' b i) = some d := by
    rw [hb, hm₁, put_self]
    exact hmk
  have hroot : ∀ j, j ≠ i → m' b j = m b j := fun j hj => by rw [hb, hm₁, put_ne hj, clear_other hdb.symm]
  refine ⟨grown_succ hidx hi hnodup hfresh hroot hlink ?_ ?_ ?_ ?_, hlink, hroot⟩
  · rw [hd]
    refine h.tables.trans ?_
    rw [htabled, Option.elim_none, List.append_nil]
    exact List.perm_append_singleton d new
  · intro t _ htb hnew
    have htd : t ≠ d := List.ne_of_not_mem_cons hnew
    rw [h.other t ?_ (List.not_mem_of_not_mem_cons hnew), hother t htd htb]
    rw [htabled, List.mem_singleton]
    exact htd
  · intro js k hlen hjs
    rw [h.entry js k hlen hjs, hd, entry_of_clear hz hclear]
    rfl
  · intro t j
    obtain ⟨hnew, heq⟩ | heq | ⟨e, he, heq⟩ := h.made t j
    · by_cases htd : t = d
      · exact .inr (.inl (by rw [heq, htd, hclear j]))
      by_cases htb : t = b ∧ j = i
      · refine .inr (.inr ⟨d, List.mem_cons_self, ?_⟩)
        rw [heq, htb.1, htb.2, hm₁, put_self]
      · refine .inl ⟨List.not_mem_cons_of_ne_of_not_mem htd hnew, ?_⟩
        by_cases htb' : t = b
        · subst htb'
          rw [heq, hm₁, put_ne fun hj => htb ⟨rfl, hj⟩, clear_other htd]
        · rw [heq, hother t htd htb']
    · exact .inr (.inl heq)
    · exact .inr (.inr ⟨e, List.mem_cons_of_mem _ he, heq⟩)

/-- **A walk adds the tables that its path misses, and ends in the leaf table of the path.** -/
theorem reach_grown (hidx : idx.Nodup) (hmk : ∀ c ∈ free, link (mk c) = some c) (hz : link z = none)
    (his : ∀ i ∈ is, i ∈ idx) (hnodup : (tables link idx m is.length b).Nodup) (hfree : free.Nodup)
    (hfresh : ∀ t ∈ free, t ∉ tables link idx m is.length b)
    (hreach : reach link mk z is b m free = some (c, m', rest)) :
    ∃ new, free = new ++ rest ∧ Grown link idx mk z is.length b m m' new ∧ leafAt link m' is b = some c ∧
      ∀ j, j ∉ is.head? → m' b j = m b j := by
  induction is generalizing b m free with
  | nil =>
    obtain ⟨rfl, rfl, rfl⟩ : b = c ∧ m = m' ∧ free = rest := by
      simpa only [reach, Option.some.injEq, Prod.mk.injEq] using hreach
    exact ⟨[], rfl, ⟨List.Perm.refl _, fun _ _ _ => rfl, fun _ _ _ _ => rfl,
      fun _ _ => .inl ⟨List.not_mem_nil, rfl⟩⟩, rfl, fun _ _ => rfl⟩
  | cons i is ih =>
    obtain ⟨hi, his⟩ := List.forall_mem_cons.mp his
    cases hd : link (m b i) with
    | some d =>
      simp only [reach, hd] at hreach
      obtain ⟨new, rfl, hgrown, hleaf, -⟩ := ih hmk his ((nodup_succ hnodup).1 i hi d hd).1 hfree
        (fun t ht htd => hfresh t ht (child_subset hi hd htd)) hreach
      obtain ⟨hgrown', hb⟩ := hgrown.child hidx hi hnodup (fun t ht => hfresh t (List.mem_append_left _ ht)) hd
      refine ⟨new, rfl, hgrown', ?_, fun j _ => by rw [hb]⟩
      rw [leafAt, hb, hd]
      exact hleaf
    | none =>
      obtain _ | ⟨d, free⟩ := free
      · simp only [reach, hd] at hreach
        cases hreach
      simp only [reach, hd] at hreach
      obtain ⟨hdfree, hfree⟩ := List.nodup_cons.mp hfree
      have hdb : d ≠ b := by
        rintro rfl
        exact hfresh d List.mem_cons_self self_mem_tables
      have htabled : tables link idx (put (clear z m d) b i (mk d)) is.length d = [d] :=
        tables_of_clear fun j => by rw [put_other hdb, clear_self, hz]
      obtain ⟨new, rfl, hgrown, hleaf, -⟩ := ih (List.forall_mem_cons.mp hmk).2 his
        (by rw [htabled]; exact List.nodup_singleton d) hfree
        (fun t ht htd => by
          rw [htabled, List.mem_singleton] at htd
          exact hdfree (htd ▸ ht)) hreach
      obtain ⟨hgrown', hlink, hroot⟩ := hgrown.linked hidx hi hnodup
        (fun t ht => hfresh t (by rw [← List.cons_append]; exact List.mem_append_left _ ht)) hd
        (hmk d List.mem_cons_self) hz
      refine ⟨d :: new, rfl, hgrown', ?_, fun j hj => hroot j fun hji => hj (hji ▸ rfl)⟩
      rw [leafAt, hlink]
      exact hleaf

theorem reach_of_leafAt (h : leafAt link m is b = some c) : reach link mk z is b m free = some (c, m, free) := by
  induction is generalizing b with
  | nil =>
    obtain rfl : b = c := Option.some.inj h
    rfl
  | cons i is ih =>
    cases hd : link (m b i) with
    | none =>
      rw [leafAt, hd] at h
      cases h
    | some d =>
      rw [leafAt, hd] at h
      simp only [reach, hd]
      exact ih h

end Walk

/-! ## Leaves -/

section Leaf

variable {link : ε → Option β} {idx : List ι} {z e : ε} {m : β → ι → ε} {b c : β} {is js : List ι} {k l : ι}

/-- **An entry of the leaf table of a path is stored: no other entry changes, and the tree keeps its tables.** -/
theorem put_leaf (his : ∀ i ∈ is, i ∈ idx) (hnodup : (tables link idx m is.length b).Nodup)
    (h : leafAt link m is b = some c) :
    tables link idx (put m c k e) is.length b = tables link idx m is.length b ∧
    leafAt link (put m c k e) is b = some c ∧
    ∀ js l, js.length = is.length → (∀ j ∈ js, j ∈ idx) →
      entry link z (put m c k e) js b l = if js = is ∧ l = k then e else entry link z m js b l := by
  induction is generalizing b with
  | nil =>
    obtain rfl : b = c := Option.some.inj h
    refine ⟨rfl, rfl, fun js l hjs _ => ?_⟩
    obtain rfl : js = [] := List.length_eq_zero_iff.mp hjs
    by_cases hl : l = k
    · subst hl
      rw [if_pos ⟨rfl, rfl⟩, entry, put_self]
    · rw [if_neg fun h => hl h.2, entry, put_ne hl, entry]
  | cons i is ih =>
    obtain ⟨hi, his⟩ := List.forall_mem_cons.mp his
    obtain ⟨hself, hdisj⟩ := nodup_succ hnodup
    cases hd : link (m b i) with
    | none =>
      rw [leafAt, hd] at h
      cases h
    | some d =>
      rw [leafAt, hd] at h
      obtain ⟨hdnodup, hbd⟩ := hself i hi d hd
      obtain ⟨htables, hleaf, hentry⟩ := ih his hdnodup h
      have hcd : c ∈ tables link idx m is.length d := leafAt_mem his h
      have hb : put m c k e b = m b := put_other fun hbc => hbd (hbc ▸ hcd)
      -- the other children have no table of this one
      have hother : ∀ j ∈ idx, j ≠ i → ∀ f, link (m b j) = some f →
          ∀ t ∈ tables link idx m is.length f, put m c k e t = m t := by
        intro j hj hji f hf t ht
        exact put_other fun htc => hdisj j hj i hi hji f d hf hd (htc ▸ ht) hcd
      refine ⟨?_, ?_, ?_⟩
      · rw [List.length_cons, tables, tables]
        congr 1
        refine List.flatMap_congr fun j hj => ?_
        rw [hb]
        by_cases hji : j = i
        · subst hji
          rw [hd]
          exact htables
        · cases hf : link (m b j) with
          | none => rfl
          | some f => exact tables_congr (hother j hj hji f hf)
      · rw [leafAt, hb, hd]
        exact hleaf
      · intro js l hjs hjidx
        obtain _ | ⟨j, js⟩ := js
        · exact absurd hjs (by simp)
        have hlen : js.length = is.length := Nat.succ.inj hjs
        obtain ⟨hj, hjidx⟩ := List.forall_mem_cons.mp hjidx
        rw [entry, entry, hb]
        by_cases hji : j = i
        · subst hji
          rw [hd, Option.elim_some, Option.elim_some, hentry js l hlen hjidx]
          simp only [List.cons.injEq, true_and]
        · rw [if_neg fun h => hji (List.cons.inj h.1).1]
          cases hf : link (m b j) with
          | none => rfl
          | some f =>
            have hf' : ∀ t ∈ tables link idx m js.length f, put m c k e t = m t := by
              rw [hlen]
              exact hother j hj hji f hf
            exact entry_congr hf' hjidx

/-- **And the tree keeps its links.** -/
theorem put_leaf_links {Q : ε → Prop} (his : ∀ i ∈ is, i ∈ idx) (hnodup : (tables link idx m is.length b).Nodup)
    (h : leafAt link m is b = some c) (hlinks : Links link idx Q m is.length b) :
    Links link idx Q (put m c k e) is.length b := by
  induction is generalizing b with
  | nil => exact trivial
  | cons i is ih =>
    obtain ⟨hi, his'⟩ := List.forall_mem_cons.mp his
    obtain ⟨hself, hdisj⟩ := nodup_succ hnodup
    cases hd : link (m b i) with
    | none =>
      rw [leafAt, hd] at h
      cases h
    | some d =>
      rw [leafAt, hd] at h
      obtain ⟨hdnodup, hbd⟩ := hself i hi d hd
      have hcd : c ∈ tables link idx m is.length d := leafAt_mem his' h
      have hb : put m c k e b = m b := put_other fun hbc => hbd (hbc ▸ hcd)
      intro j hj f hf
      rw [hb] at hf ⊢
      obtain ⟨hQ, hf'⟩ := hlinks j hj f hf
      refine ⟨hQ, ?_⟩
      by_cases hji : j = i
      · subst hji
        obtain rfl : d = f := Option.some.inj (hd.symm.trans hf)
        exact ih his' hdnodup h hf'
      · exact links_congr (fun t ht => put_other fun htc => hdisj j hj i hi hji f d hf hd (htc ▸ ht) hcd) hf'

end Leaf

end Store

/-! ## Teardown -/

section Release

variable [DecidableEq β]

/-- The tables of a tree are given back, each behind those it links to; `scrub` is what a table has after that. -/
def release (link : ε → Option β) (idx : List ι) (scrub : β → ι → ε) :
    ℕ → β → (β → ι → ε) × List β → (β → ι → ε) × List β
  | 0, b, s => (Function.update s.1 b (scrub b), s.2 ++ [b])
  | n + 1, b, s =>
    let s := idx.foldl (fun s i => (link (s.1 b i)).elim s fun c => release link idx scrub n c s) s
    (Function.update s.1 b (scrub b), s.2 ++ [b])

variable {link : ε → Option β} {idx is : List ι} {scrub : β → ι → ε} {m m₁ : β → ι → ε} {n : ℕ} {b : β} {freed : List β}

/-- What `release` does to a tree. -/
def Releases (link : ε → Option β) (idx : List ι) (scrub : β → ι → ε) (n : ℕ) : Prop :=
  ∀ (b : β) (m : β → ι → ε) (freed : List β), (tables link idx m n b).Nodup →
    ∃ m', release link idx scrub n b (m, freed) = (m', freed ++ tables link idx m n b) ∧
      ∀ t, t ∉ tables link idx m n b → m' t = m t

/-- The children that are left are as they were when the teardown began. -/
theorem release_children (ih : Releases link idx scrub n)
    (hnodup : ((is.flatMap fun i => (link (m b i)).elim [] (tables link idx m n)) ++ [b]).Nodup)
    (hsame : ∀ t ∈ (is.flatMap fun i => (link (m b i)).elim [] (tables link idx m n)) ++ [b], m₁ t = m t) :
    ∃ m', is.foldl (fun s i => (link (s.1 b i)).elim s fun c => release link idx scrub n c s) (m₁, freed) =
        (m', freed ++ is.flatMap fun i => (link (m b i)).elim [] (tables link idx m n)) ∧
      ∀ t, (t ∉ is.flatMap fun i => (link (m b i)).elim [] (tables link idx m n)) → m' t = m₁ t := by
  induction is generalizing m₁ freed with
  | nil => exact ⟨m₁, by simp, fun _ _ => rfl⟩
  | cons i is ihl =>
    have hb : m₁ b = m b := hsame b (List.mem_append_right _ (List.mem_singleton_self b))
    rw [List.flatMap_cons, List.append_assoc] at hnodup hsame
    rw [List.foldl_cons, List.flatMap_cons]
    cases hc : link (m b i) with
    | none =>
      rw [hc, Option.elim_none, List.nil_append] at hnodup hsame
      obtain ⟨m', hfold, hframe⟩ := @ihl m₁ freed hnodup hsame
      exact ⟨m', by simpa only [hb, hc, Option.elim_none, List.nil_append] using hfold, hframe⟩
    | some c =>
      rw [hc, Option.elim_some] at hnodup hsame
      obtain ⟨hcnodup, hrest, hdisj⟩ := List.nodup_append'.mp hnodup
      have htables : tables link idx m₁ n c = tables link idx m n c :=
        tables_congr fun t ht => hsame t (List.mem_append_left _ ht)
      obtain ⟨m₂, hrel, hframe₂⟩ := ih c m₁ freed (htables ▸ hcnodup)
      rw [htables] at hrel hframe₂
      have hsame₂ : ∀ t ∈ (is.flatMap fun i => (link (m b i)).elim [] (tables link idx m n)) ++ [b], m₂ t = m t := by
        intro t ht
        rw [hframe₂ t fun htc => hdisj htc ht]
        exact hsame t (List.mem_append_right _ ht)
      obtain ⟨m', hfold, hframe⟩ := @ihl m₂ (freed ++ tables link idx m n c) hrest hsame₂
      refine ⟨m', ?_, fun t ht => ?_⟩
      · simp only [hb, hc, Option.elim_some, hrel]
        rw [hfold, List.append_assoc]
      · obtain ⟨htc, ht⟩ := not_or.mp (fun h => ht (List.mem_append.mpr h))
        rw [hframe t ht, hframe₂ t htc]

/-- **A teardown gives back the tables of the tree, each once.** -/
theorem release_eq : Releases link idx scrub n := by
  induction n with
  | zero =>
    intro b m freed _
    refine ⟨_, rfl, fun t ht => Function.update_of_ne ?_ _ _⟩
    rintro rfl
    exact ht self_mem_tables
  | succ n ih =>
    intro b m freed hnodup
    obtain ⟨m', hfold, hframe⟩ := @release_children _ _ _ _ _ _ _ _ m m n b freed ih hnodup fun _ _ => rfl
    refine ⟨Function.update m' b (scrub b), ?_, fun t ht => ?_⟩
    · rw [release, hfold, tables, List.append_assoc]
    · obtain ⟨ht, htb⟩ := not_or.mp (fun h => ht (List.mem_append.mpr h))
      rw [Function.update_of_ne (fun h => htb (List.mem_singleton.mpr h)), hframe t ht]

end Release

end Radix
