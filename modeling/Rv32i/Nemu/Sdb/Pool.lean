import Rv32i.Nemu.Sdb.Watchpoint
import Rv32i.Lib.Chain
import Mathlib.Data.Fintype.Card

/-!
# NEMU: the two lists of the watchpoint pool

* `WpPool.Lists p hs fs` — the active list is `hs` and the free list is `fs`; together they have every node once,
  and node `i` has number `i`;
* `newWp_lists`, `freeWp_lists` — the operations on the lists: a node moves from the front of one list to the
  front of the other, or out of its place;
* `pool_run` — what holds after any sequence of them.
-/

namespace Nemu

def WpPool.next (p : WpPool) (i : Fin nrWp) : WpPtr := (p.wpPool i).next

/-- The active and the free list of a pool. -/
structure WpPool.Lists (p : WpPool) (hs fs : List (Fin nrWp)) : Prop where
  head : Chain p.next p.head hs
  free : Chain p.next p.free fs
  disjoint : ∀ i ∈ hs, i ∉ fs
  all : ∀ i, i ∈ hs ∨ i ∈ fs
  no : ∀ i, (p.wpPool i).no = i.val

variable {p p' : WpPool} {hs fs : List (Fin nrWp)} {n : ℤ}

/-- The number, the text and the value of every node are the same in two pools. -/
def SameFields (p p' : WpPool) : Prop :=
  ∀ i, (p'.wpPool i).no = (p.wpPool i).no ∧ (p'.wpPool i).str = (p.wpPool i).str ∧
    (p'.wpPool i).lastValue = (p.wpPool i).lastValue

theorem SameFields.refl (p : WpPool) : SameFields p p := fun _ => ⟨rfl, rfl, rfl⟩

theorem SameFields.trans {p'' : WpPool} (h : SameFields p p') (h' : SameFields p' p'') : SameFields p p'' := by
  intro i
  obtain ⟨h1, h2, h3⟩ := h i
  obtain ⟨h1', h2', h3'⟩ := h' i
  exact ⟨h1'.trans h1, h2'.trans h2, h3'.trans h3⟩

/-! ## Writing a link -/

/-- `&wp_pool[i]->next = q` -/
def WpPool.link (p : WpPool) (i : Fin nrWp) (q : WpPtr) : WpPool := p.set i { p.wpPool i with next := q }

@[simp] theorem link_head (p : WpPool) (i : Fin nrWp) (q : WpPtr) : (p.link i q).head = p.head := rfl
@[simp] theorem link_free (p : WpPool) (i : Fin nrWp) (q : WpPtr) : (p.link i q).free = p.free := rfl

theorem link_next (p : WpPool) (i : Fin nrWp) (q : WpPtr) : (p.link i q).next = Function.update p.next i q := by
  funext j
  unfold WpPool.next WpPool.link WpPool.set
  by_cases hj : j = i
  · subst hj
    simp only [Function.update_self]
  · simp only [Function.update_of_ne hj]

theorem link_fields (p : WpPool) (i : Fin nrWp) (q : WpPtr) : SameFields p (p.link i q) := by
  intro j
  unfold WpPool.link WpPool.set
  by_cases hj : j = i
  · subst hj
    simp only [Function.update_self, and_self]
  · simp only [Function.update_of_ne hj, and_self]

/-! ## The initial pool -/

theorem initWpPool_free (k : ℕ) (hk : k ≤ nrWp) :
    Chain (initWpPool p).next (if h : nrWp - k < nrWp then some ⟨nrWp - k, h⟩ else none)
      ((List.finRange nrWp).drop (nrWp - k)) := by
  induction k with
  | zero =>
    have hdrop : (List.finRange nrWp).drop (nrWp - 0) = [] := List.drop_eq_nil_of_le (by simp)
    rw [hdrop]
    exact dif_neg (by omega)
  | succ k ih =>
    have hlt : nrWp - (k + 1) < nrWp := by omega
    have hdrop : (List.finRange nrWp).drop (nrWp - (k + 1)) =
        ⟨nrWp - (k + 1), hlt⟩ :: (List.finRange nrWp).drop (nrWp - k) := by
      rw [List.drop_eq_getElem_cons (by simpa using hlt)]
      have : nrWp - (k + 1) + 1 = nrWp - k := by omega
      rw [this]
      simp
    rw [hdrop]
    refine ⟨dif_pos hlt, ?_⟩
    have hnext : (initWpPool p).next ⟨nrWp - (k + 1), hlt⟩ =
        if h : nrWp - k < nrWp then some ⟨nrWp - k, h⟩ else none := by
      have hsucc : nrWp - (k + 1) + 1 = nrWp - k := by omega
      simp only [WpPool.next, initWpPool, hsucc]
    rw [hnext]
    exact ih (by omega)

/-- After `init_wp_pool` every node is free, in the order of the array. -/
theorem initWpPool_lists (p : WpPool) : (initWpPool p).Lists [] (List.finRange nrWp) where
  head := rfl
  free := by
    have h := @initWpPool_free p nrWp (le_refl _)
    simp only [Nat.sub_self, List.drop_zero] at h
    exact h
  disjoint := fun _ h => by cases h
  all := fun i => .inr (List.mem_finRange i)
  no := fun _ => rfl

/-! ## `new_wp` -/

theorem newWp_none (h : p.Lists hs []) : newWp p = (none, p) := by
  have : p.free = none := h.free
  unfold newWp
  rw [this]

/-- The pool after `new_wp` has taken node `i`. -/
theorem newWp_some {i : Fin nrWp} (h : p.Lists hs (i :: fs)) :
    newWp p = (some i, { p with head := some i, free := p.next i }.link i p.head) := by
  have : p.free = some i := h.free.1
  unfold newWp
  rw [this]
  rfl

/-- **`new_wp` activates the first free node.** -/
theorem newWp_lists {i : Fin nrWp} (h : p.Lists hs (i :: fs)) : (newWp p).2.Lists (i :: hs) fs := by
  have hi : i ∉ hs := fun hi => h.disjoint i hi List.mem_cons_self
  have hnd := h.free.nodup
  rw [newWp_some h]
  exact
    { head := by rw [link_next]; exact h.head.push hi
      free := by rw [link_next]; exact h.free.2.update (List.nodup_cons.mp hnd).1 _
      disjoint := by
        intro j hj hjf
        rcases List.mem_cons.mp hj with rfl | hj
        · exact (List.nodup_cons.mp hnd).1 hjf
        · exact h.disjoint j hj (List.mem_cons_of_mem _ hjf)
      all := by
        intro j
        rcases h.all j with hj | hj
        · exact .inl (List.mem_cons_of_mem _ hj)
        · rcases List.mem_cons.mp hj with rfl | hj
          · exact .inl List.mem_cons_self
          · exact .inr hj
      no := fun j => ((link_fields _ i p.head j).1).trans (h.no j) }

/-! ## `free_wp` -/

/-- Where the loop of `free_wp` stops: before the first node numbered `n`, or at the end. -/
theorem freeLoop_eq {k : ℕ} {x : Fin nrWp} {post : List (Fin nrWp)} (hc : Chain p.next (p.next x) post)
    (hk : post.length < k) :
    ∃ l y r, x :: post = l ++ y :: r ∧ freeLoop p n k x = .ok y ∧
      (∀ z ∈ (l ++ [y]).tail, (p.wpPool z).no ≠ n) ∧ ∀ w ∈ r.head?, (p.wpPool w).no = n := by
  induction k generalizing x post with
  | zero => omega
  | succ k ih =>
    cases post with
    | nil =>
      have hnext : (p.wpPool x).next = none := hc
      refine ⟨[], x, [], rfl, ?_, by simp, by simp⟩
      unfold freeLoop
      rw [hnext]
    | cons w post =>
      have hnext : (p.wpPool x).next = some w := hc.1
      by_cases hw : (p.wpPool w).no = n
      · refine ⟨[], x, w :: post, rfl, ?_, by simp, by simpa using hw⟩
        unfold freeLoop
        rw [hnext]
        simp [hw]
      · obtain ⟨l, y, r, hsplit, hloop, hskip, hstop⟩ := ih hc.2 (by simpa using hk)
        refine ⟨x :: l, y, r, by rw [hsplit]; rfl, ?_, ?_, hstop⟩
        · unfold freeLoop
          rw [hnext]
          simpa [hw] using hloop
        · intro z hz
          rw [List.cons_append, List.tail_cons] at hz
          cases l with
          | nil =>
            cases hsplit
            rw [List.nil_append, List.mem_singleton] at hz
            rwa [hz]
          | cons a l =>
            cases hsplit
            rcases List.mem_cons.mp hz with rfl | hz
            · exact hw
            · exact hskip z hz

/-- The pool after `free_wp` has taken the head `x`. -/
def WpPool.takeHead (p : WpPool) (x : Fin nrWp) : WpPool :=
  { p with head := p.next x, free := some x }.link x p.free

theorem takeHead_lists {x : Fin nrWp} {post : List (Fin nrWp)} (h : p.Lists (x :: post) fs) :
    (p.takeHead x).Lists post (x :: fs) := by
  have hnd := List.nodup_cons.mp h.head.nodup
  have hnext : (p.takeHead x).next = Function.update p.next x p.free := link_next _ x p.free
  exact
    { head := by
        rw [hnext]
        exact h.head.2.update hnd.1 _
      free := by
        rw [hnext]
        exact h.free.push (h.disjoint x List.mem_cons_self)
      disjoint := by
        intro j hj hjf
        rcases List.mem_cons.mp hjf with rfl | hjf
        · exact hnd.1 hj
        · exact h.disjoint j (List.mem_cons_of_mem _ hj) hjf
      all := by
        intro j
        rcases h.all j with hj | hj
        · rcases List.mem_cons.mp hj with rfl | hj
          · exact .inr List.mem_cons_self
          · exact .inl hj
        · exact .inr (List.mem_cons_of_mem _ hj)
      no := fun j => (link_fields _ x p.free j).1.trans (h.no j) }

/-- The pool after `free_wp` has taken node `w` from behind `y`. -/
def WpPool.takeOut (p : WpPool) (y w : Fin nrWp) : WpPool :=
  { (p.link y (p.next w)).link w p.free with free := some w }

theorem takeOut_lists {l r : List (Fin nrWp)} {y w : Fin nrWp} (h : p.Lists (l ++ y :: w :: r) fs) :
    (p.takeOut y w).Lists (l ++ y :: r) (w :: fs) := by
  have hnd := h.head.nodup
  have hwl : w ∉ l ++ y :: r := by
    have hmid : (l ++ [y] ++ w :: r).Perm (w :: (l ++ [y] ++ r)) := List.perm_middle
    rw [List.append_assoc, List.append_assoc, List.singleton_append, List.singleton_append] at hmid
    exact (List.nodup_cons.mp (hmid.nodup_iff.mp hnd)).1
  have hsub : ∀ i ∈ l ++ y :: r, i ∈ l ++ y :: w :: r := by
    intro i hi
    simp only [List.mem_append, List.mem_cons] at hi ⊢
    tauto
  have hw : w ∈ l ++ y :: w :: r := by simp
  have hy : y ∈ l ++ y :: w :: r := by simp
  have hnext : (p.takeOut y w).next = Function.update (Function.update p.next y (p.next w)) w p.free := by
    show ((p.link y (p.next w)).link w p.free).next = _
    rw [link_next, link_next]
  exact
    { head := by
        rw [hnext]
        exact h.head.unlink.update hwl _
      free := by
        rw [hnext]
        exact (h.free.update (h.disjoint y hy) _).push (h.disjoint w hw)
      disjoint := by
        intro i hi hif
        rcases List.mem_cons.mp hif with rfl | hif
        · exact hwl hi
        · exact h.disjoint i (hsub i hi) hif
      all := by
        intro i
        rcases h.all i with hi | hi
        · simp only [List.mem_append, List.mem_cons] at hi ⊢
          tauto
        · exact .inr (List.mem_cons_of_mem _ hi)
      no := fun i => ((link_fields p y (p.next w)).trans (link_fields _ w p.free) i).1.trans (h.no i) }

/-- **`free_wp(n)` moves the active node `n` to the front of the free list, or changes nothing.** -/
theorem freeWp_lists (h : p.Lists hs fs) (n : ℤ) :
    ∃ p', freeWp n p = .ok p' ∧ SameFields p p' ∧
      (∀ i ∈ hs, (i.val : ℤ) = n → p'.Lists (hs.erase i) (i :: fs)) ∧
      ((∀ i ∈ hs, (i.val : ℤ) ≠ n) → p' = p) := by
  unfold freeWp
  cases hs with
  | nil =>
    have hhead : p.head = none := h.head
    rw [hhead]
    exact ⟨p, rfl, .refl p, by simp, fun _ => rfl⟩
  | cons x post =>
    have hhead : p.head = some x := h.head.1
    rw [hhead]
    by_cases hn : n = (p.wpPool x).no
    · simp only [hn, if_true]
      refine ⟨p.takeHead x, rfl, link_fields { p with head := p.next x, free := some x } x p.free, ?_, ?_⟩
      · intro i hi hin
        rw [h.no x] at hin
        have hix : i = x := Fin.ext (by omega)
        subst hix
        rw [List.erase_cons_head]
        exact takeHead_lists h
      · intro hno
        exact absurd (h.no x).symm (hno x List.mem_cons_self)
    · simp only [hn, if_false]
      rw [h.no x] at hn
      have hlen : post.length < nrWp := by
        have := h.head.nodup.length_le_card
        simpa using this
      obtain ⟨l, y, r, hsplit, hloop, hskip, hstop⟩ := @freeLoop_eq p n _ _ _ h.head.2 hlen
      rw [hloop]
      have hchain : Chain p.next p.head (l ++ y :: r) := hsplit ▸ h.head
      have hnext : (p.wpPool y).next = r.head? := hchain.suffix.2.head_eq
      have hfar : ∀ z ∈ l ++ [y], (z.val : ℤ) ≠ n := by
        intro z hz
        cases l with
        | nil =>
          cases hsplit
          rw [List.nil_append, List.mem_singleton] at hz
          rw [hz]
          exact fun h => hn h.symm
        | cons a l =>
          cases hsplit
          rcases List.mem_cons.mp hz with rfl | hz
          · exact fun h => hn h.symm
          · rw [← h.no z]
            exact hskip z hz
      cases r with
      | nil =>
        refine ⟨p, ?_, .refl p, ?_, fun _ => rfl⟩
        · simp only [bind, Except.bind, hnext]
          rfl
        · intro i hi hin
          rw [hsplit] at hi
          exact absurd hin (hfar i hi)
      | cons w r =>
        have hwn : (w.val : ℤ) = n := by
          rw [← h.no w]
          exact hstop w rfl
        rw [hsplit] at h ⊢
        have hwy : w ≠ y := by
          rintro rfl
          exact hfar w (by simp) hwn
        refine ⟨p.takeOut y w, ?_, (link_fields p y _).trans (link_fields _ w _), ?_, ?_⟩
        · simp only [bind, Except.bind, hnext]
          rfl
        · intro i hi hin
          have hiw : i = w := Fin.ext (by omega)
          subst hiw
          have herase : (l ++ y :: i :: r).erase i = l ++ y :: r := by
            have hil : i ∉ l := fun hil => hfar i (List.mem_append_left _ hil) hwn
            rw [List.erase_append_right _ hil, List.erase_cons_tail (by simpa using hwy.symm), List.erase_cons_head]
          rw [herase]
          exact takeOut_lists h
        · intro hno
          exact absurd hwn (hno w (by simp))

/-! ## Sequences of operations -/

/-- The two lists together are the nodes of the pool, each once. -/
theorem WpPool.Lists.perm (h : p.Lists hs fs) : (hs ++ fs).Perm (List.finRange nrWp) := by
  have hnd : (hs ++ fs).Nodup :=
    h.head.nodup.append h.free.nodup fun i hi hif => h.disjoint i hi hif
  refine (List.perm_ext_iff_of_nodup hnd (List.nodup_finRange nrWp)).mpr fun i => ?_
  simp [h.all i]

theorem WpPool.Lists.length (h : p.Lists hs fs) : hs.length + fs.length = nrWp := by
  have := h.perm.length_eq
  simpa using this

/-- Whether and which node `new_wp` activates. -/
def NewSpec (p : WpPool) (hs fs : List (Fin nrWp)) : Prop :=
  ((newWp p).1 = none ↔ hs.length = nrWp) ∧ ((newWp p).1 = none → (newWp p).2 = p) ∧
    ∀ i, (newWp p).1 = some i →
      i ∉ hs ∧ (newWp p).2.Lists (i :: hs) (fs.erase i) ∧ SameFields p (newWp p).2

/-- What `free_wp(n)` takes out. -/
def FreeSpec (p : WpPool) (hs fs : List (Fin nrWp)) (n : ℤ) : Prop :=
  ∃ p', freeWp n p = .ok p' ∧ SameFields p p' ∧
    (∀ i ∈ hs, (i.val : ℤ) = n → p'.Lists (hs.erase i) (i :: fs)) ∧
    ((∀ i ∈ hs, (i.val : ℤ) ≠ n) → p' = p)

theorem newWp_spec (h : p.Lists hs fs) : NewSpec p hs fs := by
  have hlen := h.length
  cases fs with
  | nil =>
    rw [List.length_nil, Nat.add_zero] at hlen
    rw [NewSpec, newWp_none h]
    simp [hlen]
  | cons i fs =>
    have hnew := newWp_lists h
    have hdis := h.disjoint
    rw [List.length_cons] at hlen
    rw [newWp_some h] at hnew
    rw [NewSpec, newWp_some h]
    refine ⟨by simp; omega, by simp, ?_⟩
    rintro j hj
    cases hj
    refine ⟨fun hi => hdis i hi List.mem_cons_self, ?_, link_fields _ i p.head⟩
    rwa [List.erase_cons_head]

inductive PoolOp
  | new
  | free (n : ℤ)

def PoolOp.run : PoolOp → WpPool → Exec WpPool
  | .new, p => .ok (newWp p).2
  | .free n, p => freeWp n p

def runOps : List PoolOp → WpPool → Exec WpPool
  | [], p => .ok p
  | op :: ops, p => do runOps ops (← op.run p)

/-- An operation returns, and keeps the lists well formed. -/
theorem PoolOp.run_lists (h : p.Lists hs fs) (op : PoolOp) :
    ∃ p' hs' fs', op.run p = .ok p' ∧ p'.Lists hs' fs' := by
  cases op with
  | new =>
    cases fs with
    | nil => exact ⟨p, hs, [], by rw [PoolOp.run, newWp_none h], h⟩
    | cons i fs => exact ⟨_, i :: hs, fs, rfl, newWp_lists h⟩
  | free n =>
    obtain ⟨p', hok, -, hin, hout⟩ := freeWp_lists h n
    by_cases hn : ∃ i ∈ hs, (i.val : ℤ) = n
    · obtain ⟨i, hi, hin'⟩ := hn
      exact ⟨p', _, _, hok, hin i hi hin'⟩
    · rw [hout fun i hi hin' => hn ⟨i, hi, hin'⟩] at hok
      exact ⟨p, hs, fs, hok, h⟩

theorem runOps_lists (h : p.Lists hs fs) (ops : List PoolOp) :
    ∃ p' hs' fs', runOps ops p = .ok p' ∧ p'.Lists hs' fs' := by
  induction ops generalizing p hs fs with
  | nil => exact ⟨p, hs, fs, rfl, h⟩
  | cons op ops ih =>
    obtain ⟨p1, hs1, fs1, hok, h1⟩ := op.run_lists h
    obtain ⟨p2, hs2, fs2, hok2, h2⟩ := ih h1
    refine ⟨p2, hs2, fs2, ?_, h2⟩
    simp only [runOps, bind, Except.bind, hok]
    exact hok2

/-- **Every sequence of `new_wp` and `free_wp` after `init_wp_pool` returns**, with two lists that have every
node of the pool once, and what the next call does is a function of the lists. -/
theorem pool_run (p : WpPool) (ops : List PoolOp) :
    ∃ p' hs fs, runOps ops (initWpPool p) = .ok p' ∧ p'.Lists hs fs ∧ (hs ++ fs).Perm (List.finRange nrWp) ∧
      NewSpec p' hs fs ∧ ∀ n, FreeSpec p' hs fs n := by
  obtain ⟨p', hs, fs, hok, h⟩ := runOps_lists (initWpPool_lists p) ops
  exact ⟨p', hs, fs, hok, h, h.perm, newWp_spec h, freeWp_lists h⟩

end Nemu
