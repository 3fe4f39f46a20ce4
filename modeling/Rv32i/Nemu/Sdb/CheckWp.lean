import Rv32i.Nemu.Sdb.Pool
import Rv32i.Nemu.Sdb.Determined

/-!
# NEMU: one call of `check_wp`

`Watched frames p hs fs` — the lists of the pool are `hs` and `fs`, and every active watchpoint has a text that
`expr` accepts.  On such a pool `check_wp` returns on every machine; it reports whether some value is not the last
one, and its whole effect on the pool is that every active watchpoint has its value (`checkWp_eq`).
-/

namespace Nemu

open Rv32

structure Watched (frames : ℕ) (p : WpPool) (hs fs : List (Fin nrWp)) : Prop where
  lists : p.Lists hs fs
  short : ∀ i ∈ hs, (p.wpPool i).str.length ≤ 31
  accepts : ∀ i ∈ hs, Accepts frames (p.wpPool i).str

/-- The last values of the active watchpoints are their values on the machine. -/
def InSync (frames : ℕ) (m : Machine) (p : WpPool) (hs : List (Fin nrWp)) : Prop :=
  ∀ i ∈ hs, Values frames m (p.wpPool i).str (p.wpPool i).lastValue

/-- The pool with new last values at some nodes. -/
def WpPool.refresh (p : WpPool) (l : List (Fin nrWp)) (val : Fin nrWp → Word) : WpPool :=
  { p with wpPool := fun i => if i ∈ l then { p.wpPool i with lastValue := val i } else p.wpPool i }

variable {frames : ℕ} {m m' : Machine} {p p' : WpPool} {hs fs l : List (Fin nrWp)} {val : Fin nrWp → Word}

/-- Two pools with the same links and numbers have the same lists. -/
theorem WpPool.Lists.congr (h : p.Lists hs fs) (hhead : p'.head = p.head) (hfree : p'.free = p.free)
    (hlinks : ∀ i, (p'.wpPool i).next = (p.wpPool i).next ∧ (p'.wpPool i).no = (p.wpPool i).no) :
    p'.Lists hs fs := by
  have hnext : p'.next = p.next := funext fun i => (hlinks i).1
  exact
    { head := by rw [hnext, hhead]; exact h.head
      free := by rw [hnext, hfree]; exact h.free
      disjoint := h.disjoint
      all := h.all
      no := fun i => (hlinks i).2.trans (h.no i) }

theorem refresh_links (p : WpPool) (l : List (Fin nrWp)) (val : Fin nrWp → Word) (i : Fin nrWp) :
    ((p.refresh l val).wpPool i).next = (p.wpPool i).next ∧ ((p.refresh l val).wpPool i).no = (p.wpPool i).no ∧
      ((p.refresh l val).wpPool i).str = (p.wpPool i).str := by
  unfold WpPool.refresh
  by_cases hi : i ∈ l <;> simp [hi]

theorem refresh_lastValue {i : Fin nrWp} (hi : i ∈ l) :
    ((p.refresh l val).wpPool i).lastValue = val i := by
  unfold WpPool.refresh
  simp [hi]

/-- The first node of a chain refreshed, then the rest. -/
theorem set_refresh {i : Fin nrWp} (hi : i ∉ l) :
    (p.set i { p.wpPool i with lastValue := val i }).refresh l val = p.refresh (i :: l) val := by
  unfold WpPool.refresh WpPool.set
  congr 1
  funext j
  by_cases hj : j = i
  · subst hj
    simp [hi]
  · simp [hj]

/-- The loop of `check_wp` along a chain of watchpoints that have values. -/
theorem checkWpLoop_refresh {k : ℕ} {ptr : WpPtr} (hc : Chain p.next ptr l) (hk : l.length ≤ k)
    (hval : ∀ i ∈ l, Values frames m (p.wpPool i).str (val i)) (triggered : Bool) (d : ExprState) :
    ∃ d', checkWpLoop frames m k ptr triggered p d =
      .ok (triggered || decide (∃ i ∈ l, val i ≠ (p.wpPool i).lastValue), p.refresh l val, d') := by
  induction l generalizing k ptr triggered p d with
  | nil =>
    have hptr : ptr = none := hc
    subst hptr
    refine ⟨d, ?_⟩
    have hsame : p.refresh [] val = p := by simp [WpPool.refresh]
    rw [hsame]
    cases k <;> simp [checkWpLoop]
  | cons i l ih =>
    obtain ⟨rfl, hrest⟩ := hc
    obtain ⟨k, rfl⟩ : ∃ k', k = k' + 1 := ⟨k - 1, by rw [List.length_cons] at hk; omega⟩
    have hchain : Chain p.next (some i) (i :: l) := ⟨rfl, hrest⟩
    have hi : i ∉ l := (List.nodup_cons.mp hchain.nodup).1
    obtain ⟨d1, hexpr⟩ := hval i List.mem_cons_self d
    rw [checkWpLoop_of_expr hexpr]
    -- the pool after this round
    have hround : ∀ j ∈ l, ((p.set i { p.wpPool i with lastValue := val i }).wpPool j) = p.wpPool j :=
      fun j hj => Function.update_of_ne (ne_of_mem_of_not_mem hj hi) _ _
    have hnext : (p.set i { p.wpPool i with lastValue := val i }).next = p.next := by
      funext j
      unfold WpPool.next WpPool.set
      by_cases hj : j = i
      · subst hj
        simp
      · simp [hj]
    obtain ⟨d2, hloop⟩ := @ih (p.set i { p.wpPool i with lastValue := val i }) k (p.next i)
      (by rw [hnext]; exact hrest) (by simpa using hk)
      (fun j hj => by rw [hround j hj]; exact hval j (List.mem_cons_of_mem _ hj)) true d1
    rw [set_refresh hi] at hloop
    by_cases hne : val i = (p.wpPool i).lastValue
    · -- the value is the last one: nothing is written
      have hsame : p.set i { p.wpPool i with lastValue := val i } = p := by
        unfold WpPool.set
        rw [hne, Function.update_eq_self]
      obtain ⟨d3, hloop3⟩ := @ih p k (p.next i) hrest (by simpa using hk)
        (fun j hj => hval j (List.mem_cons_of_mem _ hj)) triggered d1
      refine ⟨d3, ?_⟩
      rw [← set_refresh hi, hsame, if_neg (not_not.mpr hne)]
      unfold WpPool.next at hloop3
      simpa [hne] using hloop3
    · refine ⟨d2, ?_⟩
      rw [if_pos hne]
      unfold WpPool.next at hloop
      simpa [hne] using hloop

/-- **What `check_wp` does**, on every machine and after any earlier evaluations. -/
theorem checkWp_eq (h : Watched frames p hs fs) (m : Machine) (d : ExprState) :
    ∃ val d', (∀ i ∈ hs, Values frames m (p.wpPool i).str (val i)) ∧
      checkWp frames m p d =
        .ok (decide (∃ i ∈ hs, val i ≠ (p.wpPool i).lastValue), p.refresh hs val, d') := by
  have hex : ∀ i, ∃ v, i ∈ hs → Values frames m (p.wpPool i).str v := by
    intro i
    by_cases hi : i ∈ hs
    · obtain ⟨v, hv⟩ := (h.accepts i hi).values (h.short i hi) m
      exact ⟨v, fun _ => hv⟩
    · exact ⟨0, fun hi' => absurd hi' hi⟩
  choose val hval using hex
  have hlen : hs.length ≤ nrWp := by
    have := h.lists.length
    omega
  obtain ⟨d', heq⟩ := checkWpLoop_refresh h.lists.head hlen (fun i hi => hval i hi) false d
  refine ⟨val, d', fun i hi => hval i hi, ?_⟩
  unfold checkWp
  rw [heq, Bool.false_or]

theorem Watched.refresh (h : Watched frames p hs fs) (val : Fin nrWp → Word) :
    Watched frames (p.refresh hs val) hs fs where
  lists := h.lists.congr rfl rfl fun i => ⟨(refresh_links p hs val i).1, (refresh_links p hs val i).2.1⟩
  short := fun i hi => by rw [(refresh_links p hs val i).2.2]; exact h.short i hi
  accepts := fun i hi => by rw [(refresh_links p hs val i).2.2]; exact h.accepts i hi

/-- After the check every last value is current. -/
theorem inSync_refresh (hval : ∀ i ∈ hs, Values frames m (p.wpPool i).str (val i)) :
    InSync frames m (p.refresh hs val) hs := by
  intro i hi
  rw [(refresh_links p hs val i).2.2, refresh_lastValue hi]
  exact hval i hi

/-- What is in sync stays so while the guest stays. -/
theorem InSync.same (h : Watched frames p hs fs) (hsync : InSync frames m p hs) (hsame : SameGuest m m') :
    InSync frames m' p hs :=
  fun i hi => (hsync i hi).same (h.short i hi) hsame

end Nemu
