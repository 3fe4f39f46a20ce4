import Rv32i.Nemu.Sdb.Expr

/-!
# NEMU: the watchpoint pool

`src/monitor/sdb/watchpoint.c` with the record of `sdb.h`.  A pointer into the pool is an index or `none`
for `NULL`.  A walk along `next` takes at most as many steps as the pool has nodes; one that takes more is
on a cycle and does not end.
-/

namespace Nemu

open Rv32

def nrWp : ℕ := 32

abbrev WpPtr := Option (Fin nrWp)

/-- `WP`; `str` is the text up to the terminating NUL, in an array of 32 characters. -/
structure WP where
  no : ℤ
  next : WpPtr
  str : List Char
  lastValue : Word

/-- The static variables of `watchpoint.c`. -/
structure WpPool where
  wpPool : Fin nrWp → WP
  head : WpPtr
  free : WpPtr

/-- The pool before `init_wp_pool`. -/
def WpPool.zero : WpPool where
  wpPool := fun _ => { no := 0, next := none, str := [], lastValue := 0 }
  head := none
  free := none

def WpPool.set (p : WpPool) (i : Fin nrWp) (w : WP) : WpPool := { p with wpPool := Function.update p.wpPool i w }

def initWpPool (p : WpPool) : WpPool where
  wpPool := fun i => { p.wpPool i with
    no := i.val
    next := if h : i.val + 1 < nrWp then some ⟨i.val + 1, h⟩ else none }
  head := none
  free := some ⟨0, by decide⟩

def newWp (p : WpPool) : WpPtr × WpPool :=
  match p.free with
  | none => (none, p)
  | some i =>
    let temp := p.head
    let p := { p with head := some i, free := (p.wpPool i).next }
    (some i, p.set i { p.wpPool i with next := temp })

/-- `while (wp_pre->next != NULL && wp_pre->next->NO != n)` of `free_wp`. -/
def freeLoop (p : WpPool) (n : ℤ) : ℕ → Fin nrWp → Exec (Fin nrWp)
  | 0, _ => .error .loop
  | k + 1, wpPre =>
    match (p.wpPool wpPre).next with
    | none => .ok wpPre
    | some w => if (p.wpPool w).no ≠ n then freeLoop p n k w else .ok wpPre

def freeWp (n : ℤ) (p : WpPool) : Exec WpPool :=
  match p.head with
  | none => .ok p
  | some h =>
    if n = (p.wpPool h).no then
      let p' := { p with head := (p.wpPool h).next, free := some h }
      .ok (p'.set h { p.wpPool h with next := p.free })
    else do
      let wpPre ← freeLoop p n nrWp h
      match (p.wpPool wpPre).next with
      | none => return p
      | some w =>
        let p' := p.set wpPre { p.wpPool wpPre with next := (p.wpPool w).next }
        return { p'.set w { p'.wpPool w with next := p.free } with free := some w }

/-- `while (wp != NULL)` of `check_wp`. -/
def checkWpLoop (frames : ℕ) (m : Machine) :
    ℕ → WpPtr → Bool → WpPool → ExprState → Exec (Bool × WpPool × ExprState)
  | _, none, triggered, p, d => .ok (triggered, p, d)
  | 0, some _, _, _, _ => .error .loop
  | k + 1, some i, triggered, p, d => do
    let w := p.wpPool i
    let (val, success, d) ← expr frames m w.str d
    if success = false then .error .assert
    else if val ≠ w.lastValue then checkWpLoop frames m k w.next true (p.set i { w with lastValue := val }) d
    else checkWpLoop frames m k w.next triggered p d

/-- `check_wp(&triggered)` -/
def checkWp (frames : ℕ) (m : Machine) (p : WpPool) (d : ExprState) : Exec (Bool × WpPool × ExprState) :=
  checkWpLoop frames m nrWp p.head false p d

/-! ## What `check_wp` reports -/

/-- The watchpoints from a pointer on. -/
def walk (p : WpPool) : ℕ → WpPtr → Exec (List WP)
  | _, none => .ok []
  | 0, some _ => .error .loop
  | k + 1, some i => do
    let rest ← walk p k (p.wpPool i).next
    return p.wpPool i :: rest

/-- The active watchpoints. -/
def WpPool.active (p : WpPool) : Exec (List WP) := walk p nrWp p.head

/-- The values of the expressions of some watchpoints, evaluated in order. -/
def watchValues (frames : ℕ) (m : Machine) : List WP → ExprState → Exec (List Word)
  | [], _ => .ok []
  | w :: ws, d => do
    let (val, success, d) ← expr frames m w.str d
    if success = false then .error .assert
    else do
      let vals ← watchValues frames m ws d
      return val :: vals

/-- The links and the texts of two pools are the same. -/
def SameTexts (p p' : WpPool) : Prop :=
  ∀ i, (p'.wpPool i).next = (p.wpPool i).next ∧ (p'.wpPool i).str = (p.wpPool i).str

theorem SameTexts.set {p p' : WpPool} (h : SameTexts p p') (i : Fin nrWp) (val : Word) :
    SameTexts p (p'.set i { p'.wpPool i with lastValue := val }) := by
  intro j
  unfold WpPool.set
  by_cases hj : j = i
  · subst hj
    simp only [Function.update_self]
    exact h j
  · simp only [Function.update_of_ne hj]
    exact h j

variable {frames : ℕ} {m : Machine}

/-- One round of `check_wp`, on a watchpoint whose expression has a value. -/
theorem checkWpLoop_of_expr {k : ℕ} {i : Fin nrWp} {triggered : Bool} {p : WpPool} {d d' : ExprState} {val : Word}
    (h : expr frames m (p.wpPool i).str d = .ok (val, true, d')) :
    checkWpLoop frames m (k + 1) (some i) triggered p d =
      if val ≠ (p.wpPool i).lastValue then
        checkWpLoop frames m k (p.wpPool i).next true (p.set i { p.wpPool i with lastValue := val }) d'
      else checkWpLoop frames m k (p.wpPool i).next triggered p d' := by
  show (expr frames m (p.wpPool i).str d >>= _) = _
  rw [h]
  rfl

theorem watchValues_of_expr {w : WP} {ws : List WP} {d d' : ExprState} {val : Word}
    (h : expr frames m w.str d = .ok (val, true, d')) :
    watchValues frames m (w :: ws) d = (watchValues frames m ws d').map (val :: ·) := by
  show (expr frames m w.str d >>= _) = _
  rw [h]
  show (do let vals ← watchValues frames m ws d'; return val :: vals) = _
  cases watchValues frames m ws d' <;> rfl

theorem watchValues_cons {w : WP} {ws : List WP} {d : ExprState} {vals : List Word}
    (h : watchValues frames m (w :: ws) d = .ok vals) :
    ∃ val d' rest, expr frames m w.str d = .ok (val, true, d') ∧ watchValues frames m ws d' = .ok rest ∧
      vals = val :: rest := by
  obtain ⟨⟨val, success, d'⟩, hexpr, h'⟩ := bind_ok h
  cases success with
  | false => cases h'
  | true =>
    obtain ⟨rest, hrest, hvals⟩ := bind_ok h'
    cases hvals
    exact ⟨val, d', rest, hexpr, hrest, rfl⟩

theorem walk_some {p : WpPool} {k : ℕ} {i : Fin nrWp} {ws : List WP} (h : walk p (k + 1) (some i) = .ok ws) :
    ∃ rest, walk p k (p.wpPool i).next = .ok rest ∧ ws = p.wpPool i :: rest := by
  obtain ⟨rest, hrest, hws⟩ := bind_ok h
  cases hws
  exact ⟨rest, hrest, rfl⟩

/-- A check that returns has walked along the list and evaluated every expression. -/
theorem checkWpLoop_returns {p p' : WpPool} (hp : SameTexts p p') {k : ℕ} {ptr : WpPtr} {triggered : Bool}
    {d : ExprState} {r : Bool × WpPool × ExprState} (h : checkWpLoop frames m k ptr triggered p' d = .ok r) :
    ∃ ws vals, walk p k ptr = .ok ws ∧ watchValues frames m ws d = .ok vals := by
  induction k generalizing p' ptr triggered d with
  | zero =>
    cases ptr with
    | none => exact ⟨[], [], rfl, rfl⟩
    | some i => cases h
  | succ k ih =>
    cases ptr with
    | none => exact ⟨[], [], rfl, rfl⟩
    | some i =>
      obtain ⟨⟨val, success, d'⟩, hexpr, h'⟩ := bind_ok h
      cases success with
      | false => cases h'
      | true =>
        rw [checkWpLoop_of_expr hexpr, (hp i).1] at h
        rw [(hp i).2] at hexpr
        obtain ⟨ws, vals, hws, hvals⟩ : ∃ ws vals, walk p k (p.wpPool i).next = .ok ws ∧
            watchValues frames m ws d' = .ok vals := by
          split at h
          · exact ih (hp.set i val) h
          · exact ih hp h
        refine ⟨p.wpPool i :: ws, val :: vals, ?_, ?_⟩
        · unfold walk
          rw [hws]
          rfl
        · rw [watchValues_of_expr hexpr, hvals]
          rfl

/-- Once triggered, the check stays so. -/
theorem checkWpLoop_triggered {p p' : WpPool} (hp : SameTexts p p') {k : ℕ} {ptr : WpPtr} {d : ExprState}
    {ws : List WP} {vals : List Word} (hws : walk p k ptr = .ok ws) (hvals : watchValues frames m ws d = .ok vals) :
    ∃ p'' d', checkWpLoop frames m k ptr true p' d = .ok (true, p'', d') := by
  induction k generalizing p' ptr d ws vals with
  | zero =>
    cases ptr with
    | none => exact ⟨p', d, rfl⟩
    | some i => cases hws
  | succ k ih =>
    cases ptr with
    | none => exact ⟨p', d, rfl⟩
    | some i =>
      obtain ⟨rest, hrest, rfl⟩ := walk_some hws
      obtain ⟨val, d', vs, hexpr, hvs, -⟩ := watchValues_cons hvals
      rw [← (hp i).2] at hexpr
      rw [checkWpLoop_of_expr hexpr, (hp i).1]
      split
      · exact ih (hp.set i val) hrest hvs
      · exact ih hp hrest hvs

/-- **What the check reports**: whether some value is not the last one. -/
theorem checkWpLoop_eq {p : WpPool} {k : ℕ} {ptr : WpPtr} {d : ExprState} {ws : List WP} {vals : List Word}
    (hws : walk p k ptr = .ok ws) (hvals : watchValues frames m ws d = .ok vals) :
    ∃ p' d', checkWpLoop frames m k ptr false p d = .ok (decide (vals ≠ ws.map WP.lastValue), p', d') := by
  induction k generalizing ptr d ws vals with
  | zero =>
    cases ptr with
    | none =>
      cases hws
      cases hvals
      exact ⟨p, d, rfl⟩
    | some i => cases hws
  | succ k ih =>
    cases ptr with
    | none =>
      cases hws
      cases hvals
      exact ⟨p, d, rfl⟩
    | some i =>
      obtain ⟨rest, hrest, rfl⟩ := walk_some hws
      obtain ⟨val, d', vs, hexpr, hvs, rfl⟩ := watchValues_cons hvals
      rw [checkWpLoop_of_expr hexpr, List.map_cons]
      by_cases hval : val = (p.wpPool i).lastValue
      · obtain ⟨p', d'', heq⟩ := ih hrest hvs
        refine ⟨p', d'', ?_⟩
        rw [if_neg (not_not.mpr hval), heq, hval]
        simp
      · have hp : SameTexts p (p.set i { p.wpPool i with lastValue := val }) :=
          SameTexts.set (fun j => ⟨rfl, rfl⟩) i val
        obtain ⟨p', d'', heq⟩ := checkWpLoop_triggered hp hrest hvs
        refine ⟨p', d'', ?_⟩
        rw [if_pos hval, heq]
        simp [hval]

end Nemu
