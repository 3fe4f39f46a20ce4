import Mathlib

/-!
# Brackets in lists

Lists some of whose elements open or close a bracket.

* `Balanced` — every bracket has its partner; `balanced_iff_scan` is the usual test with a counter;
* `Enclosed` — one pair of brackets around a balanced list; `enclosed_iff` is the test that the counter
  does not return to zero before the end;
* `tops` — the elements outside all brackets, with their positions; `exists_split_of_mem_tops` splits a
  balanced list at one of them into two balanced lists.
-/

namespace Bracket

inductive Side
  | opening | closing | plain
  deriving DecidableEq, Repr

variable {α : Type*} (side : α → Side)

/-- The depth behind an element; a closing bracket without a partner leaves it at 0. -/
def next (d : ℕ) (x : α) : ℕ :=
  match side x with
  | .opening => d + 1
  | .closing => d - 1
  | .plain => d

/-- The depth behind a list, if every closing bracket has a partner. -/
def scan : ℕ → List α → Option ℕ
  | d, [] => some d
  | d, x :: xs => if side x = .closing ∧ d = 0 then none else scan (next side d x) xs

inductive Balanced : List α → Prop
  | nil : Balanced []
  | plain {x xs} : side x = .plain → Balanced xs → Balanced (x :: xs)
  | group {l body r xs} : side l = .opening → Balanced body → side r = .closing → Balanced xs →
      Balanced (l :: (body ++ r :: xs))

/-- One pair of brackets around a balanced list. -/
def Enclosed (xs : List α) : Prop :=
  ∃ l body r, side l = .opening ∧ Balanced side body ∧ side r = .closing ∧ xs = l :: (body ++ [r])

/-- The depth is not zero between any two elements. -/
def held : ℕ → List α → Bool
  | _, [] => true
  | _, [_] => true
  | d, x :: y :: xs => next side d x ≠ 0 && held (next side d x) (y :: xs)

/-- The elements outside all brackets, with their positions; the list starts at depth `d` and at
position `i`. -/
def tops : ℕ → ℤ → List α → List (ℤ × α)
  | _, _, [] => []
  | d, i, x :: xs =>
    if side x = .plain ∧ d = 0 then (i, x) :: tops (next side d x) (i + 1) xs
    else tops (next side d x) (i + 1) xs

variable {side}

theorem next_opening {x : α} (h : side x = .opening) (d : ℕ) : next side d x = d + 1 := by
  unfold next
  rw [h]

theorem next_closing {x : α} (h : side x = .closing) (d : ℕ) : next side (d + 1) x = d := by
  unfold next
  rw [h]
  rfl

theorem next_plain {x : α} (h : side x = .plain) (d : ℕ) : next side d x = d := by
  unfold next
  rw [h]

/-! ## Counting -/

theorem scan_opening {x : α} (h : side x = .opening) (d : ℕ) (xs : List α) :
    scan side d (x :: xs) = scan side (d + 1) xs := by
  unfold scan
  rw [if_neg (by rw [h]; simp), next_opening h]
  cases xs <;> rfl

theorem scan_closing {x : α} (h : side x = .closing) (d : ℕ) (xs : List α) :
    scan side (d + 1) (x :: xs) = scan side d xs := by
  unfold scan
  rw [if_neg (by simp), next_closing h]
  cases xs <;> rfl

theorem scan_plain {x : α} (h : side x = .plain) (d : ℕ) (xs : List α) :
    scan side d (x :: xs) = scan side d xs := by
  unfold scan
  rw [if_neg (by rw [h]; simp), next_plain h]
  cases xs <;> rfl

theorem scan_append (d : ℕ) (xs ys : List α) :
    scan side d (xs ++ ys) = (scan side d xs).bind fun e => scan side e ys := by
  induction xs generalizing d with
  | nil => rfl
  | cons x xs ih =>
    show (if side x = .closing ∧ d = 0 then none else scan side (next side d x) (xs ++ ys)) =
      (if side x = .closing ∧ d = 0 then none else scan side (next side d x) xs).bind _
    split
    · rfl
    · exact ih _

/-- A scan that succeeds does so at every greater depth. -/
theorem scan_add {d e : ℕ} {xs : List α} (h : scan side d xs = some e) (k : ℕ) :
    scan side (d + k) xs = some (e + k) := by
  induction xs generalizing d with
  | nil =>
    cases h
    rfl
  | cons x xs ih =>
    cases hx : side x with
    | opening =>
      rw [scan_opening hx] at h
      rw [scan_opening hx, Nat.add_right_comm]
      exact ih h
    | closing =>
      cases d with
      | zero =>
        unfold scan at h
        rw [if_pos ⟨hx, rfl⟩] at h
        cases h
      | succ d =>
        rw [scan_closing hx] at h
        rw [Nat.add_right_comm, scan_closing hx]
        exact ih h
    | plain =>
      rw [scan_plain hx] at h
      rw [scan_plain hx]
      exact ih h

theorem Balanced.scan_eq {xs : List α} (h : Balanced side xs) (d : ℕ) : scan side d xs = some d := by
  induction h generalizing d with
  | nil => rfl
  | plain hx _ ih => rw [scan_plain hx, ih]
  | group hl _ hr _ ihb ihx =>
    rw [scan_opening hl, scan_append, ihb]
    show scan side (d + 1) (_ :: _) = some d
    rw [scan_closing hr, ihx]

theorem Balanced.append {xs ys : List α} (hx : Balanced side xs) (hy : Balanced side ys) :
    Balanced side (xs ++ ys) := by
  induction hx with
  | nil => exact hy
  | plain h _ ih => exact .plain h ih
  | group hl hb hr _ _ ih =>
    rw [List.cons_append, List.append_assoc]
    exact .group hl hb hr ih

/-- A balanced list behind `d` closing brackets, each after a balanced list. -/
def Closes (side : α → Side) : ℕ → List α → Prop
  | 0, xs => Balanced side xs
  | d + 1, xs => ∃ body r rest, Balanced side body ∧ side r = .closing ∧ Closes side d rest ∧
      xs = body ++ r :: rest

theorem Closes.prepend {b : List α} (hb : Balanced side b) {d : ℕ} {xs : List α} (h : Closes side d xs) :
    Closes side d (b ++ xs) := by
  cases d with
  | zero => exact hb.append h
  | succ d =>
    obtain ⟨body, r, rest, hbody, hr, hrest, rfl⟩ := h
    exact ⟨b ++ body, r, rest, hb.append hbody, hr, hrest, (List.append_assoc ..).symm⟩

theorem closes_of_scan {d : ℕ} {xs : List α} (h : scan side d xs = some 0) : Closes side d xs := by
  induction xs generalizing d with
  | nil =>
    cases h
    exact .nil
  | cons x xs ih =>
    cases hx : side x with
    | opening =>
      rw [scan_opening hx] at h
      obtain ⟨body, r, rest, hbody, hr, hrest, rfl⟩ := ih h
      have hb : Balanced side (x :: (body ++ [r])) := .group hx hbody hr .nil
      simpa using hrest.prepend hb
    | closing =>
      cases d with
      | zero =>
        unfold scan at h
        rw [if_pos ⟨hx, rfl⟩] at h
        cases h
      | succ d =>
        rw [scan_closing hx] at h
        exact ⟨[], x, xs, .nil, hx, ih h, rfl⟩
    | plain =>
      rw [scan_plain hx] at h
      exact (ih h).prepend (.plain hx .nil)

/-- **The counter test**: balanced lists are those that a counter scans from 0 to 0. -/
theorem balanced_iff_scan (xs : List α) : Balanced side xs ↔ scan side 0 xs = some 0 :=
  ⟨fun h => h.scan_eq 0, fun h => closes_of_scan h⟩

/-- An opening bracket of a balanced list has its partner behind it, at any depth. -/
theorem Balanced.partner {pre post : List α} {l : α} (h : Balanced side (pre ++ l :: post))
    (hl : side l = .opening) :
    ∃ body r rest, Balanced side body ∧ side r = .closing ∧ post = body ++ r :: rest := by
  rw [balanced_iff_scan, scan_append] at h
  obtain ⟨d, -, hd⟩ := Option.bind_eq_some_iff.mp h
  rw [scan_opening hl] at hd
  obtain ⟨body, r, rest, hbody, hr, -, rfl⟩ := closes_of_scan hd
  exact ⟨body, r, rest, hbody, hr, rfl⟩

/-- Behind a balanced list, a closing bracket has no partner. -/
theorem Balanced.not_closed {xs ys : List α} {r : α} (h : Balanced side xs) (hr : side r = .closing) :
    ¬ Balanced side (xs ++ r :: ys) := by
  intro hb
  rw [balanced_iff_scan, scan_append, h.scan_eq 0, Option.bind_some] at hb
  unfold scan at hb
  rw [if_pos ⟨hr, rfl⟩] at hb
  cases hb

/-- An opening bracket in front of a part of a balanced list has no partner there. -/
theorem Balanced.not_opened {pre xs ys : List α} {l : α} (h : Balanced side (xs ++ ys)) (hl : side l = .opening) :
    ¬ Balanced side (pre ++ l :: xs) := by
  intro hb
  obtain ⟨body, r, rest, hbody, hr, rfl⟩ := hb.partner hl
  rw [List.append_assoc] at h
  exact hbody.not_closed hr h

theorem Balanced.right {xs ys : List α} (h : Balanced side (xs ++ ys)) (hx : Balanced side xs) :
    Balanced side ys := by
  rw [balanced_iff_scan, scan_append, hx.scan_eq] at h
  exact (balanced_iff_scan ys).mpr h

theorem Balanced.tail {x : α} {xs : List α} (h : Balanced side (x :: xs)) (hx : side x = .plain) :
    Balanced side xs := by
  rw [balanced_iff_scan, scan_plain hx] at h
  exact (balanced_iff_scan xs).mpr h

theorem Enclosed.balanced {xs : List α} (h : Enclosed side xs) : Balanced side xs := by
  obtain ⟨l, body, r, hl, hbody, hr, rfl⟩ := h
  exact .group hl hbody hr .nil

theorem enclosed_cons_concat {l r : α} {body : List α} :
    Enclosed side (l :: (body ++ [r])) ↔ side l = .opening ∧ Balanced side body ∧ side r = .closing := by
  constructor
  · rintro ⟨l', body', r', hl, hbody, hr, heq⟩
    obtain ⟨rfl, hrest⟩ := List.cons.inj heq
    obtain ⟨rfl, hlast⟩ := List.append_inj' hrest rfl
    obtain ⟨rfl, -⟩ := List.cons.inj hlast
    exact ⟨hl, hbody, hr⟩
  · rintro ⟨hl, hbody, hr⟩
    exact ⟨l, body, r, hl, hbody, hr, rfl⟩

/-- A proper prefix of an enclosed list is not balanced. -/
theorem Enclosed.not_balanced_prefix {l r : α} {body pre post : List α} (hl : side l = .opening)
    (hbody : Balanced side body) (h : l :: (body ++ [r]) = pre ++ post)
    (hpre : pre ≠ []) (hpost : post ≠ []) : ¬ Balanced side pre := by
  intro hb
  obtain ⟨x, t, rfl⟩ := List.exists_cons_of_ne_nil hpre
  obtain ⟨post', z, rfl⟩ := (List.eq_nil_or_concat' post).resolve_left hpost
  obtain ⟨rfl, ht⟩ := List.cons.inj h
  have hsplit : body = t ++ post' := by
    have := List.append_inj_left' (ht.trans (List.append_assoc ..).symm) rfl
    exact this
  -- inside the brackets the counter is at least 1
  have hscan := hbody.scan_eq 0
  rw [hsplit, scan_append] at hscan
  obtain ⟨d, hd, -⟩ := Option.bind_eq_some_iff.mp hscan
  have h0 := hb.scan_eq 0
  rw [scan_opening hl, scan_add hd 1] at h0
  cases h0

/-! ## The test for one enclosing pair -/

theorem held_cons (d : ℕ) (x : α) {xs : List α} (h : xs ≠ []) :
    held side d (x :: xs) = (decide (next side d x ≠ 0) && held side (next side d x) xs) := by
  obtain ⟨y, ys, rfl⟩ := List.exists_cons_of_ne_nil h
  rfl

/-- Inside a bracket, a balanced list never closes it. -/
theorem Balanced.held_append {xs : List α} (h : Balanced side xs) (d : ℕ) {ys : List α} (hy : ys ≠ []) :
    held side (d + 1) (xs ++ ys) = held side (d + 1) ys := by
  induction h generalizing d ys with
  | nil => rfl
  | plain hx _ ih =>
    rw [List.cons_append, held_cons _ _ (List.append_ne_nil_of_right_ne_nil _ hy), next_plain hx, ih d hy]
    simp
  | @group l body r xs hl _ hr _ ihb ihx =>
    have hxy : xs ++ ys ≠ [] := List.append_ne_nil_of_right_ne_nil _ hy
    have hrest : r :: (xs ++ ys) ≠ [] := List.cons_ne_nil _ _
    have happ : l :: (body ++ r :: xs) ++ ys = l :: (body ++ r :: (xs ++ ys)) := by simp
    rw [happ, held_cons _ _ (List.append_ne_nil_of_right_ne_nil _ hrest), next_opening hl, ihb (d + 1) hrest,
      held_cons _ _ hxy, next_closing hr, ihx d hy]
    simp

/-- **The enclosure test**: a balanced list of two elements or more is enclosed exactly when its depth is
not zero before the end. -/
theorem enclosed_iff {xs : List α} (hb : Balanced side xs) (hlen : 2 ≤ xs.length) :
    Enclosed side xs ↔ held side 0 xs = true := by
  constructor
  · rintro ⟨l, body, r, hl, hbody, hr, rfl⟩
    rw [held_cons _ _ (by simp), next_opening hl, hbody.held_append 0 (by simp)]
    rfl
  · intro h
    cases hb with
    | nil => simp at hlen
    | @plain x xs hx _ =>
      have hne : xs ≠ [] := by
        rintro rfl
        simp at hlen
      rw [held_cons _ _ hne, next_plain hx] at h
      simp at h
    | @group l body r rest hl hbody hr _ =>
      rcases rest with _ | ⟨y, rest⟩
      · exact ⟨l, body, r, hl, hbody, hr, rfl⟩
      · rw [held_cons _ _ (by simp), next_opening hl, hbody.held_append 0 (by simp), held_cons _ _ (by simp),
          next_closing hr] at h
        simp at h

/-! ## Outside all brackets -/

theorem tops_append {d e : ℕ} {xs : List α} (h : scan side d xs = some e) (i : ℤ) (ys : List α) :
    tops side d i (xs ++ ys) = tops side d i xs ++ tops side e (i + xs.length) ys := by
  induction xs generalizing d i with
  | nil =>
    cases h
    simp [tops]
  | cons x xs ih =>
    have hscan : scan side (next side d x) xs = some e := by
      unfold scan at h
      split at h
      · cases h
      · exact h
    have hpos : i + ((x :: xs).length : ℤ) = i + 1 + xs.length := by
      push_cast [List.length_cons]
      omega
    rw [hpos]
    show (if side x = .plain ∧ d = 0 then _ :: tops side _ _ (xs ++ ys) else tops side _ _ (xs ++ ys)) =
      (if side x = .plain ∧ d = 0 then _ :: tops side _ _ xs else tops side _ _ xs) ++ _
    rw [ih hscan]
    split <;> rfl

/-- Nothing inside a bracket is outside all brackets. -/
theorem Balanced.tops_succ {xs : List α} (h : Balanced side xs) (d : ℕ) (i : ℤ) : tops side (d + 1) i xs = [] := by
  induction h generalizing d i with
  | nil => rfl
  | plain hx _ ih =>
    unfold tops
    rw [if_neg (by simp), next_plain hx, ih]
  | @group l body r xs hl hb hr _ ihb ihx =>
    unfold tops
    rw [if_neg (by simp), next_opening hl, tops_append (hb.scan_eq _), ihb]
    unfold tops
    rw [if_neg (by simp), next_closing hr, ihx, List.nil_append]

theorem tops_plain {x : α} (h : side x = .plain) (i : ℤ) (xs : List α) :
    tops side 0 i (x :: xs) = (i, x) :: tops side 0 (i + 1) xs := by
  show (if side x = .plain ∧ 0 = 0 then _ else _) = _
  rw [if_pos ⟨h, rfl⟩, next_plain h]

theorem tops_group {l r : α} {body : List α} (hl : side l = .opening) (hb : Balanced side body)
    (hr : side r = .closing) (i : ℤ) (xs : List α) :
    tops side 0 i (l :: (body ++ r :: xs)) = tops side 0 (i + body.length + 2) xs := by
  show (if side l = .plain ∧ 0 = 0 then _ else _) = _
  rw [if_neg (by rw [hl]; simp), next_opening hl, tops_append (hb.scan_eq _), hb.tops_succ, List.nil_append]
  show (if side r = .plain ∧ 0 + 1 = 0 then _ else _) = _
  rw [if_neg (by simp), next_closing hr]
  congr 1
  omega

/-- An element outside all brackets splits a balanced list into two. -/
theorem exists_split_of_mem_tops {xs : List α} (h : Balanced side xs) {i j : ℤ} {x : α}
    (hx : (j, x) ∈ tops side 0 i xs) :
    ∃ l r, xs = l ++ x :: r ∧ Balanced side l ∧ Balanced side r ∧ side x = .plain ∧ j = i + l.length := by
  induction h generalizing i with
  | nil => cases hx
  | @plain y ys hy hys ih =>
    rw [tops_plain hy, List.mem_cons] at hx
    rcases hx with hx | hx
    · cases hx
      exact ⟨[], ys, rfl, .nil, hys, hy, by simp⟩
    · obtain ⟨l, r, rfl, hl, hr, hside, rfl⟩ := ih hx
      exact ⟨y :: l, r, rfl, .plain hy hl, hr, hside, by push_cast [List.length_cons]; omega⟩
  | @group a body c ys ha hb hc _ _ ih =>
    rw [tops_group ha hb hc] at hx
    obtain ⟨l, r, rfl, hl, hr, hside, rfl⟩ := ih hx
    refine ⟨a :: (body ++ c :: l), r, by simp, .group ha hb hc hl, hr, hside, ?_⟩
    push_cast [List.length_cons, List.length_append]
    omega

theorem tops_split {l r : List α} {x : α} (hl : Balanced side l) (hx : side x = .plain) (i : ℤ) :
    tops side 0 i (l ++ x :: r) =
      tops side 0 i l ++ (i + l.length, x) :: tops side 0 (i + l.length + 1) r := by
  rw [tops_append (hl.scan_eq 0), tops_plain hx]

end Bracket
