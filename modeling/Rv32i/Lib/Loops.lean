import Mathlib

/-!
# Loops and jumps

Programs of actions in a row and of loops, and the flat code with a jump at either end of a loop that stands for them.

* `Prog.run` — what a program does in a number of steps, while `go` holds; a loop goes on while `cond` holds;
* `Code.run` — the same for flat code, from a position in it;
* `Layout` — a part of the code is that of a program;
* `Follows.run_eq` — **flat code does step by step what its program does**;
* `Prog.tokens`, `Reading` — how a program is written, and what is known of it while it is read from the left.
-/

namespace Loops

/-- Actions in a row, with loops. -/
inductive Prog (α : Type*)
  | skip
  | act (a : α) (rest : Prog α)
  | loop (body rest : Prog α)

/-- What a run has come to: it goes on, it has ended, or an action was not possible. -/
inductive Result (σ : Type*)
  | running (s : σ)
  | done (s : σ)
  | fault

inductive Instr (α : Type*)
  | act (a : α)
  | forward (target : ℕ)
  | back (target : ℕ)
  | halt

inductive Token (α : Type*)
  | act (a : α)
  | opening
  | closing

variable {α σ : Type*}

namespace Prog

def append : Prog α → Prog α → Prog α
  | skip, q => q
  | act a p, q => act a (append p q)
  | loop b p, q => loop b (append p q)

def tokens : Prog α → List (Token α)
  | skip => []
  | act a p => .act a :: tokens p
  | loop b p => .opening :: (tokens b ++ .closing :: tokens p)

/-- How deep loops stand in each other. -/
def depth : Prog α → ℕ
  | skip => 0
  | act _ p => depth p
  | loop b p => max (depth b + 1) (depth p)

/-- The places that the code of a program takes. -/
def size (p : Prog α) : ℕ := p.tokens.length

@[simp] theorem size_skip : (skip : Prog α).size = 0 := rfl

@[simp] theorem size_act (a : α) (p : Prog α) : (act a p).size = p.size + 1 := rfl

@[simp] theorem size_loop (b p : Prog α) : (loop b p).size = b.size + p.size + 2 := by
  show (Token.opening :: (b.tokens ++ Token.closing :: p.tokens)).length = b.tokens.length + p.tokens.length + 2
  rw [List.length_cons, List.length_append, List.length_cons]
  omega

theorem tokens_append (p q : Prog α) : (p.append q).tokens = p.tokens ++ q.tokens := by
  induction p with
  | skip => rfl
  | act a p ih => exact congrArg (Token.act a :: ·) ih
  | loop b p _ ih =>
    show Token.opening :: (b.tokens ++ Token.closing :: (p.append q).tokens) = _
    rw [ih]
    simp [tokens]

theorem depth_append (p q : Prog α) : (p.append q).depth = max p.depth q.depth := by
  induction p with
  | skip => exact (Nat.zero_max _).symm
  | act a p ih => exact ih
  | loop b p _ ih =>
    show max (b.depth + 1) (p.append q).depth = max (max (b.depth + 1) p.depth) q.depth
    rw [ih, max_assoc]

end Prog

/-! ## Runs -/

section Run

variable (exec : α → σ → Option σ) (cond go : σ → Bool)

def Prog.run : ℕ → Prog α → σ → Result σ
  | 0, _, s => .running s
  | n + 1, p, s =>
    if go s then
      match p with
      | .skip => .done s
      | .act a p =>
        match exec a s with
        | none => .fault
        | some s' => Prog.run n p s'
      | .loop b p => if cond s then Prog.run n (b.append (.loop b p)) s else Prog.run n p s
    else .done s

def Code.run (code : ℕ → Instr α) : ℕ → ℕ → σ → Result σ
  | 0, _, s => .running s
  | n + 1, pc, s =>
    if go s then
      match code pc with
      | .halt => .done s
      | .act a =>
        match exec a s with
        | none => .fault
        | some s' => Code.run code n (pc + 1) s'
      | .forward t => if cond s then Code.run code n (pc + 1) s else Code.run code n (t + 1) s
      | .back t => if cond s then Code.run code n (t + 1) s else Code.run code n (pc + 1) s
    else .done s

end Run

/-! ## Layouts -/

/-- The code from `pc` to `pc'` is that of the program. -/
def Layout (code : ℕ → Instr α) : ℕ → Prog α → ℕ → Prop
  | pc, .skip, pc' => pc = pc'
  | pc, .act a p, pc' => code pc = .act a ∧ Layout code (pc + 1) p pc'
  | pc, .loop b p, pc' =>
    ∃ j, code pc = .forward j ∧ Layout code (pc + 1) b j ∧ code j = .back pc ∧ Layout code (j + 1) p pc'

/-- The code from `pc` on does what is left of a program: the rest of a loop's body, the loop again and what comes behind
it, or the rest of the program outside its loops. -/
inductive Follows (code : ℕ → Instr α) : ℕ → Prog α → Prop
  | last {pc e p} : Layout code pc p e → code e = .halt → Follows code pc p
  | inner {pc i j p b k} : Layout code pc p j → code j = .back i → code i = .forward j → Layout code (i + 1) b j →
      Follows code (j + 1) k → Follows code pc (p.append (.loop b k))

section Layout

variable {code code' : ℕ → Instr α}

theorem Layout.le {p : Prog α} {pc pc' : ℕ} (h : Layout code pc p pc') : pc ≤ pc' := by
  induction p generalizing pc pc' with
  | skip => exact Nat.le_of_eq h
  | act a p ih => exact Nat.le_of_succ_le (ih h.2)
  | loop b p ihb ih =>
    obtain ⟨j, _, hb, _, hp⟩ := h
    have hbj := ihb hb
    have hj := ih hp
    omega

/-- A layout depends on the code in its range only. -/
theorem Layout.congr {p : Prog α} {pc pc' : ℕ} (h : Layout code pc p pc')
    (hsame : ∀ i, pc ≤ i → i < pc' → code' i = code i) : Layout code' pc p pc' := by
  induction p generalizing pc pc' with
  | skip => exact h
  | act a p ih =>
    have hle := h.2.le
    exact ⟨(hsame pc le_rfl hle).trans h.1, ih h.2 fun i hi => hsame i (Nat.le_of_succ_le hi)⟩
  | loop b p ihb ih =>
    obtain ⟨j, hfwd, hb, hback, hp⟩ := h
    have hbj := hb.le
    have hj := hp.le
    refine ⟨j, (hsame pc le_rfl (by omega)).trans hfwd, ?_, (hsame j (by omega) hj).trans hback, ?_⟩
    · exact ihb hb fun i hi hlt => hsame i (by omega) (by omega)
    · exact ih hp fun i hi hlt => hsame i (by omega) hlt

namespace Follows

theorem halts {pc : ℕ} (h : Follows code pc .skip) : code pc = .halt := by
  generalize hk : (Prog.skip : Prog α) = k at h
  cases h with
  | last hlay hhalt =>
    subst hk
    exact (congrArg code hlay).trans hhalt
  | @inner _ _ _ p =>
    cases p <;> cases hk

theorem acts {pc : ℕ} {a : α} {q : Prog α} (h : Follows code pc (.act a q)) :
    code pc = .act a ∧ Follows code (pc + 1) q := by
  generalize hk : Prog.act a q = k at h
  cases h with
  | last hlay hhalt =>
    subst hk
    exact ⟨hlay.1, .last hlay.2 hhalt⟩
  | @inner _ _ _ p _ _ hlay hback hfwd hbody hnext =>
    cases p with
    | act a p =>
      cases hk
      exact ⟨hlay.1, .inner hlay.2 hback hfwd hbody hnext⟩
    | skip => cases hk
    | loop => cases hk

/-- At either end of a loop the code goes on with its body or behind it. -/
theorem loops {pc : ℕ} {b q : Prog α} (h : Follows code pc (.loop b q)) :
    ∃ i j, Follows code (i + 1) (b.append (.loop b q)) ∧ Follows code (j + 1) q ∧
      (pc = i ∧ code pc = .forward j ∨ pc = j ∧ code pc = .back i) := by
  generalize hk : Prog.loop b q = k at h
  cases h with
  | last hlay hhalt =>
    subst hk
    obtain ⟨j, hfwd, hb, hback, hq⟩ := hlay
    exact ⟨pc, j, .inner hb hback hfwd hb (.last hq hhalt), .last hq hhalt, .inl ⟨rfl, hfwd⟩⟩
  | @inner _ i j p _ _ hlay hback hfwd hbody hnext =>
    cases p with
    | skip =>
      cases hk
      obtain rfl : pc = j := hlay
      exact ⟨i, pc, .inner hbody hback hfwd hbody hnext, hnext, .inr ⟨rfl, hback⟩⟩
    | act => cases hk
    | loop b' p =>
      cases hk
      obtain ⟨j', hfwd', hb', hback', hp⟩ := hlay
      have hrest : Follows code (j' + 1) (p.append _) := .inner hp hback hfwd hbody hnext
      exact ⟨pc, j', .inner hb' hback' hfwd' hb' hrest, hrest, .inl ⟨rfl, hfwd'⟩⟩

variable (exec : α → σ → Option σ) (cond go : σ → Bool)

/-- **Flat code does step by step what its program does.** -/
theorem run_eq (n : ℕ) {pc : ℕ} {p : Prog α} (h : Follows code pc p) (s : σ) :
    Code.run exec cond go code n pc s = p.run exec cond go n s := by
  induction n generalizing pc p s with
  | zero => rfl
  | succ n ih =>
    unfold Code.run Prog.run
    by_cases hgo : go s = true
    · rw [if_pos hgo, if_pos hgo]
      cases p with
      | skip => rw [h.halts]
      | act a q =>
        rw [h.acts.1]
        cases hexec : exec a s with
        | none => simp only [hexec]
        | some s' => simpa only [hexec] using ih h.acts.2 s'
      | loop b q =>
        obtain ⟨i, j, hbody, hnext, ⟨rfl, hcode⟩ | ⟨rfl, hcode⟩⟩ := h.loops <;>
          rw [hcode] <;> dsimp only <;> rw [ih hbody, ih hnext]
    · rw [if_neg hgo, if_neg hgo]

end Follows

end Layout

/-! ## Reading from the left -/

/-- What has been read while some loops are still open: the blocks around the one that is being read, innermost first. -/
def Reading : List (Prog α) → Prog α → List (Token α)
  | [], p => p.tokens
  | q :: outer, p => Reading outer q ++ .opening :: p.tokens

/-- No more than `k` loops stand in each other. -/
def Within (k : ℕ) : List (Prog α) → Prog α → Prop
  | [], p => p.depth ≤ k
  | q :: outer, p => Within k outer q ∧ outer.length + 1 + p.depth ≤ k

section Reading

variable {k : ℕ} {outer : List (Prog α)} {p : Prog α}

theorem reading_append (outer : List (Prog α)) (p q : Prog α) :
    Reading outer (p.append q) = Reading outer p ++ q.tokens := by
  cases outer with
  | nil => exact Prog.tokens_append p q
  | cons r outer =>
    show Reading outer r ++ Token.opening :: (p.append q).tokens = Reading outer r ++ Token.opening :: p.tokens ++ q.tokens
    rw [Prog.tokens_append]
    simp

theorem Within.length_le (h : Within k outer p) : outer.length ≤ k := by
  cases outer with
  | nil => exact Nat.zero_le k
  | cons q outer => exact (Nat.le_add_right _ _).trans h.2

theorem Within.append (h : Within k outer p) {q : Prog α} (hq : outer.length + q.depth ≤ k) :
    Within k outer (p.append q) := by
  cases outer with
  | nil =>
    have hp : p.depth ≤ k := h
    show (p.append q).depth ≤ k
    rw [Prog.depth_append]
    exact max_le hp (by simpa using hq)
  | cons r outer =>
    refine ⟨h.1, ?_⟩
    have hp := h.2
    rw [List.length_cons] at hq
    rw [Prog.depth_append]
    omega

/-- An action is read. -/
theorem reading_act (a : α) : Reading outer (p.append (.act a .skip)) = Reading outer p ++ [.act a] :=
  reading_append outer p _

theorem Within.opened (h : Within k outer p) (hk : outer.length < k) : Within k (p :: outer) .skip := ⟨h, hk⟩

theorem Within.closed {q : Prog α} (h : Within k (q :: outer) p) : Within k outer (q.append (.loop p .skip)) := by
  refine h.1.append ?_
  have hdepth := h.2
  show outer.length + max (p.depth + 1) 0 ≤ k
  omega

/-- A loop is closed. -/
theorem reading_close (q : Prog α) :
    Reading outer (q.append (.loop p .skip)) = Reading (q :: outer) p ++ [.closing] := by
  rw [reading_append]
  simp [Reading, Prog.tokens]

end Reading

end Loops
