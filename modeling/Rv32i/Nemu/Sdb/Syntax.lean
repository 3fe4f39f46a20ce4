import Rv32i.Nemu.Sdb.Expr

/-!
# The expression language of the debugger

What the expressions of the debugger are and what they mean, without reference to how `expr` evaluates
them: syntax trees (`Ast`), their token lists with the precedences and the associativity of C
(`Derives`), the strings that show a token list (`Renders`), and their value (`Ast.value`).
-/

namespace Nemu

open Rv32

/-! ## Tokens of the language -/

/-- An operand token: a literal or a register name. -/
def Token.IsOperand (t : Token) : Prop := t.type = .dec ∨ t.type = .hex ∨ t.type = .reg

/-- The text of a token is one its type allows. -/
def Token.WellFormed (t : Token) : Prop :=
  match t.type with
  | .dec => t.str ≠ [] ∧ ∀ c ∈ t.str, isDigit c = true
  | .hex => ∃ x ds, t.str = '0' :: x :: ds ∧ (x = 'x' ∨ x = 'X') ∧ ds ≠ [] ∧ ∀ c ∈ ds, isHexDigit c = true
  | .reg => ∃ cs, t.str = '$' :: cs ∧ cs ≠ [] ∧ ∀ c ∈ cs, isAlnum c = true
  | .plus => t.str = ['+']
  | .dash => t.str = ['-']
  | .star => t.str = ['*']
  | .slash => t.str = ['/']
  | .lparen => t.str = ['(']
  | .rparen => t.str = [')']
  | .eq => t.str = ['=', '=']
  | .neq => t.str = ['!', '=']
  | .and => t.str = ['&', '&']
  | _ => False

/-- A literal or a register name. -/
structure Atom where
  token : Token
  isOperand : token.IsOperand
  wellFormed : token.WellFormed

inductive BinOp
  | add | sub | mul | div | eq | neq | and
  deriving DecidableEq, Repr

inductive PreOp
  | neg | deref
  deriving DecidableEq, Repr

def lparen : Token := ⟨.lparen, ['(']⟩
def rparen : Token := ⟨.rparen, [')']⟩

def BinOp.token : BinOp → Token
  | .add => ⟨.plus, ['+']⟩
  | .sub => ⟨.dash, ['-']⟩
  | .mul => ⟨.star, ['*']⟩
  | .div => ⟨.slash, ['/']⟩
  | .eq => ⟨.eq, ['=', '=']⟩
  | .neq => ⟨.neq, ['!', '=']⟩
  | .and => ⟨.and, ['&', '&']⟩

/-- As written, a prefix operator looks like a binary one. -/
def PreOp.token : PreOp → Token
  | .neg => ⟨.dash, ['-']⟩
  | .deref => ⟨.star, ['*']⟩

/-! ## Trees and their token lists -/

inductive Ast
  | atom (a : Atom)
  | pre (o : PreOp) (e : Ast)
  | bin (o : BinOp) (l r : Ast)

/-- The precedence of C, the tightest first. -/
def BinOp.level : BinOp → ℕ
  | .mul | .div => 2
  | .add | .sub => 3
  | .eq | .neq => 4
  | .and => 5

/-- The tree is written as the token list, with parentheses where the level asks for them and wherever
else one likes; the binary operators associate to the left. -/
inductive Derives : ℕ → Ast → List Token → Prop
  | atom (a : Atom) : Derives 0 (.atom a) [a.token]
  | paren {e ts} : Derives 5 e ts → Derives 0 e (lparen :: (ts ++ [rparen]))
  | pre {o e ts} : Derives 1 e ts → Derives 1 (.pre o e) (o.token :: ts)
  | bin {o l r ls rs} : Derives o.level l ls → Derives (o.level - 1) r rs →
      Derives o.level (.bin o l r) (ls ++ o.token :: rs)
  | up {k e ts} : Derives k e ts → Derives (k + 1) e ts

/-- The string shows the tokens, with any number of spaces around them. -/
inductive Renders : List Token → List Char → Prop
  | nil (n : ℕ) : Renders [] (List.replicate n ' ')
  | cons (n : ℕ) {t ts s} : Renders ts s → Renders (t :: ts) (List.replicate n ' ' ++ (t.str ++ s))

/-! ## Conditions on trees -/

/-- The names of `x0`, …, `x31`. -/
def gprNames : List (List Char) := ['$', '0'] :: regs.tail.map ('$' :: ·)

/-- A register name is known. -/
def Atom.Known (a : Atom) : Prop := a.token.type = .reg → a.token.str ∈ ['$', 'p', 'c'] :: gprNames

/-- A literal fits 64 bits: a decimal one is below `2 ^ 63`, a hexadecimal one has at most 16 digits. -/
def Atom.InRange (a : Atom) : Prop :=
  (a.token.type = .dec → number 10 a.token.str < 2 ^ 63) ∧ (a.token.type = .hex → a.token.str.length ≤ 18)

/-- A condition holds of every atom of the tree. -/
def Ast.All (P : Atom → Prop) : Ast → Prop
  | .atom a => P a
  | .pre _ e => e.All P
  | .bin _ l r => l.All P ∧ r.All P

def Ast.PrefixFree : Ast → Prop
  | .atom _ => True
  | .pre _ _ => False
  | .bin _ l r => l.PrefixFree ∧ r.PrefixFree

/-! ## Values -/

/-- The value of the register of a known name. -/
def regValue (cpu : CPUState) (name : List Char) : Word :=
  if name = ['$', 'p', 'c'] then cpu.pc else cpu.gpr (BitVec.ofNat 5 (gprNames.idxOf name))

/-- The value of an atom. -/
def Atom.value (m : Machine) (a : Atom) : Word :=
  match a.token.type with
  | .dec => BitVec.ofNat 32 (number 10 a.token.str)
  | .hex => BitVec.ofNat 32 (number 16 (a.token.str.drop 2))
  | _ => regValue m.cpu a.token.str

def BinOp.value : BinOp → Word → Word → Word
  | .add, x, y => x + y
  | .sub, x, y => x - y
  | .mul, x, y => x * y
  | .div, x, y => if y = 0 then 0 else BitVec.ofNat 32 (x.toNat / y.toNat)
  | .eq, x, y => flag (x = y)
  | .neq, x, y => flag (x ≠ y)
  | .and, x, y => flag (x ≠ 0 ∧ y ≠ 0)

def PreOp.value (m : Machine) : PreOp → Word → Word
  | .neg, x => -x
  | .deref, x => loadBytes (guestMem m.pmem) x .word

/-- The value of a tree, in 32-bit arithmetic. -/
def Ast.value (m : Machine) : Ast → Word
  | .atom a => a.value m
  | .pre o e => o.value m (e.value m)
  | .bin o l r => o.value (l.value m) (r.value m)

/-- Every address that is dereferenced has its word in `pmem`. -/
def Ast.Defined (m : Machine) : Ast → Prop
  | .atom _ => True
  | .pre .neg e => e.Defined m
  | .pre .deref e => e.Defined m ∧ InPmem (e.value m) .word
  | .bin _ l r => l.Defined m ∧ r.Defined m

/-! ## Atoms -/

/-- The lookup finds the register of every known name. -/
theorem isaRegStr2val_eq {s : List Char} (h : s ∈ ['$', 'p', 'c'] :: gprNames) (cpu : CPUState) :
    isaRegStr2val cpu s = some (regValue cpu s) := by
  simp only [gprNames, regs, List.tail_cons, List.map_cons, List.map_nil, List.mem_cons, List.not_mem_nil,
    or_false] at h
  repeat' rcases h with rfl | h
  all_goals rfl

theorem isDigit_iff (c : Char) : isDigit c = true ↔ 48 ≤ c.toNat ∧ c.toNat ≤ 57 := by
  unfold isDigit
  rw [decide_eq_true_iff]
  exact Iff.rfl

theorem digit_lt {c : Char} (h : isHexDigit c = true) : digit c < 16 := by
  have hle : ∀ d : Char, (c ≤ d ↔ c.toNat ≤ d.toNat) ∧ (d ≤ c ↔ d.toNat ≤ c.toNat) := fun d => ⟨Iff.rfl, Iff.rfl⟩
  unfold isHexDigit at h
  unfold digit
  simp only [Bool.decide_or, Bool.or_eq_true, decide_eq_true_eq, isDigit_iff, (hle _).1, (hle _).2] at h ⊢
  have h0 : '0'.toNat = 48 := rfl
  have ha : 'a'.toNat = 97 := rfl
  have hf : 'f'.toNat = 102 := rfl
  have hA : 'A'.toNat = 65 := rfl
  have hF : 'F'.toNat = 70 := rfl
  split_ifs <;> omega

theorem number_lt {b : ℕ} {s : List Char} (h : ∀ c ∈ s, digit c < b) : number b s < b ^ s.length := by
  have hfold : ∀ n, s.foldl (fun n c => n * b + digit c) n < (n + 1) * b ^ s.length := by
    induction s with
    | nil => intro n; simp
    | cons c s ih =>
      intro n
      have hc := h c List.mem_cons_self
      have ih := ih (fun d hd => h d (List.mem_cons_of_mem _ hd)) (n * b + digit c)
      refine ih.trans_le ?_
      rw [List.length_cons, Nat.pow_succ', ← Nat.mul_assoc]
      exact Nat.mul_le_mul_right _ (by rw [Nat.add_mul]; omega)
  have := hfold 0
  rwa [Nat.zero_add, Nat.one_mul] at this

theorem takeWhile_all {f : Char → Bool} {s : List Char} (h : ∀ c ∈ s, f c = true) : s.takeWhile f = s :=
  List.takeWhile_eq_self_iff.mpr h

theorem atoi_digits {s : List Char} (hne : s ≠ []) (h : ∀ c ∈ s, isDigit c = true) (hlt : number 10 s < 2 ^ 63) :
    atoi s = BitVec.ofNat 32 (number 10 s) := by
  obtain ⟨c, t, rfl⟩ := List.exists_cons_of_ne_nil hne
  have hc := h c List.mem_cons_self
  have hblank : (c :: t).dropWhile (fun c => decide (c = ' ' ∨ ('\t' ≤ c ∧ c ≤ '\r'))) = c :: t := by
    have : ¬ (c = ' ' ∨ ('\t' ≤ c ∧ c ≤ '\r')) := by
      rw [isDigit_iff] at hc
      rintro (rfl | ⟨-, hle⟩)
      · revert hc; decide
      · have : c.toNat ≤ 13 := hle
        omega
    rw [List.dropWhile_cons, if_neg (by simpa using this)]
  have hsign : takeSign (c :: t) = (false, c :: t) := by
    unfold takeSign
    split
    · cases ‹_ = _›
      exact absurd hc (by decide)
    · cases ‹_ = _›
      exact absurd hc (by decide)
    · rfl
  have hmin : min (number 10 (c :: t) : ℤ) (2 ^ 63 - 1) = number 10 (c :: t) := by omega
  unfold atoi
  rw [hblank, hsign]
  show BitVec.ofInt 32 (min (number 10 ((c :: t).takeWhile isDigit) : ℤ) (2 ^ 63 - 1)) = _
  rw [takeWhile_all h, hmin, BitVec.ofInt_natCast]

/-- The value of an atom in range, known if it is a register. -/
theorem evalToken_atom (m : Machine) {a : Atom} (hr : a.InRange) (hk : a.Known) :
    evalToken m a.token = .ok (a.value m) := by
  have hwf := a.wellFormed
  unfold Token.WellFormed at hwf
  unfold evalToken Atom.value
  rcases a.isOperand with h | h | h
  · rw [h] at hwf ⊢
    exact congrArg Except.ok (atoi_digits hwf.1 hwf.2 (hr.1 h))
  · rw [h] at hwf ⊢
    obtain ⟨x, ds, hstr, -, -, hds⟩ := hwf
    have hlen : ds.length ≤ 16 := by
      have := hr.2 h
      rw [hstr, List.length_cons, List.length_cons] at this
      omega
    have hlt : number 16 ds < 2 ^ 64 :=
      (number_lt fun c hc => digit_lt (hds c hc)).trans_le (Nat.pow_le_pow_right (by decide) hlen)
    have hmin : min (number 16 ds) (2 ^ 64 - 1) = number 16 ds := by omega
    show Except.ok (sscanfHex a.token.str) = .ok (BitVec.ofNat 32 (number 16 (a.token.str.drop 2)))
    unfold sscanfHex
    rw [hstr]
    show Except.ok (BitVec.ofNat 32 (min (number 16 (ds.takeWhile isHexDigit)) (2 ^ 64 - 1))) = _
    rw [takeWhile_all hds, hmin]
    rfl
  · rw [h]
    show Except.ok ((isaRegStr2val m.cpu a.token.str).getD 0) = _
    rw [isaRegStr2val_eq (hk h)]
    rfl

end Nemu
