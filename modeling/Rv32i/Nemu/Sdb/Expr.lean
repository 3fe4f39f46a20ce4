import Rv32i.Lib.Regex
import Rv32i.Nemu.Inst

/-!
# NEMU: the expression evaluator of the debugger

`src/monitor/sdb/expr.c` and the register lookup of `src/isa/riscv32/reg.c`.  The static variables of
`expr.c` are one state (`ExprState`).  A C `int` that indexes the token array is an integer, because
`eval` is called with `q = -1`.  What is printed is left out.

`eval` recurs on the host stack: its first argument is the number of frames that are left.
-/

namespace Nemu

open Rv32

/-! ## Tokens -/

/-- The token types; `unset` is the 0 of a token that was never written, and the character types are
named after what they look like. -/
inductive TokenType
  | unset
  | notype | eq | hex | dec | minus | and | reg | neq | deref
  | plus | dash | star | slash | lparen | rparen
  deriving DecidableEq, Repr

/-- A token; `str` is the text up to the terminating NUL. -/
structure Token where
  type : TokenType
  str : List Char
  deriving DecidableEq, Repr

structure Rule where
  regex : List (Regex.Piece Char)
  tokenType : TokenType

def chr (c : Char) : Regex.Piece Char := Regex.one fun x => x = c

def isDigit (c : Char) : Bool := '0' ≤ c ∧ c ≤ '9'
def isHexDigit (c : Char) : Bool := isDigit c ∨ ('a' ≤ c ∧ c ≤ 'f') ∨ ('A' ≤ c ∧ c ≤ 'F')
def isAlnum (c : Char) : Bool := ('a' ≤ c ∧ c ≤ 'z') ∨ ('A' ≤ c ∧ c ≤ 'Z') ∨ isDigit c

def rules : List Rule := [
  ⟨[Regex.plus fun c => c = ' '], .notype⟩,
  ⟨[chr '+'], .plus⟩,
  ⟨[chr '-'], .dash⟩,
  ⟨[chr '*'], .star⟩,
  ⟨[chr '/'], .slash⟩,
  ⟨[chr '('], .lparen⟩,
  ⟨[chr ')'], .rparen⟩,
  ⟨[chr '=', chr '='], .eq⟩,
  ⟨[chr '!', chr '='], .neq⟩,
  ⟨[chr '&', chr '&'], .and⟩,
  ⟨[chr '$', Regex.plus isAlnum], .reg⟩,
  ⟨[chr '0', Regex.one fun c => c = 'x' ∨ c = 'X', Regex.plus isHexDigit], .hex⟩,
  ⟨[Regex.plus isDigit], .dec⟩]

/-- The static variables of `expr.c`.  `tokens i` is `tokens[i]`; the array has 32 elements, and an index
outside it is the host memory around it. -/
structure ExprState where
  tokens : ℤ → Token
  nrToken : ℕ
  lengthToken : ℕ
  isBadExpression : Bool

/-- The state before the first call. -/
def ExprState.init : ExprState where
  tokens := fun _ => ⟨.unset, []⟩
  nrToken := 0
  lengthToken := 0
  isBadExpression := false

/-- The first rule that matches at the start of the text, with the length of its match. -/
def firstRule (e : List Char) : Option (TokenType × ℕ) :=
  rules.findSome? fun r =>
    match Regex.regexec r.regex e with
    | some (0, len) => some (r.tokenType, len)
    | _ => none

/-- The body of `while (e[position] != '\0')`; the text is what is left from `position` on. -/
def makeTokenLoop : ℕ → List Char → ExprState → Exec (Bool × ExprState)
  | _, [], d => .ok (true, d)
  | 0, _ :: _, _ => .error .loop
  | n + 1, e, d =>
    match firstRule e with
    | none => .ok (false, d)
    | some (type, len) =>
      if type = .notype then makeTokenLoop n (e.drop len) d
      else if 32 ≤ d.nrToken ∨ 32 ≤ len then .error .overrun
      else makeTokenLoop n (e.drop len)
        { d with
          tokens := Function.update d.tokens d.nrToken ⟨type, e.take len⟩
          nrToken := d.nrToken + 1
          lengthToken := d.lengthToken + 1 }

def makeToken (e : List Char) (d : ExprState) : Exec (Bool × ExprState) :=
  makeTokenLoop e.length e { d with nrToken := 0, lengthToken := 0 }

/-! ## Parentheses -/

section Array

variable (tokens : ℤ → Token)

/-- `for (i = …; i <= q; i++)` of `check_parentheses`, with the number of rounds left. -/
def checkLoop (q : ℤ) : ℕ → ℤ → ℕ → Bool → Bool × Bool
  | 0, _, stack, full => if stack ≠ 0 then (false, true) else (full, false)
  | n + 1, i, stack, full =>
    if (tokens i).type = .rparen ∧ stack = 0 then (false, true)
    else
      let stack :=
        if (tokens i).type = .lparen then stack + 1
        else if (tokens i).type = .rparen then stack - 1
        else stack
      checkLoop q n (i + 1) stack (if stack = 0 ∧ i ≠ q then false else full)

/-- The result and the new value of `is_bad_expression`. -/
def checkParentheses (p q : ℤ) (bad : Bool) : Bool × Bool :=
  if p > q then (false, bad) else checkLoop tokens q (q - p + 1).toNat p 0 true

/-! ## The main operator -/

def getOpPrecedence : TokenType → ℤ
  | .lparen | .rparen => 0
  | .minus | .deref => 1
  | .star | .slash => 2
  | .plus | .dash => 3
  | .eq | .neq => 4
  | .and => 5
  | _ => -1

/-- `while (check_parentheses(i, j) == false) j++`; `n` is the number of array elements from `j` on. -/
def closeLoop (i : ℤ) : ℕ → ℤ → Bool → Exec (ℤ × Bool)
  | 0, _, _ => .error .overrun
  | n + 1, j, bad =>
    let (closed, bad) := checkParentheses tokens i j bad
    if closed then .ok (j, bad) else closeLoop i n (j + 1) bad

/-- `for (i = p; i <= q; i++)` of `get_main_op`; the stack is a list with its top first. -/
def mainOpLoop (q : ℤ) : ℕ → ℤ → List ℤ → Bool → Exec (List ℤ × Bool)
  | 0, _, stack, bad => .ok (stack, bad)
  | n + 1, i, stack, bad =>
    if i > q then .ok (stack, bad)
    else
      let precedence := getOpPrecedence (tokens i).type
      if precedence = -1 then mainOpLoop q n (i + 1) stack bad
      else if precedence ≠ 0 then
        match stack with
        | [] => mainOpLoop q n (i + 1) [i] bad
        | top :: rest =>
          if precedence ≥ getOpPrecedence (tokens top).type then mainOpLoop q n (i + 1) (i :: top :: rest) bad
          else mainOpLoop q n (i + 1) (top :: rest) bad
      else do
        let (j, bad) ← closeLoop tokens i (32 - (i + 1)).toNat (i + 1) bad
        if j ≤ q then mainOpLoop q n (j + 1) stack bad else .error .assert

def getMainOp (p q : ℤ) (bad : Bool) : Exec (ℤ × Bool) := do
  let (stack, bad) ← mainOpLoop tokens q (q - p + 1).toNat p [] bad
  return (stack.head?.getD 0, bad)

/-! ## Prefix operators -/

/-- `-` becomes `TK_MINUS` and `*` becomes `TK_DEREF`. -/
def prefixType : TokenType → TokenType
  | .dash => .minus
  | .star => .deref
  | t => t

def tokeniseLoop : ℕ → ℤ → (ℤ → Token) → ℤ → Token
  | 0, _, tokens => tokens
  | n + 1, i, tokens =>
    let t := tokens i
    let opType := (tokens (i - 1)).type
    if (t.type = .dash ∨ t.type = .star) ∧
        (opType = .plus ∨ opType = .dash ∨ opType = .star ∨ opType = .slash ∨ opType = .lparen) then
      tokeniseLoop n (i + 1) (Function.update tokens i ⟨prefixType t.type, t.str⟩)
    else tokeniseLoop n (i + 1) tokens

def tokenise (lengthToken : ℕ) : ℤ → Token :=
  tokeniseLoop (lengthToken - 1) 1
    (Function.update tokens 0 ⟨prefixType (tokens 0).type, (tokens 0).str⟩)

end Array

/-! ## Literals and registers -/

/-- The value of a digit character, in any base up to 16. -/
def digit (c : Char) : ℕ :=
  if isDigit c then c.toNat - '0'.toNat
  else if 'a' ≤ c ∧ c ≤ 'f' then c.toNat - 'a'.toNat + 10
  else c.toNat - 'A'.toNat + 10

/-- A digit string as a number. -/
def number (base : ℕ) (s : List Char) : ℕ := s.foldl (fun n c => n * base + digit c) 0

/-- An optional sign: whether it is `-`, and the text behind it. -/
def takeSign (s : List Char) : Bool × List Char :=
  match s with
  | '-' :: s => (true, s)
  | '+' :: s => (false, s)
  | s => (false, s)

/-- `atoi`: blanks, a sign and digits, clamped to a 64-bit `long` and cut to an `int`. -/
def atoi (s : List Char) : Word :=
  let (neg, s) := takeSign (s.dropWhile fun c => c = ' ' ∨ ('\t' ≤ c ∧ c ≤ '\r'))
  let n : ℤ := number 10 (s.takeWhile isDigit)
  BitVec.ofInt 32 (if neg then max (-n) (-2 ^ 63) else min n (2 ^ 63 - 1))

/-- `sscanf(s, "%x", &val)` on the text of a hex token: clamped to 64 bits and cut to an `unsigned`. -/
def sscanfHex (s : List Char) : Word :=
  BitVec.ofNat 32 (min (number 16 ((s.drop 2).takeWhile isHexDigit)) (2 ^ 64 - 1))

/-- The register names; `regs[0]` carries its `$`. -/
def regs : List (List Char) := [
  ['$', '0'], ['r', 'a'], ['s', 'p'], ['g', 'p'], ['t', 'p'], ['t', '0'], ['t', '1'], ['t', '2'],
  ['s', '0'], ['s', '1'], ['a', '0'], ['a', '1'], ['a', '2'], ['a', '3'], ['a', '4'], ['a', '5'],
  ['a', '6'], ['a', '7'], ['s', '2'], ['s', '3'], ['s', '4'], ['s', '5'], ['s', '6'], ['s', '7'],
  ['s', '8'], ['s', '9'], ['s', '1', '0'], ['s', '1', '1'], ['t', '3'], ['t', '4'], ['t', '5'], ['t', '6']]

/-- `isa_reg_str2val`; `none` is `*success = false`. -/
def isaRegStr2val (cpu : CPUState) (s : List Char) : Option Word :=
  if s = ['$', '0'] then some (cpu.gpr 0)
  else if s = ['$', 'p', 'c'] then some cpu.pc
  else
    let i := regs.tail.findIdx fun r => s.tail = r
    if i < 31 then some (cpu.gpr (BitVec.ofNat 5 (i + 1))) else none

/-! ## Evaluation -/

/-- The arithmetic of an operator token; `TK_MINUS` ignores its left operand. -/
def applyOp (m : Machine) (opType : TokenType) (val1 val2 : Word) : Exec Word :=
  match opType with
  | .plus => .ok (val1 + val2)
  | .dash => .ok (val1 - val2)
  | .star => .ok (val1 * val2)
  | .slash => .ok (if val2 ≠ 0 then val1 / val2 else 0)
  | .eq => .ok (flag (val1 = val2))
  | .neq => .ok (flag (val1 ≠ val2))
  | .and => .ok (flag (val1 ≠ 0 ∧ val2 ≠ 0))
  | .minus => .ok (-val2)
  | .deref => if inPmem val2 then paddrRead m.pmem val2 4 else .ok 0
  | _ => .ok 0

/-- The value of a single token. -/
def evalToken (m : Machine) (t : Token) : Exec Word :=
  match t.type with
  | .dec => .ok (atoi t.str)
  | .hex => .ok (sscanfHex t.str)
  | .reg => .ok ((isaRegStr2val m.cpu t.str).getD 0)
  | _ => .error .assert

/-- `eval(p, q)`, with the new value of `is_bad_expression`. -/
def eval (tokens : ℤ → Token) (m : Machine) : ℕ → ℤ → ℤ → Bool → Exec (Word × Bool)
  | 0, _, _, _ => .error .stack
  | frames + 1, p, q, bad =>
    let (closed, bad) := checkParentheses tokens p q bad
    if closed = false ∧ bad = true then .ok (0, bad)
    else if p > q then .ok (0, bad)
    else if p = q then do
      let val ← evalToken m (tokens p)
      return (val, bad)
    else
      let (closed, bad) := checkParentheses tokens p q bad
      if closed then eval tokens m frames (p + 1) (q - 1) bad
      else do
        let (op, bad) ← getMainOp tokens p q bad
        let (val1, bad) ← eval tokens m frames p (op - 1) bad
        let (val2, bad) ← eval tokens m frames (op + 1) q bad
        let val ← applyOp m (tokens op).type val1 val2
        return (val, bad)

/-- `expr(e, &success)`: the value, `success` and the new static variables. -/
def expr (frames : ℕ) (m : Machine) (e : List Char) (d : ExprState) : Exec (Word × Bool × ExprState) := do
  let (ok, d) ← makeToken e d
  if ok then
    let tokens := tokenise d.tokens d.lengthToken
    let (val, bad) ← eval tokens m frames 0 (d.lengthToken - 1) d.isBadExpression
    return (val, true, { d with tokens, isBadExpression := bad })
  else return (0, false, d)

end Nemu
