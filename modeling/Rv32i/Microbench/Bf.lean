import Rv32i.Lib.Loops

/-!
# microbench: compiling and running bf programs

`am-kernels/benchmarks/microbench/src/bf/bf.c`: `compile_bf` writes an instruction for each command and the other end of its
loop into each bracket, with a stack of the open loops, and `execute_bf` runs the instructions.

* `compileBf_iff` — **what is compiled**: the texts with matching brackets, within the sizes of the program and the stack;
* `executeBf_compiled` — **the instructions do step by step what the loops of the text do**, with wrapping cells, a stop
  when the pointer leaves the tape, and no run beyond the input or the output.
-/

namespace Microbench.Bf

open Loops

def programSize : ℕ := 4096

def stackSize : ℕ := 512

def dataSize : ℕ := 4096

inductive Operator
  | «end» | incDp | decDp | incVal | decVal | out | «in» | jmpFwd | jmpBck
  deriving DecidableEq

structure Instruction where
  operator : Operator
  operand : ℕ

/-- The memory of `bench_alloc` is zero. -/
def allocated : ℕ → Instruction := fun _ => ⟨.end, 0⟩

/-! ## `compile_bf` -/

/-- `pc`, the top `SP` of the stack with the last entry first, and `PROGRAM`. -/
structure Compiler where
  pc : ℕ
  stack : List ℕ
  program : ℕ → Instruction

namespace Compiler

def setOperator (s : Compiler) (i : ℕ) (op : Operator) : Compiler :=
  { s with program := Function.update s.program i { s.program i with operator := op } }

def setOperand (s : Compiler) (i x : ℕ) : Compiler :=
  { s with program := Function.update s.program i { s.program i with operand := x } }

/-- A command, and `pc++`. -/
def emit (s : Compiler) (op : Operator) : Compiler := { s.setOperator s.pc op with pc := s.pc + 1 }

/-- The case of `[`, and `pc++`. -/
def openLoop (s : Compiler) : Except Compiler Compiler :=
  let s := s.setOperator s.pc .jmpFwd
  if s.stack.length = stackSize then .error s else .ok { s with stack := s.pc :: s.stack, pc := s.pc + 1 }

/-- The writes for a `]`, when `jmpPc` has been popped, and `pc++`. -/
def closed (s : Compiler) (jmpPc : ℕ) (stack : List ℕ) : Compiler :=
  { ((s.setOperator s.pc .jmpBck).setOperand s.pc jmpPc).setOperand jmpPc s.pc with stack := stack, pc := s.pc + 1 }

/-- The case of `]`. -/
def closeLoop (s : Compiler) : Except Compiler Compiler :=
  match s.stack with
  | [] => .error s
  | jmpPc :: stack => .ok (s.closed jmpPc stack)

/-- A pass of the loop; `FAILURE` is an error. -/
def switch (c : Char) (s : Compiler) : Except Compiler Compiler :=
  match c with
  | '>' => .ok (s.emit .incDp)
  | '<' => .ok (s.emit .decDp)
  | '+' => .ok (s.emit .incVal)
  | '-' => .ok (s.emit .decVal)
  | '.' => .ok (s.emit .out)
  | ',' => .ok (s.emit .in)
  | '[' => s.openLoop
  | ']' => s.closeLoop
  -- `pc--`, and `pc++` again
  | _ => .ok s

end Compiler

/-- The loop over the characters before the terminator. -/
def compileLoop : List Char → Compiler → Except Compiler Compiler
  | [], s => .ok s
  | c :: code, s => if programSize ≤ s.pc then .ok s else (s.switch c).bind (compileLoop code)

def compileBf (code : List Char) (program : ℕ → Instruction) : Except Compiler Compiler := do
  let s ← compileLoop code { pc := 0, stack := [], program := program }
  if s.stack ≠ [] ∨ s.pc = programSize then .error s else .ok (s.setOperator s.pc .end)

/-! ## `execute_bf` -/

structure Machine where
  ptr : BitVec 32
  data : ℕ → BitVec 16
  input : List (BitVec 8)
  output : List (BitVec 8)

namespace Machine

def setData (m : Machine) (x : BitVec 16) : Machine := { m with data := Function.update m.data m.ptr.toNat x }

def cell (m : Machine) : BitVec 16 := m.data m.ptr.toNat

/-- `output[noutput ++] = data[ptr]`; beyond the buffer it is undefined. -/
def write (m : Machine) : Option Machine :=
  if m.output.length < dataSize then some { m with output := m.output ++ [m.cell.truncate 8] } else none

/-- `data[ptr] = *(input ++)`, where a `char` may be signed or not; beyond the buffer it is undefined. -/
def read (widen : BitVec 8 → BitVec 16) (m : Machine) : Option Machine :=
  match m.input with
  | [] => none
  | c :: input => some ({ m with input := input }.setData (widen c))

end Machine

/-- The loop for a number of passes. -/
def executeBf (widen : BitVec 8 → BitVec 16) (program : ℕ → Instruction) : ℕ → ℕ → Machine → Result Machine
  | 0, _, m => .running m
  | n + 1, pc, m =>
    if (program pc).operator ≠ .end ∧ m.ptr.toNat < dataSize then
      match (program pc).operator with
      | .incDp => executeBf widen program n (pc + 1) { m with ptr := m.ptr + 1 }
      | .decDp => executeBf widen program n (pc + 1) { m with ptr := m.ptr - 1 }
      | .incVal => executeBf widen program n (pc + 1) (m.setData (m.cell + 1))
      | .decVal => executeBf widen program n (pc + 1) (m.setData (m.cell - 1))
      | .out =>
        match m.write with
        | none => .fault
        | some m => executeBf widen program n (pc + 1) m
      | .in =>
        match m.read widen with
        | none => .fault
        | some m => executeBf widen program n (pc + 1) m
      | .jmpFwd => executeBf widen program n ((if m.cell = 0 then (program pc).operand else pc) + 1) m
      | .jmpBck => executeBf widen program n ((if m.cell ≠ 0 then (program pc).operand else pc) + 1) m
      | .end => .done m
    else .done m

/-! ## The language -/

inductive Command
  | incDp | decDp | incVal | decVal | out | «in»

def token : Char → Option (Token Command)
  | '>' => some (.act .incDp)
  | '<' => some (.act .decDp)
  | '+' => some (.act .incVal)
  | '-' => some (.act .decVal)
  | '.' => some (.act .out)
  | ',' => some (.act .in)
  | '[' => some .opening
  | ']' => some .closing
  | _ => none

/-- The text of a program, with any comments between its commands. -/
def IsText (code : List Char) (p : Prog Command) : Prop := code.filterMap token = p.tokens

/-- A command on the tape. -/
def exec (widen : BitVec 8 → BitVec 16) : Command → Machine → Option Machine
  | .incDp, m => some { m with ptr := m.ptr + 1 }
  | .decDp, m => some { m with ptr := m.ptr - 1 }
  | .incVal, m => some (m.setData (m.cell + 1))
  | .decVal, m => some (m.setData (m.cell - 1))
  | .out, m => m.write
  | .in, m => m.read widen

/-- A loop goes on while the cell is not zero. -/
def goesOn (m : Machine) : Bool := m.cell ≠ 0

def onTape (m : Machine) : Bool := m.ptr.toNat < dataSize

def Command.operator : Command → Operator
  | .incDp => .incDp
  | .decDp => .decDp
  | .incVal => .incVal
  | .decVal => .decVal
  | .out => .out
  | .in => .in

/-- What an instruction is in flat code. -/
def Instruction.decode (i : Instruction) : Instr Command :=
  match i.operator with
  | .end => .halt
  | .incDp => .act .incDp
  | .decDp => .act .decDp
  | .incVal => .act .incVal
  | .decVal => .act .decVal
  | .out => .act .out
  | .in => .act .in
  | .jmpFwd => .forward i.operand
  | .jmpBck => .back i.operand

/-! ## Running -/

/-- `execute_bf` runs flat code. -/
theorem executeBf_eq (widen : BitVec 8 → BitVec 16) (program : ℕ → Instruction) (n pc : ℕ) (m : Machine) :
    executeBf widen program n pc m = Code.run (exec widen) goesOn onTape (fun i => (program i).decode) n pc m := by
  induction n generalizing pc m with
  | zero => rfl
  | succ n ih =>
    unfold executeBf Code.run
    by_cases htape : m.ptr.toNat < dataSize
    · rw [if_pos (show onTape m = true from decide_eq_true htape)]
      have hgoes : (goesOn m = true) = (m.cell ≠ 0) := decide_eq_true_eq
      cases hop : (program pc).operator with
      | «end» =>
        rw [if_neg fun h => h.1 rfl]
        simp only [Instruction.decode, hop]
      | jmpFwd =>
        rw [if_pos ⟨by simp, htape⟩]
        simp only [Instruction.decode.eq_1 (program pc), hop, hgoes, ← ih]
        by_cases hcell : m.cell = 0
        · rw [if_pos hcell, if_neg (not_not.mpr hcell)]
        · rw [if_neg hcell, if_pos hcell]
      | jmpBck =>
        rw [if_pos ⟨by simp, htape⟩]
        simp only [Instruction.decode.eq_1 (program pc), hop, hgoes, ← ih]
        by_cases hcell : m.cell = 0
        · rw [if_neg (not_not.mpr hcell), if_neg (not_not.mpr hcell)]
        · rw [if_pos hcell, if_pos hcell]
      | out =>
        rw [if_pos ⟨by simp, htape⟩]
        simp only [Instruction.decode.eq_1 (program pc), hop, exec, ← ih]
        cases m.write <;> rfl
      | «in» =>
        rw [if_pos ⟨by simp, htape⟩]
        simp only [Instruction.decode.eq_1 (program pc), hop, exec, ← ih]
        cases m.read widen <;> rfl
      | _ =>
        rw [if_pos ⟨by simp, htape⟩]
        simp only [Instruction.decode.eq_1 (program pc), hop, exec, ← ih]
    · rw [if_neg fun h => htape h.2, if_neg (show ¬ onTape m = true by simpa [onTape] using htape)]

/-! ## Compiling -/

namespace Compiler

/-- The code so far. -/
def code (s : Compiler) (i : ℕ) : Instr Command := (s.program i).decode

/-- A pass over a command or a bracket. -/
def take (t : Token Command) (s : Compiler) : Except Compiler Compiler :=
  match t with
  | .act c => .ok (s.emit c.operator)
  | .opening => s.openLoop
  | .closing => s.closeLoop

theorem switch_eq (c : Char) (s : Compiler) :
    s.switch c = match token c with
      | none => .ok s
      | some t => s.take t := by
  unfold switch
  split
  case h_9 =>
    have hnone : token c = none := by
      unfold token
      split <;> first | contradiction | rfl
    rw [hnone]
  all_goals rfl

theorem emit_code (s : Compiler) (c : Command) : (s.emit c.operator).code s.pc = .act c := by
  show (Function.update s.program s.pc { s.program s.pc with operator := c.operator } s.pc).decode = .act c
  rw [Function.update_self]
  cases c <;> rfl

theorem emit_program (s : Compiler) (op : Operator) {i : ℕ} (h : i ≠ s.pc) : (s.emit op).program i = s.program i :=
  Function.update_of_ne h _ _

theorem openLoop_eq {s : Compiler} (h : s.stack.length < stackSize) :
    ∃ s', s.openLoop = .ok s' ∧ s'.pc = s.pc + 1 ∧ s'.stack = s.pc :: s.stack ∧
      (s'.program s.pc).operator = .jmpFwd ∧ ∀ i, i ≠ s.pc → s'.program i = s.program i := by
  refine ⟨_, if_neg h.ne, rfl, rfl, ?_, fun i hi => Function.update_of_ne hi _ _⟩
  show (Function.update s.program s.pc { s.program s.pc with operator := .jmpFwd } s.pc).operator = .jmpFwd
  rw [Function.update_self]

theorem closeLoop_eq {s : Compiler} {j : ℕ} {stack : List ℕ} (h : s.stack = j :: stack) :
    s.closeLoop = .ok (s.closed j stack) := by
  unfold closeLoop
  rw [h]

section Closed

variable {s : Compiler} {j : ℕ} (stack : List ℕ) (hj : j ≠ s.pc)
include hj

/-- Both ends of a loop get each other's place. -/
theorem closed_forward (hop : (s.program j).operator = .jmpFwd) : (s.closed j stack).code j = .forward s.pc := by
  unfold code closed setOperand setOperator
  dsimp only
  rw [Function.update_self, Function.update_of_ne hj, Function.update_of_ne hj]
  unfold Instruction.decode
  rw [hop]

theorem closed_back : (s.closed j stack).code s.pc = .back j := by
  unfold code closed setOperand setOperator
  dsimp only
  rw [Function.update_of_ne hj.symm, Function.update_self, Function.update_self]
  rfl

omit hj in
theorem closed_program {i : ℕ} (hij : i ≠ j) (hi : i ≠ s.pc) : (s.closed j stack).program i = s.program i := by
  unfold closed setOperand setOperator
  dsimp only
  rw [Function.update_of_ne hij, Function.update_of_ne hi, Function.update_of_ne hi]

end Closed

end Compiler

/-- The loop over the commands and brackets alone. -/
def compileTokens : List (Token Command) → Compiler → Except Compiler Compiler
  | [], s => .ok s
  | t :: ts, s => if programSize ≤ s.pc then .ok s else (s.take t).bind (compileTokens ts)

theorem compileTokens_full (ts : List (Token Command)) {s : Compiler} (h : programSize ≤ s.pc) :
    compileTokens ts s = .ok s := by
  cases ts with
  | nil => rfl
  | cons t ts => exact if_pos h

/-- Comments change nothing. -/
theorem compileLoop_eq (code : List Char) (s : Compiler) : compileLoop code s = compileTokens (code.filterMap token) s := by
  induction code generalizing s with
  | nil => rfl
  | cons c code ih =>
    unfold compileLoop
    rw [List.filterMap_cons, Compiler.switch_eq]
    cases token c with
    | none =>
      by_cases hfull : programSize ≤ s.pc
      · rw [if_pos hfull, compileTokens_full _ hfull]
      · rw [if_neg hfull]
        exact ih s
    | some t =>
      have hrest : compileLoop code = compileTokens (code.filterMap token) := funext ih
      dsimp only
      rw [hrest]
      rfl

theorem compileTokens_cons {t : Token Command} {ts : List (Token Command)} {s s' : Compiler} (hpc : s.pc < programSize)
    (htake : s.take t = .ok s') : compileTokens (t :: ts) s = compileTokens ts s' := by
  show (if programSize ≤ s.pc then .ok s else (s.take t).bind (compileTokens ts)) = _
  rw [if_neg (not_le.mpr hpc), htake]
  rfl

/-- **A program is compiled to its layout**, and nothing before it is written. -/
theorem compileTokens_prog (p : Prog Command) (ts : List (Token Command)) {s : Compiler}
    (hsize : s.pc + p.size ≤ programSize) (hdepth : s.stack.length + p.depth ≤ stackSize) :
    ∃ s', compileTokens (p.tokens ++ ts) s = compileTokens ts s' ∧ s'.pc = s.pc + p.size ∧ s'.stack = s.stack ∧
      Layout s'.code s.pc p s'.pc ∧ ∀ i < s.pc, s'.program i = s.program i := by
  induction p generalizing ts s with
  | skip => exact ⟨s, rfl, rfl, rfl, rfl, fun _ _ => rfl⟩
  | act c p ih =>
    rw [Prog.size_act] at hsize
    have hpc : (s.emit c.operator).pc = s.pc + 1 := rfl
    obtain ⟨s', hrun, hpc', hstack, hlay, hframe⟩ :=
      ih ts (s := s.emit c.operator) (by rw [hpc]; omega) hdepth
    refine ⟨s', ?_, by rw [hpc', hpc, Prog.size_act]; omega, hstack, ⟨?_, hlay⟩, fun i hi => ?_⟩
    · exact (compileTokens_cons (by omega) rfl).trans hrun
    · have hhere := hframe s.pc (by rw [hpc]; omega)
      exact (congrArg Instruction.decode hhere).trans (s.emit_code c)
    · exact (hframe i (by rw [hpc]; omega)).trans (s.emit_program _ (by omega))
  | loop b p ihb ih =>
    rw [Prog.size_loop] at hsize
    have hdepths : s.stack.length + (b.depth + 1) ≤ stackSize ∧ s.stack.length + p.depth ≤ stackSize := by
      unfold Prog.depth at hdepth
      omega
    obtain ⟨s₁, hopen, hpc₁, hstack₁, hop, hframe₁⟩ := Compiler.openLoop_eq (s := s) (by omega)
    obtain ⟨s₂, hbody, hpc₂, hstack₂, hlay₂, hframe₂⟩ := ihb (.closing :: (p.tokens ++ ts)) (s := s₁)
      (by rw [hpc₁]; omega) (by rw [hstack₁, List.length_cons]; omega)
    have hne : s.pc ≠ s₂.pc := by omega
    have hclose : s₂.take .closing = .ok (s₂.closed s.pc s.stack) := Compiler.closeLoop_eq (hstack₂.trans hstack₁)
    have hpc₃ : (s₂.closed s.pc s.stack).pc = s₂.pc + 1 := rfl
    obtain ⟨s', hrun, hpc', hstack', hlay, hframe⟩ := ih ts (s := s₂.closed s.pc s.stack) (by omega) hdepths.2
    have hcode : ∀ i < s₂.pc + 1, s'.code i = (s₂.closed s.pc s.stack).code i := fun i hi =>
      congrArg Instruction.decode (hframe i hi)
    refine ⟨s', ?_, by rw [hpc', hpc₃, hpc₂, hpc₁, Prog.size_loop]; omega, hstack',
      ⟨s₂.pc, ?_, ?_, ?_, ?_⟩, fun i hi => ?_⟩
    · have hshape : (Prog.loop b p).tokens ++ ts = .opening :: (b.tokens ++ .closing :: (p.tokens ++ ts)) := by
        show Token.opening :: (b.tokens ++ Token.closing :: p.tokens) ++ ts = _
        simp
      have htake : s.take .opening = .ok s₁ := hopen
      rw [hshape, compileTokens_cons (by omega) htake, hbody, compileTokens_cons (by omega) hclose, hrun]
    · refine (hcode _ (by omega)).trans (Compiler.closed_forward s.stack hne ?_)
      rw [hframe₂ s.pc (by omega)]
      exact hop
    · rw [hpc₁] at hlay₂
      exact hlay₂.congr fun i hi hlt =>
        (hcode i (by omega)).trans
          (congrArg Instruction.decode (Compiler.closed_program s.stack (by omega) (by omega)))
    · exact (hcode _ (by omega)).trans (Compiler.closed_back s.stack hne)
    · exact hlay
    · rw [hframe i (by omega), Compiler.closed_program s.stack (by omega) (by omega), hframe₂ i (by omega),
        hframe₁ i (by omega)]

/-- What is compiled without an open loop at its end is a program. -/
theorem prog_of_compileTokens (ts : List (Token Command)) : ∀ {s s' : Compiler} (outer : List (Prog Command))
    (p : Prog Command), compileTokens ts s = .ok s' → s'.stack = [] → s'.pc ≠ programSize → s.pc ≤ programSize →
    (Reading outer p).length = s.pc → outer.length = s.stack.length → Within stackSize outer p →
    ∃ q : Prog Command, q.tokens = Reading outer p ++ ts ∧ q.size < programSize ∧ q.depth ≤ stackSize := by
  induction ts with
  | nil =>
    intro s s' outer p hrun hstack hpc hle hlen houter hwithin
    cases hrun
    obtain rfl : outer = [] := List.eq_nil_of_length_eq_zero (by rw [houter, hstack]; rfl)
    have hsize : p.size = s.pc := hlen
    exact ⟨p, (List.append_nil _).symm, by omega, hwithin⟩
  | cons t ts ih =>
    intro s s' outer p hrun hstack hpc hle hlen houter hwithin
    have hroom : ¬ programSize ≤ s.pc := fun hfull => by
      rw [compileTokens_full _ hfull] at hrun
      cases hrun
      omega
    have hrun' : (s.take t).bind (compileTokens ts) = .ok s' := (if_neg hroom).symm.trans hrun
    -- one more token has been read
    have hnext : ∀ {s₁ : Compiler} (outer₁ : List (Prog Command)) (p₁ : Prog Command), s.take t = .ok s₁ →
        s₁.pc = s.pc + 1 → Reading outer₁ p₁ = Reading outer p ++ [t] → outer₁.length = s₁.stack.length →
        Within stackSize outer₁ p₁ →
        ∃ q : Prog Command, q.tokens = Reading outer p ++ t :: ts ∧ q.size < programSize ∧ q.depth ≤ stackSize := by
      intro s₁ outer₁ p₁ htake hpc₁ hread houter₁ hwithin₁
      rw [htake] at hrun'
      obtain ⟨q, htokens, hbounds⟩ := ih outer₁ p₁ hrun' hstack hpc (by omega)
        (by rw [hread, List.length_append, hlen, hpc₁]; rfl) houter₁ hwithin₁
      exact ⟨q, by rw [htokens, hread, List.append_assoc]; rfl, hbounds⟩
    cases t with
    | act c =>
      exact hnext outer _ rfl rfl (reading_act c) houter (hwithin.append hwithin.length_le)
    | opening =>
      by_cases hfull : s.stack.length = stackSize
      · have herror : s.take .opening = .error (s.setOperator s.pc .jmpFwd) := if_pos hfull
        rw [herror] at hrun'
        cases hrun'
      · have hlt : s.stack.length < stackSize := lt_of_le_of_ne (houter ▸ hwithin.length_le) hfull
        obtain ⟨s₁, hopen, hpc₁, hstack₁, _, _⟩ := Compiler.openLoop_eq hlt
        exact hnext (p :: outer) .skip hopen hpc₁ rfl (by rw [hstack₁, List.length_cons, houter]; rfl)
          (hwithin.opened (by omega))
    | closing =>
      cases hst : s.stack with
      | nil =>
        have herror : s.take .closing = .error s := by
          show s.closeLoop = _
          unfold Compiler.closeLoop
          rw [hst]
        rw [herror] at hrun'
        cases hrun'
      | cons j stack =>
        rw [hst] at houter
        obtain ⟨q, outer, rfl⟩ := List.exists_cons_of_length_pos (l := outer) (by rw [houter]; exact Nat.succ_pos _)
        have htake : s.take .closing = .ok (s.closed j stack) := Compiler.closeLoop_eq hst
        exact hnext outer _ htake rfl (reading_close q) (Nat.succ.inj houter) hwithin.closed

/-! ## Results -/

/-- **A program within the sizes is compiled to its layout**, with an end behind it. -/
theorem compileBf_follows {code : List Char} {p : Prog Command} (htext : IsText code p) (hsize : p.size < programSize)
    (hdepth : p.depth ≤ stackSize) (program : ℕ → Instruction) :
    ∃ s, compileBf code program = .ok s ∧ Follows s.code 0 p := by
  obtain ⟨s', hrun, hpc, hstack, hlay, _⟩ := compileTokens_prog p [] (s := ⟨0, [], program⟩)
    ((Nat.zero_add _).trans_le hsize.le) ((Nat.zero_add _).trans_le hdepth)
  have hpc' : s'.pc = p.size := hpc.trans (Nat.zero_add _)
  have hloop : compileLoop code ⟨0, [], program⟩ = .ok s' := by
    rw [compileLoop_eq, htext, ← List.append_nil p.tokens, hrun]
    rfl
  refine ⟨s'.setOperator s'.pc .end, ?_, .last (hlay.congr fun i _ hi => ?_) ?_⟩
  · unfold compileBf
    rw [hloop]
    exact if_neg (by rw [hstack, hpc', not_or, not_not]; exact ⟨rfl, hsize.ne⟩)
  · exact congrArg Instruction.decode (Function.update_of_ne hi.ne _ _)
  · unfold Compiler.code Compiler.setOperator
    dsimp only
    rw [Function.update_self]
    rfl

/-- **The texts that are compiled** are those of programs with less than `PROGRAM_SIZE` instructions and with no more than
`STACK_SIZE` loops in each other. -/
theorem compileBf_iff (code : List Char) (program : ℕ → Instruction) :
    (∃ s, compileBf code program = .ok s) ↔
      ∃ p : Prog Command, IsText code p ∧ p.size < programSize ∧ p.depth ≤ stackSize := by
  constructor
  · rintro ⟨s, hs⟩
    unfold compileBf at hs
    rw [compileLoop_eq] at hs
    cases hrun : compileTokens (code.filterMap token) ⟨0, [], program⟩ with
    | error e =>
      rw [hrun] at hs
      cases hs
    | ok s₁ =>
      rw [hrun] at hs
      by_cases hfail : s₁.stack ≠ [] ∨ s₁.pc = programSize
      · have herror : (Except.ok s : Except Compiler Compiler) = .error s₁ := hs.symm.trans (if_pos hfail)
        cases herror
      · rw [not_or, not_not] at hfail
        obtain ⟨q, htokens, hbounds⟩ := prog_of_compileTokens _ [] .skip hrun hfail.1 hfail.2
          (Nat.zero_le _) rfl rfl (Nat.zero_le _)
        exact ⟨q, htokens.symm, hbounds⟩
  · rintro ⟨p, htext, hsize, hdepth⟩
    obtain ⟨s, hs, _⟩ := compileBf_follows htext hsize hdepth program
    exact ⟨s, hs⟩

/-- **The instructions do step by step what the text does**: for every number of steps, on every tape, with every input. -/
theorem executeBf_compiled {code : List Char} {p : Prog Command} (htext : IsText code p) (hsize : p.size < programSize)
    (hdepth : p.depth ≤ stackSize) (program : ℕ → Instruction) :
    ∃ s, compileBf code program = .ok s ∧ ∀ widen n m,
      executeBf widen s.program n 0 m = p.run (exec widen) goesOn onTape n m := by
  obtain ⟨s, hs, hfollows⟩ := compileBf_follows htext hsize hdepth program
  refine ⟨s, hs, fun widen n m => ?_⟩
  rw [executeBf_eq]
  exact hfollows.run_eq (exec widen) goesOn onTape n m

/-- `,[.,]` with a comment. -/
theorem executeBf_compiled_copy :
    ∃ s, compileBf [',', '[', '.', ',', ']', ' ', 'c', 'o', 'p', 'y'] allocated = .ok s ∧ ∀ widen n m,
      executeBf widen s.program n 0 m =
        Prog.run (exec widen) goesOn onTape n (.act .in (.loop (.act .out (.act .in .skip)) .skip)) m :=
  @executeBf_compiled [',', '[', '.', ',', ']', ' ', 'c', 'o', 'p', 'y']
    (.act .in (.loop (.act .out (.act .in .skip)) .skip)) rfl (by decide) (by decide) allocated

end Microbench.Bf
