import Rv32i.Nemu.CpuExec

/-!
# NEMU: the commands of the debugger

`src/monitor/sdb/sdb.c`: the command table, the handlers and `sdb_mainloop` on the list of lines that
`readline` returns.  What is printed is left out but for `x`, so `help` and `info` do nothing.
-/

namespace Nemu

open Rv32

/-- `strtok(s, " ")`: the first token, and the text behind the blank that ends it. -/
def strtok (s : List Char) : Option (List Char × List Char) :=
  match s.dropWhile fun c => c = ' ' with
  | [] => none
  | t => some (t.takeWhile fun c => c ≠ ' ', (t.dropWhile fun c => c ≠ ' ').tail)

/-- A handler gets its `args`, and `strtok(NULL, …)` goes on from there; the result is its return value. -/
abbrev Handler := ℕ → Option (List Char) → Emulator → Exec (ℤ × Emulator)

def cmdHelp : Handler := fun _ _ σ => .ok (0, σ)

def cmdC : Handler := fun frames _ σ => do
  let σ ← cpuExec frames (-1) σ
  return (0, σ)

def cmdQ : Handler := fun _ _ σ => .ok (-1, σ.setState .quit)

def cmdSi : Handler := fun frames args σ => do
  let step : Word :=
    match strtok (args.getD []) with
    | none => 1
    | some (arg, _) => atoi arg
  let σ ← cpuExec frames (step.signExtend 64) σ
  return (0, σ)

def cmdInfo : Handler := fun _ _ σ => .ok (0, σ)

/-- The lines of `for (paddr_t i = 0; i < 4*len; i += 4)` from `i` on, with fuel for the rounds. -/
def cmdXPrints (m : Machine) (paddr bound : Word) : ℕ → Word → Exec (List (Word × Word))
  | 0, _ => .error .loop
  | fuel + 1, i =>
    if i < bound then do
      let v ← paddrRead m.pmem (paddr + i) 4
      let rest ← cmdXPrints m paddr bound fuel (i + 4)
      return (paddr + i, v) :: rest
    else .ok []

/-- `cmd_x`, with the addresses and words that it prints. -/
def cmdXOut (fuel frames : ℕ) (args : Option (List Char)) (σ : Emulator) : Exec (List (Word × Word) × Emulator) :=
  match strtok (args.getD []) with
  | none | some (_, []) => .ok ([], σ)
  | some (n, expression) => do
    let (paddr, success, exprState) ← expr frames σ.machine expression σ.exprState
    let σ := { σ with exprState }
    if success = false then return ([], σ)
    if inPmem paddr then do
      let out ← cmdXPrints σ.machine paddr (4 * atoi n) fuel 0
      return (out, σ)
    return ([], σ)

/-- The bound of the loop has fewer than `2 ^ 30` multiples of 4 below it. -/
def cmdX : Handler := fun frames args σ => do
  let (_, σ) ← cmdXOut (2 ^ 30) frames args σ
  return (0, σ)

def cmdP : Handler := fun frames args σ =>
  match args with
  | none => .ok (0, σ)
  | some args => do
    let (_, _, exprState) ← expr frames σ.machine args σ.exprState
    return (0, { σ with exprState })

def cmdW : Handler := fun frames args σ =>
  match args with
  | none => .ok (0, σ)
  | some args =>
    match newWp σ.pool with
    | (none, _) => .error .assert
    | (some i, pool) =>
      -- the copy to `wp->str` does not stop at the end of the array
      if 32 ≤ args.length then .error .overrun
      else do
        let pool := pool.set i { pool.wpPool i with str := args }
        let (val, success, exprState) ← expr frames σ.machine args σ.exprState
        let pool := pool.set i { pool.wpPool i with lastValue := val }
        if success = false then .error .assert
        else return (0, { σ with pool, exprState })

def cmdD : Handler := fun _ args σ =>
  match args with
  | none => .ok (0, σ)
  | some args => do
    let pool ← freeWp (atoi args).toInt σ.pool
    return (0, { σ with pool })

/-- The names and handlers of `cmd_table`. -/
def cmdTable : List (List Char × Handler) := [
  (['h', 'e', 'l', 'p'], cmdHelp),
  (['c'], cmdC),
  (['q'], cmdQ),
  (['s', 'i'], cmdSi),
  (['i', 'n', 'f', 'o'], cmdInfo),
  (['x'], cmdX),
  (['p'], cmdP),
  (['w'], cmdW),
  (['d'], cmdD)]

/-- One round of the loop of `sdb_mainloop`: a line without a command and an unknown command do nothing. -/
def runLine (frames : ℕ) (str : List Char) (σ : Emulator) : Exec (ℤ × Emulator) :=
  match strtok str with
  | none => .ok (0, σ)
  | some (cmd, rest) =>
    let args := if rest = [] then none else some rest
    match cmdTable.lookup cmd with
    | none => .ok (0, σ)
    | some handler => handler frames args σ

/-- The loop of `sdb_mainloop` on the lines up to the end of the input. -/
def sdbLoop (frames : ℕ) : List (List Char) → Emulator → Exec Emulator
  | [], σ => .ok σ
  | str :: lines, σ => do
    let (code, σ) ← runLine frames str σ
    if code < 0 then return σ
    sdbLoop frames lines σ

def sdbMainloop (frames : ℕ) (isBatchMode : Bool) (lines : List (List Char)) (σ : Emulator) : Exec Emulator :=
  if isBatchMode then do
    let (_, σ) ← cmdC frames none σ
    return σ
  else sdbLoop frames lines σ

/-- The state when `sdb_mainloop` is called; the image is loaded in `m.pmem`. -/
def Emulator.init (m : Machine) : Emulator where
  machine := { restart m with nemuState := { state := .stop, haltPc := 0, haltRet := 0 } }
  gNrGuestInst := 0
  pool := initWpPool .zero
  exprState := .init

/-- `cmd_x` leaves everything but the static variables of `expr`. -/
theorem cmdX_ok {frames : ℕ} {args : Option (List Char)} {σ σ' : Emulator} {code : ℤ}
    (h : cmdX frames args σ = .ok (code, σ')) : code = 0 ∧ ∃ d, σ' = { σ with exprState := d } := by
  obtain ⟨⟨out, σ1⟩, h, hret⟩ := bind_ok h
  cases hret
  refine ⟨rfl, ?_⟩
  unfold cmdXOut at h
  split at h
  · cases h
    exact ⟨_, rfl⟩
  · cases h
    exact ⟨_, rfl⟩
  · obtain ⟨⟨paddr, success, exprState⟩, -, h⟩ := bind_ok h
    refine ⟨exprState, ?_⟩
    cases success with
    | false =>
      cases h
      rfl
    | true =>
      by_cases hin : inPmem paddr = true
      · simp only [hin, Bool.true_eq_false, if_true, if_false] at h
        obtain ⟨printed, -, h⟩ := bind_ok h
        cases h
        rfl
      · simp only [hin, Bool.true_eq_false, if_false] at h
        cases h
        rfl

end Nemu
