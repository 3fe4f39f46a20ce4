import Rv32i.Nemu.Sdb.Watchpoint

/-!
# NEMU: the execution loop

`src/cpu/cpu-exec.c` in the shipped configuration, with `CONFIG_DIFFTEST` and `CONFIG_DEVICE` off.  The
traces of `CONFIG_ITRACE`, the host timer and what is printed are left out.

An expression is evaluated on the host stack; `frames` is the number of frames it has.
-/

namespace Nemu

open Rv32

/-- The static state of the emulator. -/
structure Emulator where
  machine : Machine
  gNrGuestInst : BitVec 64
  pool : WpPool
  exprState : ExprState

def Emulator.state (σ : Emulator) : RunState := σ.machine.nemuState.state

/-- `nemu_state.state = state` -/
def Emulator.setState (σ : Emulator) (state : RunState) : Emulator :=
  { σ with machine.nemuState.state := state }

/-- `exec_once(s, pc)` -/
def execOnce (s : Decode) (pc : Word) (m : Machine) : Exec (Decode × Machine) := do
  let (s, m) ← isaExecOnce { s with pc, snpc := pc } m
  return (s, { m with cpu.pc := s.dnpc })

def traceAndDifftest (frames : ℕ) (σ : Emulator) : Exec Emulator := do
  let (triggered, pool, exprState) ← checkWp frames σ.machine σ.pool σ.exprState
  let σ := { σ with pool, exprState }
  return if triggered then σ.setState .stop else σ

/-- One round of the loop of `execute`, up to `trace_and_difftest`. -/
def executeInst (s : Decode) (σ : Emulator) : Exec (Decode × Emulator) := do
  let (s, machine) ← execOnce s σ.machine.cpu.pc σ.machine
  return (s, { σ with machine, gNrGuestInst := σ.gNrGuestInst + 1 })

def execute (frames : ℕ) : ℕ → Decode → Emulator → Exec Emulator
  | 0, _, σ => .ok σ
  | n + 1, s, σ => do
    let (s, σ) ← executeInst s σ
    let σ ← traceAndDifftest frames σ
    if σ.state ≠ .running then return σ
    execute frames n s σ

/-- The first `switch` of `cpu_exec`; `none` is its early return. -/
def cpuExecBegin (σ : Emulator) : Option Emulator :=
  match σ.state with
  | .end | .abort | .quit => none
  | _ => some (σ.setState .running)

/-- The second `switch` of `cpu_exec`. -/
def cpuExecFinish (σ : Emulator) : Emulator :=
  match σ.state with
  | .running => σ.setState .stop
  | _ => σ

/-- `Decode s;` of `execute`, with any contents. -/
def Decode.unset : Decode := { pc := 0, snpc := 0, dnpc := 0, inst := 0 }

def cpuExec (frames : ℕ) (n : BitVec 64) (σ : Emulator) : Exec Emulator :=
  match cpuExecBegin σ with
  | none => .ok σ
  | some σ => do
    let σ ← execute frames n.toNat .unset σ
    return cpuExecFinish σ

end Nemu
