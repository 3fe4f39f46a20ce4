import Rv32i.Am.LibgccDiv
import Rv32i.Nemu.Compute
import Rv32i.Nemu.Control
import Rv32i.Nemu.LoadStore
import Rv32i.Nemu.MulDiv
import Rv32i.Nemu.Stepping

/-!
# NEMU follows the specified machine

`execute` against whole runs of the machine of the specification, without watchpoints.

* `StepSound` — the operands on which the instruction of an encoding makes its specified step;
* `refines_of_sound` — it does then;
* `execute_follows` — **a run of sound steps is a run of `execute`**, instruction by instruction;
* `cpuExec_ebreak` — **a program that reaches an `ebreak` by sound steps ends there**, with `a0` for its result;
* `division_on_nemu` — **the library's divisions return on NEMU** what the instructions should.
-/

namespace Nemu

open Rv32

/-! ## One instruction -/

/-- The operands on which NEMU makes the specified step. -/
def StepSound (op : Mnemonic) (w x1 x2 : Word) : Prop :=
  match op.kind with
  | .compute => rd w = 0 ∨ ValueRight op w x1
  | .muldiv => ArithDefined op x1 x2
  | .jump | .branch => TargetRight op w x1
  | .load | .store => op ≠ .lb ∧ InPmem (effectiveAddr op w x1) op.width
  | .system => False

instance (op : Mnemonic) (w x1 x2 : Word) : Decidable (StepSound op w x1 x2) := by
  unfold StepSound; cases op <;> dsimp only [Mnemonic.kind] <;> infer_instance

section Instruction

variable {op : Mnemonic} {s : Decode} {m : Machine}

theorem refines_of_sound (h : Fetches op s m) (hsound : StepSound op (fetched m s.pc)
    (m.cpu.gpr (rs1 (fetched m s.pc))) (m.cpu.gpr (rs2 (fetched m s.pc)))) : Refines op s m h.zero := by
  unfold StepSound at hsound
  cases hkind : op.kind <;> rw [hkind] at hsound
  · exact refines_compute h hkind hsound
  · exact refines_muldiv h hkind hsound
  · exact refines_control h (.inl hkind) hsound
  · exact refines_control h (.inr hkind) hsound
  · exact refines_load h hkind hsound.1 hsound.2
  · exact refines_store h hkind hsound.2
  · exact hsound.elim

end Instruction

/-! ## Runs -/

/-- The emulator is in the state of the machine. -/
structure InState (σ : Emulator) (s : MachineState) : Prop where
  gpr : σ.machine.cpu.gpr = s.regs.x
  pc : σ.machine.cpu.pc = s.pc
  mem : guestMem σ.machine.pmem = s.mem

/-- The instruction at `pc` is in `pmem` and makes its specified step. -/
structure SoundAt (s : MachineState) : Prop where
  inPmem : InPmem s.pc .word
  sound : ∃ op, Encodes op (fetch s) ∧ StepSound op (fetch s) (s.regs.x (rs1 (fetch s))) (s.regs.x (rs2 (fetch s)))

theorem StepSound.ne_ebreak {op : Mnemonic} {w x1 x2 : Word} (h : StepSound op w x1 x2) : op ≠ .ebreak := by
  rintro rfl
  exact h

section Runs

variable {σ : Emulator} {s s' : MachineState}

theorem InState.zero (h : InState σ s) : σ.machine.cpu.gpr 0 = 0 := by
  rw [h.gpr]
  exact s.regs.zero

theorem InState.fetched (h : InState σ s) : fetched σ.machine s.pc = fetch s := by
  unfold Nemu.fetched fetch
  rw [h.mem]

theorem InState.arch (h : InState σ s) : arch σ.machine s.pc h.zero = s := by
  obtain ⟨⟨x, hx⟩, pc, mem⟩ := s
  obtain ⟨hgpr, hpc, hmem⟩ := h
  unfold Nemu.arch
  congr 1
  exact RegFile.ext hgpr

/-- `s` as `exec_once` sets it. -/
theorem InState.fetches (h : InState σ s) (hin : InPmem s.pc .word) {op : Mnemonic} (henc : Encodes op (fetch s))
    (d : Decode) : Fetches op { d with pc := s.pc, snpc := s.pc } σ.machine where
  snpc := rfl
  inPmem := hin
  zero := h.zero
  encodes := h.fetched.symm ▸ henc

/-- **An instruction of `execute` is a step of the machine.** -/
theorem executeInst_follows (h : InState σ s) (hsound : SoundAt s) (hnext : next s = some s') (d : Decode) :
    ∃ d' σ', executeInst d σ = .ok (d', σ') ∧ InState σ' s' ∧ σ'.state = σ.state ∧ σ'.pool = σ.pool ∧
      σ'.gNrGuestInst = σ.gNrGuestInst + 1 := by
  obtain ⟨hin, op, henc, hop⟩ := hsound
  rw [next_of_encodes henc hop.ne_ebreak, Option.some.injEq] at hnext
  have hfetches := h.fetches hin henc d
  have hrefines := refines_of_sound hfetches (by rw [h.fetched, h.gpr]; exact hop)
  obtain ⟨d', m', hexec, hgpr, hmem, hpc, hstate⟩ := hrefines
  rw [h.fetched, h.arch, hnext] at hgpr hmem hpc
  have hinst : executeInst d σ = .ok (d',
      { σ with machine := { m' with cpu.pc := d'.dnpc }, gNrGuestInst := σ.gNrGuestInst + 1 }) := by
    unfold executeInst execOnce
    rw [h.pc, hexec]
    rfl
  exact ⟨d', _, hinst, ⟨hgpr, hpc, hmem⟩, congrArg NEMUState.state hstate, rfl, rfl⟩

/-- Without watchpoints the check after an instruction does nothing. -/
theorem traceAndDifftest_unwatched (frames : ℕ) (h : σ.pool.head = none) : traceAndDifftest frames σ = .ok σ := by
  have hcheck : checkWp frames σ.machine σ.pool σ.exprState = .ok (false, σ.pool, σ.exprState) := by
    unfold checkWp
    rw [h]
    rfl
  unfold traceAndDifftest
  rw [hcheck]
  rfl

/-- **A run of sound steps is a run of `execute`**: `execute` makes the `n` steps of the run and goes on from a running
emulator in its last state. -/
theorem execute_follows {n : ℕ} (hrun : ReachesIn SoundAt n s s') (h : InState σ s) (hstate : σ.state = .running)
    (hpool : σ.pool.head = none) :
    ∃ σ', InState σ' s' ∧ σ'.state = .running ∧ σ'.pool = σ.pool ∧
      σ'.gNrGuestInst = σ.gNrGuestInst + BitVec.ofNat 64 n ∧
      ∀ frames k d, execute frames (n + k) d σ = execute frames k d σ' := by
  induction hrun generalizing σ with
  | refl s =>
    refine ⟨σ, h, hstate, rfl, (BitVec.add_zero _).symm, fun frames k d => ?_⟩
    rw [Nat.zero_add]
  | @step n _ _ _ hsound hnext hrun ih =>
    obtain ⟨d1, σ1, hinst, h1, hstate1, hpool1, hcount1⟩ := executeInst_follows h hsound hnext .unset
    obtain ⟨σ', h', hstate', hpool', hcount', hexec⟩ := ih h1 (hstate1.trans hstate) (by rw [hpool1, hpool])
    refine ⟨σ', h', hstate', hpool'.trans hpool1, ?_, fun frames k d => ?_⟩
    · rw [hcount', hcount1, BitVec.add_assoc, Nat.add_comm n 1, BitVec.ofNat_add]
      rfl
    · rw [execute_decode _ d .unset, show n + 1 + k = n + k + 1 by omega, execute_succ, hinst]
      show (traceAndDifftest frames σ1 >>= _) = _
      rw [traceAndDifftest_unwatched frames (by rw [hpool1, hpool])]
      show (if σ1.state = .running then execute frames (n + k) d1 σ1 else .ok σ1) = _
      rw [if_pos (hstate1.trans hstate), hexec, execute_decode _ d1 d]

/-! ## The end of a program -/

/-- What `nemu_trap` leaves: the program has ended at `pc`, with `a0` for its result. -/
structure EndsAs (σ' : Emulator) (s : MachineState) : Prop where
  nemuState : σ'.machine.nemuState = { state := .end, haltPc := s.pc, haltRet := s.regs.x 10 }
  gpr : σ'.machine.cpu.gpr = s.regs.x
  mem : guestMem σ'.machine.pmem = s.mem

theorem execute_ebreak (h : InState σ s) (hpool : σ.pool.head = none) (hin : InPmem s.pc .word)
    (henc : Encodes .ebreak (fetch s)) :
    ∃ σ', EndsAs σ' s ∧ ∀ frames k d, execute frames (k + 1) d σ = .ok σ' := by
  have hexec := @isaExecOnce_eq .ebreak _ _ _ rfl (h.fetches hin henc .unset)
  let m := (setNemuState σ.machine .end s.pc (σ.machine.cpu.gpr 10)).setR 0 0
  let σ' : Emulator := { σ with machine := { m with cpu.pc := s.pc + 4 }, gNrGuestInst := σ.gNrGuestInst + 1 }
  refine ⟨σ', ⟨?_, ?_, h.mem⟩, fun frames k d => ?_⟩
  · show NEMUState.mk .end s.pc (σ.machine.cpu.gpr 10) = _
    rw [h.gpr]
  · exact (setR_zero_self (m := setNemuState σ.machine .end s.pc (σ.machine.cpu.gpr 10)) h.zero).trans h.gpr
  · have hinst : ∃ d', executeInst .unset σ = .ok (d', σ') := by
      unfold executeInst execOnce
      rw [h.pc, hexec]
      exact ⟨_, rfl⟩
    obtain ⟨d', hinst⟩ := hinst
    rw [execute_decode _ d .unset, execute_succ, hinst]
    show (traceAndDifftest frames σ' >>= _) = _
    rw [traceAndDifftest_unwatched frames (show σ'.pool.head = none from hpool)]
    show (if σ'.state = .running then execute frames k d' σ' else .ok σ') = .ok σ'
    exact if_neg (show ¬ RunState.end = .running by decide)

/-- **A program that reaches an `ebreak` by `n` sound steps ends there**, for every `cpu_exec` of more than `n`
instructions. -/
theorem cpuExec_ebreak {n : ℕ} (hrun : ReachesIn SoundAt n s s') (hin : InPmem s'.pc .word)
    (henc : Encodes .ebreak (fetch s')) (h : InState σ s) (hstate : σ.state = .stop ∨ σ.state = .running)
    (hpool : σ.pool.head = none) :
    ∃ σ', EndsAs σ' s' ∧ ∀ frames (c : BitVec 64), n < c.toNat → cpuExec frames c σ = .ok σ' := by
  have hbegin : cpuExecBegin σ = some (σ.setState .running) := by
    unfold cpuExecBegin
    rcases hstate with hstate | hstate <;> rw [hstate]
  obtain ⟨σ1, h1, hstate1, hpool1, -, hexec⟩ :=
    execute_follows hrun (σ := σ.setState .running) ⟨h.gpr, h.pc, h.mem⟩ rfl hpool
  obtain ⟨σ', hends, hebreak⟩ := execute_ebreak h1 (by rw [hpool1]; exact hpool) hin henc
  refine ⟨σ', hends, fun frames c hlt => ?_⟩
  obtain ⟨k, hk⟩ : ∃ k, c.toNat = n + (k + 1) := ⟨c.toNat - n - 1, by omega⟩
  have hend : σ'.state = .end := congrArg NEMUState.state hends.nemuState
  rw [cpuExec_of_begin hbegin, hk, hexec, hebreak]
  show Except.ok (cpuExecFinish σ') = .ok σ'
  unfold cpuExecFinish
  rw [hend]

end Runs

/-! ### The built-in image -/

/-- NEMU as `init_isa` starts it, the built-in image in zeroed memory and `7` in `a0`. -/
def builtIn : Emulator := .init (initIsa
  { cpu := { gpr := fun q => if q = 10 then 7 else 0, pc := 0 }
    pmem := fun _ => 0
    nemuState := { state := .stop, haltPc := 0, haltRet := 0 } })

/-- A state of the machine that runs the image. -/
def inImage (f : RegFile) (pc : Word) : MachineState := ⟨f, pc, guestMem builtIn.machine.pmem⟩

/-- The instruction at `pc` of the image is an `op`, and its step is sound and leads to `f'` and `pc'`. -/
def ImageStep (op : Mnemonic) (f : RegFile) (pc : Word) (f' : RegFile) (pc' : Word) : Prop :=
  let w := fetch (inImage f pc)
  let s' := step byteMem op w (inImage f pc)
  Encodes op w ∧ InPmem pc .word ∧ StepSound op w (f.x (rs1 w)) (f.x (rs2 w)) ∧ op.kind ≠ .store ∧
    (∀ q, s'.regs.x q = f'.x q) ∧ s'.pc = pc'

instance (op : Mnemonic) (f : RegFile) (pc : Word) (f' : RegFile) (pc' : Word) : Decidable (ImageStep op f pc f' pc') := by
  unfold ImageStep; infer_instance

theorem ImageStep.reaches {op : Mnemonic} {f f' : RegFile} {pc pc' : Word} {s' : MachineState} {n : ℕ}
    (h : ImageStep op f pc f' pc') (hrun : ReachesIn SoundAt n (inImage f' pc') s') :
    ReachesIn SoundAt (n + 1) (inImage f pc) s' := by
  obtain ⟨henc, hin, hop, hstore, hregs, hpc⟩ := h
  have hmem : (step byteMem op (fetch (inImage f pc)) (inImage f pc)).mem = guestMem builtIn.machine.pmem := by
    unfold step
    cases hkind : op.kind with
    | store => exact absurd hkind hstore
    | _ => rfl
  have hstep : next (inImage f pc) = some (inImage f' pc') := by
    rw [next_of_encodes henc hop.ne_ebreak, Option.some.injEq]
    exact congr (congrArg₂ State.mk (RegFile.ext (funext hregs)) hpc) hmem
  exact .step ⟨hin, op, henc, hop⟩ hstep hrun

/-- The registers of the image: `ra` and `a2` to `a5`. -/
def imageRegs (x1 x12 x13 x14 x15 : Word) : RegFile :=
  ((((RegFile.set ⟨builtIn.machine.cpu.gpr, rfl⟩ 1 x1).set 12 x12).set 13 x13).set 14 x14).set 15 x15

/-- The image takes its branch, calls over the `jalr`, returns to the `ebreak` and leaves `a0`. -/
theorem builtIn_reaches : ReachesIn SoundAt 8 (arch builtIn.machine resetVector rfl)
    (inImage (imageRegs 0x80000020 1 1 0x80000000 0x00100613) 0x80000020) := by
  have h0 : ImageStep .addi ⟨builtIn.machine.cpu.gpr, rfl⟩ 0x80000000 (imageRegs 0 1 0 0 0) 0x80000004 := by decide
  have h1 : ImageStep .addi (imageRegs 0 1 0 0 0) 0x80000004 (imageRegs 0 1 31 0 0) 0x80000008 := by decide
  have h2 : ImageStep .sll (imageRegs 0 1 31 0 0) 0x80000008 (imageRegs 0 1 31 0x80000000 0) 0x8000000c := by decide
  have h3 : ImageStep .lw (imageRegs 0 1 31 0x80000000 0) 0x8000000c (imageRegs 0 1 31 0x80000000 0x00100613)
      0x80000010 := by decide
  have h4 : ImageStep .addi (imageRegs 0 1 31 0x80000000 0x00100613) 0x80000010
      (imageRegs 0 1 1 0x80000000 0x00100613) 0x80000014 := by decide
  have h5 : ImageStep .beq (imageRegs 0 1 1 0x80000000 0x00100613) 0x80000014
      (imageRegs 0 1 1 0x80000000 0x00100613) 0x8000001c := by decide
  have h6 : ImageStep .jal (imageRegs 0 1 1 0x80000000 0x00100613) 0x8000001c
      (imageRegs 0x80000020 1 1 0x80000000 0x00100613) 0x80000018 := by decide
  have h7 : ImageStep .jalr (imageRegs 0x80000020 1 1 0x80000000 0x00100613) 0x80000018
      (imageRegs 0x80000020 1 1 0x80000000 0x00100613) 0x80000020 := by decide
  exact h0.reaches (h1.reaches (h2.reaches (h3.reaches (h4.reaches (h5.reaches (h6.reaches (h7.reaches (.refl _))))))))

/-- The built-in image ends at its `ebreak`, for every `cpu_exec` of at least nine instructions. -/
theorem cpuExec_ebreak_builtIn :
    ∃ σ', σ'.machine.nemuState = { state := .end, haltPc := 0x80000020, haltRet := 7 } ∧
      ∀ frames (c : BitVec 64), 8 < c.toNat → cpuExec frames c builtIn = .ok σ' := by
  obtain ⟨σ', hends, hexec⟩ :=
    cpuExec_ebreak (σ := builtIn) builtIn_reaches (by decide) (by decide) ⟨rfl, rfl, rfl⟩ (.inl rfl) rfl
  exact ⟨σ', hends.nemuState, hexec⟩

/-! ## Routines on NEMU -/

/-- The instruction is none of those that need their operands to be sound, but for a jump to a register. -/
def Plain (i : Instr) : Prop := i.op ∉ [.slti, .sltiu, .div, .divu, .rem, .remu]

instance (i : Instr) : Decidable (Plain i) := by unfold Plain; infer_instance

theorem sound_of_plain {i : Instr} (hvalid : i.Valid) (hplain : Plain i) {f : RegFile}
    (heven : ∀ d r1 c, i = .jalr d r1 c → (f.x r1 + c.signExtend 32).getLsbD 0 = false) :
    StepSound i.op i.encode (f.x (rs1 i.encode)) (f.x (rs2 i.encode)) := by
  cases i with
  | reg op d r1 r2 | imm op d r1 c | shift op d r1 c =>
    unfold Instr.op
    unfold Plain Instr.op at hplain
    cases op <;> first
      | exact .inr trivial
      | exact trivial
      | simp [Instr.Valid] at hvalid; done
      | simp at hplain
  | branch op r1 r2 offset =>
    unfold Instr.op
    cases op <;> first
      | cases hvalid; done
      | exact fun hop : _ = _ => by cases hop
  | jal d offset => exact fun hop : _ = _ => by cases hop
  | jalr d r1 c =>
    obtain ⟨-, -, -, h4, h5⟩ := fieldsI Mnemonic.jalr.fixed.opcode r1 d Mnemonic.jalr.fixed.funct3 c
    intro _
    unfold Instr.encode
    rw [h4, h5]
    exact heven d r1 c rfl

section Routines

variable {prog : List Instr} {base : Word} {mem : Word → Byte}

/-- A run inside a program of such instructions is sound. -/
theorem soundAt_of_inside {s : MachineState} (hload : Loaded prog base mem) (hplain : ∀ i ∈ prog, Plain i)
    (hin : ∀ i < prog.length, InPmem (addr base i) .word) (h : Inside prog base mem s) : SoundAt s := by
  obtain ⟨i, ins, hget, hpc, heven⟩ := h.at_instr
  obtain ⟨hvalid, hword⟩ := hload i ins hget
  have hfetch : fetch s = ins.encode := by
    unfold fetch
    rw [h.mem_eq, hpc, hword]
  have hi : i < prog.length := (List.getElem?_eq_some_iff.mp hget).1
  refine ⟨by rw [hpc]; exact hin i hi, ins.op, hfetch ▸ ins.encodes hvalid, ?_⟩
  rw [hfetch]
  exact sound_of_plain hvalid (hplain ins (List.mem_of_getElem? hget)) heven

/-- NEMU is about to execute an instruction at `pc`, and no watchpoint will stop it. -/
structure Ready (σ : Emulator) (pc : Word) : Prop where
  zero : σ.machine.cpu.gpr 0 = 0
  pc_eq : σ.machine.cpu.pc = pc
  running : σ.state = .running
  unwatched : σ.pool.head = none

/-- `execute` comes from `σ` to the return address, with `value` in `a0`; memory, watchpoints and all registers but
`scratch` are as before. -/
def Emulator.Returns (σ : Emulator) (scratch : List RegIdx) (value : Word) : Prop :=
  ∃ n σ', (∀ frames k d, execute frames (n + k) d σ = execute frames k d σ') ∧
    Ready σ' (σ.machine.cpu.gpr ra) ∧ σ'.machine.cpu.gpr a0 = value ∧
    (∀ q, q ∉ scratch → σ'.machine.cpu.gpr q = σ.machine.cpu.gpr q) ∧
    guestMem σ'.machine.pmem = guestMem σ.machine.pmem ∧ σ'.pool = σ.pool

/-- A routine that returns on the machine returns on NEMU. -/
theorem returns_on_nemu {scratch : List RegIdx} {entry : ℕ} {value : Word → Word → Word} {σ : Emulator}
    (hreturns : Rv32.Returns prog base (guestMem σ.machine.pmem) scratch entry value)
    (hload : Loaded prog base (guestMem σ.machine.pmem)) (hplain : ∀ i ∈ prog, Plain i)
    (hin : ∀ i < prog.length, InPmem (addr base i) .word) (hready : Ready σ (addr base entry))
    (heven : (σ.machine.cpu.gpr ra).getLsbD 0 = false) :
    σ.Returns scratch (value (σ.machine.cpu.gpr a0) (σ.machine.cpu.gpr a1)) := by
  obtain ⟨f', hrun, hvalue, hkeep⟩ := hreturns ⟨σ.machine.cpu.gpr, hready.zero⟩ heven
  obtain ⟨n, hcount⟩ := (hrun.imp fun _ h => soundAt_of_inside hload hplain hin h).counted
  obtain ⟨σ', hagrees, hrunning, hpool, -, hexec⟩ :=
    execute_follows hcount ⟨rfl, hready.pc_eq, rfl⟩ hready.running hready.unwatched
  refine ⟨n, σ', hexec, ⟨hagrees.zero, hagrees.pc, hrunning, by rw [hpool, hready.unwatched]⟩, ?_, fun q hq => ?_,
    hagrees.mem, hpool⟩
  · rw [hagrees.gpr]
    exact hvalue
  · rw [hagrees.gpr]
    exact hkeep q hq

end Routines

/-! ### libgcc -/

section Libgcc

open Am.Libgcc

variable {σ : Emulator} {base : Word}

theorem divS_plain : ∀ i ∈ divS, Plain i := by decide

/-- **Division on NEMU without the M extension**: the routines of `div.S`, wherever they are loaded, return on NEMU with
what the instructions of the extension should compute, also where NEMU's own `div` and `rem` stop the host. -/
theorem division_on_nemu (hload : Loaded divS base (guestMem σ.machine.pmem)) (hbase : base.getLsbD 0 = false)
    (hin : ∀ i < divS.length, InPmem (addr base i) .word) (heven : (σ.machine.cpu.gpr ra).getLsbD 0 = false) :
    (Ready σ (addr base (entry .udivsi3)) →
        σ.Returns scratch (regResult .divu (σ.machine.cpu.gpr a0) (σ.machine.cpu.gpr a1))) ∧
      (Ready σ (addr base (entry .umodsi3)) →
        σ.Returns scratch (regResult .remu (σ.machine.cpu.gpr a0) (σ.machine.cpu.gpr a1))) ∧
      (Ready σ (addr base (entry .divsi3)) →
        σ.Returns scratch (regResult .div (σ.machine.cpu.gpr a0) (σ.machine.cpu.gpr a1))) ∧
      (Ready σ (addr base (entry .modsi3)) →
        σ.Returns scratch (regResult .rem (σ.machine.cpu.gpr a0) (σ.machine.cpu.gpr a1))) :=
  ⟨fun h => returns_on_nemu (udivsi3_returns_quotient hload) hload divS_plain hin h heven,
    fun h => returns_on_nemu (umodsi3_returns hload hbase) hload divS_plain hin h heven,
    fun h => returns_on_nemu (divsi3_returns hload hbase) hload divS_plain hin h heven,
    fun h => returns_on_nemu (modsi3_returns hload hbase) hload divS_plain hin h heven⟩

/-- A running emulator with the routines at the reset vector, before the call of `__divsi3` with `1` and `0`. -/
def beforeDiv : Emulator := (Emulator.init
  { cpu := { gpr := fun q => if q = a0 then 1 else if q = ra then 0x80001000 else 0, pc := 0 }
    pmem := fun i => image divS resetVector (i + configMbase)
    nemuState := { state := .stop, haltPc := 0, haltRet := 0 } }).setState .running

theorem beforeDiv_mem : guestMem beforeDiv.machine.pmem = image divS resetVector := by
  funext q
  exact congrArg (image divS resetVector) (BitVec.sub_add_cancel q configMbase)

theorem beforeDiv_loaded : Loaded divS resetVector (guestMem beforeDiv.machine.pmem) := by
  rw [beforeDiv_mem]
  exact image_loaded _ (by decide) (by decide)

/-- `1 / 0` returns with all ones. -/
theorem division_on_nemu_zero : beforeDiv.Returns scratch (-1) :=
  (division_on_nemu beforeDiv_loaded rfl (by decide) rfl).2.2.1 ⟨rfl, rfl, rfl, rfl⟩

end Libgcc

end Nemu
