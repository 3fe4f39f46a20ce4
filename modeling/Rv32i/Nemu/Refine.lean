import Rv32i.Nemu.Table

/-!
# NEMU: executing one instruction, against the specification

`Fetches op s m` says that NEMU is about to execute an encoding of `op`, and `Refines` that
`isa_exec_once` then makes exactly the step of the specification.  A register instruction refines its
step when the value it writes is the specified one or when it writes `x0` (`refines_wr`), because the
slot 0 it may have written is reset at the end of `decode_exec`.
-/

namespace Nemu

open Rv32 Ternary

/-- The word at `pc`. -/
def fetched (m : Machine) (pc : Word) : Word := loadBytes (guestMem m.pmem) pc .word

/-- NEMU is at an encoding of `op`: `exec_once` has set `pc` and `snpc`, the four bytes of the
instruction are in `pmem`, and `$zero` is zero, as `restart` and every `decode_exec` leave it. -/
structure Fetches (op : Mnemonic) (s : Decode) (m : Machine) : Prop where
  snpc : s.snpc = s.pc
  inPmem : InPmem s.pc .word
  zero : m.cpu.gpr 0 = 0
  encodes : Encodes op (fetched m s.pc)

/-- The architectural state at `pc`. -/
def arch (m : Machine) (pc : Word) (h0 : m.cpu.gpr 0 = 0) : State (Word → Byte) where
  regs := ⟨m.cpu.gpr, h0⟩
  pc := pc
  mem := guestMem m.pmem

/-- `isa_exec_once` returns, and registers, memory and next pc are those of the specified step;
`nemu_state` stays. -/
def Refines (op : Mnemonic) (s : Decode) (m : Machine) (h0 : m.cpu.gpr 0 = 0) : Prop :=
  ∃ s' m', isaExecOnce s m = .ok (s', m') ∧
    m'.cpu.gpr = (step byteMem op (fetched m s.pc) (arch m s.pc h0)).regs.x ∧
    guestMem m'.pmem = (step byteMem op (fetched m s.pc) (arch m s.pc h0)).mem ∧
    s'.dnpc = (step byteMem op (fetched m s.pc) (arch m s.pc h0)).pc ∧
    m'.nemuState = m.nemuState

/-- The `Decode` that the body of an instruction sees. -/
def decoded (s : Decode) (m : Machine) : Decode :=
  { pc := s.pc, snpc := s.pc + 4, dnpc := s.pc + 4, inst := fetched m s.pc }

variable {op : Mnemonic} {s : Decode} {m : Machine} {e : InstPat}

/-- `isa_exec_once` runs the body of the first entry named `op`, then resets `$zero`. -/
theorem isaExecOnce_eq (hfind : namedTable.find? (fun e => e.name = some op) = some e) (h : Fetches op s m) :
    isaExecOnce s m =
      (e.body (decodeOperand (decoded s m) m.cpu e.type) (decoded s m) m).map
        fun p => (p.1, p.2.setR 0 0) := by
  have hfetch : instFetch m.pmem s.snpc 4 = .ok (fetched m s.pc, s.pc + 4) := by
    rw [h.snpc]
    exact instFetch_eq h.inPmem.first
  have hbody := @instpat_of_encodes _ (decoded s m) m _ hfind h.encodes
  unfold isaExecOnce decodeExec
  rw [hfetch]
  show (instpat instpatTable (decoded s m) m >>= fun p => pure (p.1, p.2.setR 0 0)) = _
  rw [hbody]
  cases e.body (decodeOperand (decoded s m) m.cpu e.type) (decoded s m) m <;> rfl

/-! ## Registers -/

/-- A write followed by the reset of slot 0 is a write to the architectural registers. -/
theorem setR_zero_gpr (h0 : m.cpu.gpr 0 = 0) (r : RegIdx) (v : Word) :
    ((m.setR r v).setR 0 0).cpu.gpr = ((⟨m.cpu.gpr, h0⟩ : RegFile).set r v).x := by
  funext q
  show (if q = 0 then 0 else if q = r then v else m.cpu.gpr q) = if q = r ∧ r ≠ 0 then v else m.cpu.gpr q
  by_cases hq : q = 0
  · subst hq
    have : ¬ ((0 : RegIdx) = r ∧ r ≠ 0) := fun h => h.2 h.1.symm
    rw [if_pos rfl, if_neg this, h0]
  · rw [if_neg hq]
    by_cases hr : q = r
    · subst hr
      rw [if_pos rfl, if_pos ⟨rfl, hq⟩]
    · rw [if_neg hr, if_neg fun h => hr h.1]

/-- With `$zero` zero, the reset of slot 0 changes nothing. -/
theorem setR_zero_self (h0 : m.cpu.gpr 0 = 0) : (m.setR 0 0).cpu.gpr = m.cpu.gpr := by
  funext q
  show (if q = 0 then 0 else m.cpu.gpr q) = m.cpu.gpr q
  by_cases hq : q = 0
  · rw [if_pos hq, hq, h0]
  · rw [if_neg hq]

/-- Two writes to one register agree exactly when the values do or the register is `x0`. -/
theorem set_eq_iff (f : RegFile) (r : RegIdx) (v v' : Word) :
    (f.set r v).x = (f.set r v').x ↔ r = 0 ∨ v = v' := by
  constructor
  · intro h
    by_cases hr : r = 0
    · exact .inl hr
    · right
      have := congrFun h r
      rwa [set_self f hr, set_self f hr] at this
  · rintro (rfl | rfl)
    · rw [RegFile.set_zero, RegFile.set_zero]
    · rfl

/-- A body that writes `v` to `rd` refines a step that writes `v'` and goes on, exactly when the values
agree or `rd` is `x0`. -/
theorem refines_iff_of_wr (h : Fetches op s m) (hkind : op.kind = .compute ∨ op.kind = .muldiv) {v : Word}
    (hexec : isaExecOnce s m = .ok (decoded s m, (m.setR (rd (fetched m s.pc)) v).setR 0 0)) :
    Refines op s m h.zero ↔ rd (fetched m s.pc) = 0 ∨
      v = result op (fetched m s.pc) s.pc (m.cpu.gpr (rs1 (fetched m s.pc))) (m.cpu.gpr (rs2 (fetched m s.pc))) := by
  have hstep : step byteMem op (fetched m s.pc) (arch m s.pc h.zero) =
      { arch m s.pc h.zero with
        regs := (arch m s.pc h.zero).regs.set (rd (fetched m s.pc)) (result op (fetched m s.pc) s.pc
          (m.cpu.gpr (rs1 (fetched m s.pc))) (m.cpu.gpr (rs2 (fetched m s.pc))))
        pc := s.pc + 4 } := by
    unfold step
    rcases hkind with hk | hk <;> rw [hk] <;> rfl
  unfold Refines
  rw [hstep]
  constructor
  · rintro ⟨s', m', hok, hregs, -⟩
    rw [hexec] at hok
    cases hok
    rw [setR_zero_gpr h.zero] at hregs
    exact (set_eq_iff _ _ _ _).mp hregs
  · intro hv
    refine ⟨_, _, hexec, ?_, rfl, rfl, rfl⟩
    rw [setR_zero_gpr h.zero]
    exact (set_eq_iff _ _ _ _).mpr hv

/-! ## Bodies -/

section Operands

variable (s : Decode) (m : Machine)

theorem operands_R : decodeOperand (decoded s m) m.cpu .R =
    ⟨rd (fetched m s.pc), m.cpu.gpr (rs1 (fetched m s.pc)), m.cpu.gpr (rs2 (fetched m s.pc)), 0⟩ :=
  decodeOperand_eq _ _ _

theorem operands_I : decodeOperand (decoded s m) m.cpu .I =
    ⟨rd (fetched m s.pc), m.cpu.gpr (rs1 (fetched m s.pc)), 0, Rv32.immI (fetched m s.pc)⟩ :=
  decodeOperand_eq _ _ _

theorem operands_S : decodeOperand (decoded s m) m.cpu .S =
    ⟨rd (fetched m s.pc), m.cpu.gpr (rs1 (fetched m s.pc)), m.cpu.gpr (rs2 (fetched m s.pc)),
      Rv32.immS (fetched m s.pc)⟩ :=
  decodeOperand_eq _ _ _

theorem operands_B : decodeOperand (decoded s m) m.cpu .B =
    ⟨rd (fetched m s.pc), m.cpu.gpr (rs1 (fetched m s.pc)), m.cpu.gpr (rs2 (fetched m s.pc)),
      Rv32.immB (fetched m s.pc)⟩ :=
  decodeOperand_eq _ _ _

theorem operands_U : decodeOperand (decoded s m) m.cpu .U =
    ⟨rd (fetched m s.pc), 0, 0, Rv32.immU (fetched m s.pc)⟩ :=
  decodeOperand_eq _ _ _

theorem operands_J : decodeOperand (decoded s m) m.cpu .J =
    ⟨rd (fetched m s.pc), 0, 0, Rv32.immJ (fetched m s.pc)⟩ :=
  decodeOperand_eq _ _ _

end Operands

/-- A body `R(rd) = f` as a whole execution. -/
theorem isaExecOnce_wr {p : String} {t : OpType} {f : Operands → Decode → Word}
    (hfind : namedTable.find? (fun e => e.name = some op) = some ⟨p, some op, t, wr f⟩) (h : Fetches op s m) :
    isaExecOnce s m = .ok (decoded s m,
      (m.setR (rd (fetched m s.pc)) (f (decodeOperand (decoded s m) m.cpu t) (decoded s m))).setR 0 0) := by
  rw [isaExecOnce_eq hfind h, decodeOperand_eq]
  rfl

/-- An instruction whose body is `R(rd) = f` refines its step exactly when `f` is the specified value or
`rd` is `x0`. -/
theorem refines_wr {p : String} {t : OpType} {f : Operands → Decode → Word}
    (hfind : namedTable.find? (fun e => e.name = some op) = some ⟨p, some op, t, wr f⟩) (h : Fetches op s m)
    (hkind : op.kind = .compute ∨ op.kind = .muldiv) :
    Refines op s m h.zero ↔ rd (fetched m s.pc) = 0 ∨
      f (decodeOperand (decoded s m) m.cpu t) (decoded s m) =
        result op (fetched m s.pc) s.pc (m.cpu.gpr (rs1 (fetched m s.pc))) (m.cpu.gpr (rs2 (fetched m s.pc))) :=
  refines_iff_of_wr h hkind (isaExecOnce_wr hfind h)

/-! ## One-word images -/

/-- A cleared machine with one instruction at the reset vector and `x` in the registers but `$zero`. -/
def oneInst (w x : Word) : Machine :=
  restart
    { cpu := { gpr := fun _ => x, pc := 0 }
      pmem := Pmem.load (fun _ => 0) [w]
      nemuState := { state := .stop, haltPc := 0, haltRet := 0 } }

def atReset : Decode := { pc := resetVector, snpc := resetVector, dnpc := 0, inst := 0 }

end Nemu
