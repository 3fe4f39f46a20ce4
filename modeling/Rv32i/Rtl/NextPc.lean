import Rv32i.Isa.Step

/-!
# The Verilog core: the next pc

`NPC.v` and its wires in `riscv.v`: the offsets are sliced from the instruction register in `riscv.v`, and `NPC.v` adds
their bit 0.

* `npc`, `riscvNpc` — the module, and the module with its wires;
* `riscvNpc_offset12`, `riscvNpc_offset20` — branches and `jal` go where the specification says;
* `nextPc_iff` — when all of the next pc is as specified.
-/

namespace Rtl

open Rv32

/-! ## `ctrl_signal_def.v`, `instruction_def.v` -/

def npcPC : BitVec 2 := 0b00
def npcOffset12 : BitVec 2 := 0b01
def npcRs : BitVec 2 := 0b10
def npcOffset20 : BitVec 2 := 0b11

def instrBtypeOp : BitVec 7 := 0b1100011
def instrSwOp : BitVec 7 := 0b0100011
def instrJalrOp : BitVec 7 := 0b1100111

/-! ## `NPC.v` -/

/-- The port list has `NPCOp` where the declarations and `riscv.v` have `NPCop`; this is one port. -/
structure NpcIn where
  npcOp : BitVec 2
  offset12 : BitVec 12
  offset20 : BitVec 20
  pc : Word
  rs : Word

/-- `$signed({1'b0, PC}) + $signed(offset)`: the operands have their signs extended to 33 bits, and the sum is cut to
the 32 bits of the output. -/
def signedSum {n : ℕ} (pc : Word) (offset : BitVec n) : Word :=
  ((0#1 ++ pc).signExtend 33 + offset.signExtend 33).setWidth 32

def offset13 (io : NpcIn) : BitVec 13 := io.offset12 ++ 0#1

def offset21 (io : NpcIn) : BitVec 21 := io.offset20 ++ 0#1

/-- The output `PCA4`. -/
def pca4 (io : NpcIn) : Word := io.pc + 4

/-- The output `NPC`. -/
def npc (io : NpcIn) : Word :=
  if io.npcOp = npcPC then io.pc + 4
  else if io.npcOp = npcOffset12 then signedSum io.pc (offset13 io)
  else if io.npcOp = npcRs then io.rs
  else signedSum io.pc (offset21 io)

/-! ## `riscv.v` -/

section Wires

variable (outIns : Word)

def opcode : BitVec 7 := outIns.extractLsb' 0 7

def imm12 : BitVec 12 := outIns.extractLsb' 20 12

def offset20 : BitVec 20 :=
  outIns.extractLsb' 31 1 ++ outIns.extractLsb' 12 8 ++ outIns.extractLsb' 20 1 ++ outIns.extractLsb' 21 10

def offset : BitVec 12 :=
  if opcode outIns = instrBtypeOp then
    outIns.extractLsb' 31 1 ++ outIns.extractLsb' 7 1 ++ outIns.extractLsb' 25 6 ++ outIns.extractLsb' 8 4
  else if opcode outIns = instrSwOp then outIns.extractLsb' 25 7 ++ outIns.extractLsb' 7 5
  else imm12 outIns

/-- The inputs of `U_NPC`; the port `rs` has 32 bits and its wire `RD1[31:2]` has 30. -/
def uNpc (npcOp : BitVec 2) (pc rd1 : Word) : NpcIn where
  npcOp := npcOp
  offset12 := offset outIns
  offset20 := offset20 outIns
  pc := pc
  rs := (rd1.extractLsb' 2 30).setWidth 32

/-- The next pc, from the pc, the instruction register and the first register that it names. -/
def riscvNpc (npcOp : BitVec 2) (pc rd1 : Word) : Word := npc (uNpc outIns npcOp pc rd1)

end Wires

/-! ## Branches and `jal` -/

/-- The sum of the 33 bits is that of the low 32. -/
theorem signedSum_eq {n : ℕ} (pc : Word) (offset : BitVec n) :
    signedSum pc offset = pc + offset.signExtend 32 := by
  have hpc : ((0#1 ++ pc).signExtend 33).setWidth 32 = pc := by
    refine BitVec.eq_of_getLsbD_eq fun i hi => ?_
    rw [BitVec.getLsbD_setWidth, BitVec.getLsbD_signExtend, BitVec.getLsbD_append]
    simp [hi, show i < 33 by omega]
  have hoffset : (offset.signExtend 33).setWidth 32 = offset.signExtend 32 := by
    refine BitVec.eq_of_getLsbD_eq fun i hi => ?_
    rw [BitVec.getLsbD_setWidth, BitVec.getLsbD_signExtend, BitVec.getLsbD_signExtend]
    simp [hi, show i < 33 by omega]
  rw [signedSum, BitVec.setWidth_add _ _ (by decide), hpc, hoffset]

section Targets

variable (outIns pc rd1 : Word)

/-- Without a jump the next pc is what the other output gives. -/
theorem riscvNpc_pc : riscvNpc outIns npcPC pc rd1 = pca4 (uNpc outIns npcPC pc rd1) := rfl

/-- **A branch goes to its target.** -/
theorem riscvNpc_offset12 (h : opcode outIns = instrBtypeOp) :
    riscvNpc outIns npcOffset12 pc rd1 = pc + Rv32.immB outIns := by
  have hoffset : offset13 (uNpc outIns npcOffset12 pc rd1) = outIns.extractLsb' 31 1 ++ outIns.extractLsb' 7 1 ++
      outIns.extractLsb' 25 6 ++ outIns.extractLsb' 8 4 ++ 0#1 := by
    change offset outIns ++ 0#1 = _
    rw [offset, if_pos h]
  change signedSum pc (offset13 _) = _
  rw [signedSum_eq, hoffset]
  rfl

/-- **`jal` goes to its target**, whatever the opcode is. -/
theorem riscvNpc_offset20 : riscvNpc outIns npcOffset20 pc rd1 = pc + Rv32.immJ outIns := by
  change signedSum pc (offset21 _) = _
  rw [signedSum_eq]
  rfl

/-- The register reaches the pc without its two low bits, shifted down. -/
theorem riscvNpc_rs : (riscvNpc outIns npcRs pc rd1).toNat = rd1.toNat / 4 := by
  change ((rd1.extractLsb' 2 30).setWidth 32).toNat = _
  rw [BitVec.toNat_setWidth, BitVec.extractLsb'_toNat, Nat.shiftRight_eq_div_pow]
  omega

end Targets

/-! ## `jalr` -/

theorem clear_bit0_toNat (a : Word) : (a &&& ~~~1#32).toNat = a.toNat / 2 * 2 := by
  have h : a &&& ~~~1#32 = (a >>> 1) <<< 1 := by
    refine BitVec.eq_of_getLsbD_eq fun i hi => ?_
    rw [BitVec.getLsbD_and, BitVec.getLsbD_not, BitVec.getLsbD_one, BitVec.getLsbD_shiftLeft,
      BitVec.getLsbD_ushiftRight]
    obtain _ | i := i
    · simp
    · simp [hi, Nat.add_comm 1 i]
  rw [h, BitVec.toNat_shiftLeft, BitVec.toNat_ushiftRight, Nat.shiftLeft_eq, Nat.shiftRight_eq_div_pow]
  omega

/-- What the register lacks of a quarter of itself. -/
def gap (rd1 : Word) : ℤ := 3 * (rd1.toNat / 4 : ℕ) + (rd1.toNat % 4 : ℕ)

/-- A quarter of the register is the target of `jalr` when the offset takes the rest away. -/
theorem quarter_eq_target_iff (rd1 imm : Word) (hlo : -2048 ≤ imm.toInt) (hhi : imm.toInt < 2048) :
    rd1.toNat / 4 = ((rd1 + imm) &&& ~~~1#32).toNat ↔
      rd1.toNat / 4 % 2 = 0 ∧ (imm.toInt + gap rd1 = 0 ∨ imm.toInt + gap rd1 = 1) := by
  have himm := BitVec.toInt_eq_toNat_cond imm
  have hrd1 := rd1.isLt
  have himm' := imm.isLt
  rw [clear_bit0_toNat, BitVec.toNat_add, gap]
  split at himm <;> omega

theorem immI_range (w : Word) : -2048 ≤ (immI w).toInt ∧ (immI w).toInt < 2048 := by
  rw [immI, BitVec.toInt_signExtend_of_le (by decide)]
  have hlo := BitVec.le_toInt (w.extractLsb' 20 12)
  have hhi := BitVec.toInt_lt (x := w.extractLsb' 20 12)
  constructor <;> omega

/-! ## All of the next pc -/

/-- The targets of the specification, for each control signal. -/
def Targets (outIns : Word) (npcOp : BitVec 2) (pc rd1 : Word) : Prop :=
  (npcOp = npcPC → riscvNpc outIns npcOp pc rd1 = pc + 4) ∧
  (npcOp = npcOffset12 → opcode outIns = instrBtypeOp → riscvNpc outIns npcOp pc rd1 = pc + Rv32.immB outIns) ∧
  (npcOp = npcOffset20 → riscvNpc outIns npcOp pc rd1 = pc + Rv32.immJ outIns) ∧
  (npcOp = npcRs → opcode outIns = instrJalrOp →
    riscvNpc outIns npcOp pc rd1 = (rd1 + Rv32.immI outIns) &&& ~~~1#32)

/-- **The next pc is as specified except for `jalr`**, where the register is shifted and the offset is left out. -/
theorem nextPc_iff (outIns : Word) (npcOp : BitVec 2) (pc rd1 : Word) :
    Targets outIns npcOp pc rd1 ↔
      (npcOp = npcRs → opcode outIns = instrJalrOp → rd1.toNat / 4 % 2 = 0 ∧
        ((Rv32.immI outIns).toInt + gap rd1 = 0 ∨ (Rv32.immI outIns).toInt + gap rd1 = 1)) := by
  obtain ⟨hlo, hhi⟩ := immI_range outIns
  have hrs : riscvNpc outIns npcRs pc rd1 = (rd1 + Rv32.immI outIns) &&& ~~~1#32 ↔ rd1.toNat / 4 % 2 = 0 ∧
      ((Rv32.immI outIns).toInt + gap rd1 = 0 ∨ (Rv32.immI outIns).toInt + gap rd1 = 1) := by
    rw [← quarter_eq_target_iff rd1 _ hlo hhi, ← BitVec.toNat_inj, riscvNpc_rs]
  constructor
  · rintro ⟨-, -, -, hjalr⟩ rfl hop
    exact hrs.mp (hjalr rfl hop)
  · intro h
    refine ⟨?_, ?_, ?_, ?_⟩
    · rintro rfl
      exact riscvNpc_pc outIns pc rd1
    · rintro rfl hop
      exact riscvNpc_offset12 outIns pc rd1 hop
    · rintro rfl
      exact riscvNpc_offset20 outIns pc rd1
    · rintro rfl hop
      exact hrs.mpr (h rfl hop)

/-- `jalr x0, 0(x1)` with `0x80000010` in `x1`. -/
theorem jalr_not_target : ¬ Targets 0x00008067 npcRs 0x80000000 0x80000010 := by
  rintro ⟨-, -, -, hjalr⟩
  exact absurd (hjalr rfl rfl) (by decide)

end Rtl
