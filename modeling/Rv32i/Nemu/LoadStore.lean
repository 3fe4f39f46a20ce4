import Rv32i.Nemu.Refine

/-!
# NEMU: loads and stores

Every load and store of the table makes the specified little-endian access, aligned or not, as long as
its bytes are in `pmem` (`loadStore_refines`).
-/

namespace Nemu

open Rv32

variable {op : Mnemonic} {s : Decode} {m : Machine}

/-- A load body refines its step when it extends the bytes as specified. -/
theorem refines_ld (h : Fetches op s m) (hkind : op.kind = .load) {p : String} {f : Word → Word}
    (hfind : namedTable.find? (fun e => e.name = some op) = some ⟨p, some op, .I, ld op.width.bytes f⟩)
    (hin : InPmem (m.cpu.gpr (rs1 (fetched m s.pc)) + Rv32.immI (fetched m s.pc)) op.width)
    (hf : ∀ v, f v = extend op v) : Refines op s m h.zero := by
  have hstep : step byteMem op (fetched m s.pc) (arch m s.pc h.zero) =
      { arch m s.pc h.zero with
        regs := (arch m s.pc h.zero).regs.set (rd (fetched m s.pc)) (extend op (loadBytes (guestMem m.pmem)
          (m.cpu.gpr (rs1 (fetched m s.pc)) + Rv32.immI (fetched m s.pc)) op.width))
        pc := s.pc + 4 } := by
    unfold step
    rw [hkind]
    rfl
  have hexec := isaExecOnce_eq hfind h
  rw [operands_I] at hexec
  simp only [ld, vaddrRead, paddrRead_eq op.width hin.first] at hexec
  unfold Refines
  rw [hstep]
  refine ⟨_, _, hexec, ?_, rfl, rfl, rfl⟩
  show ((m.setR _ _).setR 0 0).cpu.gpr = _
  rw [setR_zero_gpr h.zero, hf]
  rfl

/-- A store body refines its step when it keeps the bytes that are stored. -/
theorem refines_st (h : Fetches op s m) (hkind : op.kind = .store) {p : String} {f : Word → Word}
    (hfind : namedTable.find? (fun e => e.name = some op) = some ⟨p, some op, .S, st op.width.bytes f⟩)
    (hin : InPmem (m.cpu.gpr (rs1 (fetched m s.pc)) + Rv32.immS (fetched m s.pc)) op.width)
    (hf : ∀ g a v, storeBytes g a op.width (f v) = storeBytes g a op.width v) : Refines op s m h.zero := by
  have hstep : step byteMem op (fetched m s.pc) (arch m s.pc h.zero) =
      { arch m s.pc h.zero with
        mem := storeBytes (guestMem m.pmem) (m.cpu.gpr (rs1 (fetched m s.pc)) + Rv32.immS (fetched m s.pc))
          op.width (m.cpu.gpr (rs2 (fetched m s.pc)))
        pc := s.pc + 4 } := by
    unfold step
    rw [hkind]
    rfl
  have hexec := isaExecOnce_eq hfind h
  rw [operands_S] at hexec
  obtain ⟨pmem', hok, hmem⟩ := @paddrWrite_eq m.pmem _ op.width (f (m.cpu.gpr (rs2 (fetched m s.pc)))) hin.first
  simp only [st, vaddrWrite, hok] at hexec
  unfold Refines
  rw [hstep]
  refine ⟨_, _, hexec, setR_zero_self h.zero, ?_, rfl, rfl⟩
  exact hmem.trans (hf _ _ _)

/-- The bytes of a half word do not see the upper half. -/
theorem storeBytes_and_ffff (g : Word → Byte) (a v : Word) :
    storeBytes g a .half (v &&& 0xffff) = storeBytes g a .half v := by
  funext q
  rw [storeBytes_half, storeBytes_half]
  by_cases hq : (q - a).toNat < 2
  · simp only [hq, if_true]
    apply BitVec.eq_of_getLsbD_eq
    intro i hi
    have hbit : ((0xffff : Word)).getLsbD (8 * (q - a).toNat + i) = true := by
      have : (0xffff : Word) = BitVec.ofNat 32 (2 ^ 16 - 1) := rfl
      rw [this, BitVec.getLsbD_ofNat, Nat.testBit_two_pow_sub_one]
      simp only [Bool.and_eq_true, decide_eq_true_eq]
      omega
    rw [BitVec.getLsbD_extractLsb', BitVec.getLsbD_extractLsb', BitVec.getLsbD_and, hbit, Bool.and_true]
  · simp only [hq, if_false]

/-- Where the access of a load or store starts. -/
def effectiveAddr (op : Mnemonic) (w x1 : Word) : Word :=
  x1 + if op.kind = .store then Rv32.immS w else Rv32.immI w

/-- Every load of the table but `lb`, which the table does not have. -/
theorem refines_load (h : Fetches op s m) (hkind : op.kind = .load) (hlb : op ≠ .lb)
    (hin : InPmem (effectiveAddr op (fetched m s.pc) (m.cpu.gpr (rs1 (fetched m s.pc)))) op.width) :
    Refines op s m h.zero := by
  cases op <;> first
    | exact absurd rfl hlb
    | cases hkind; done
    | skip
  case lh => exact refines_ld h rfl rfl hin fun v => setWidth_sext v 16
  all_goals exact refines_ld h rfl rfl hin fun v => rfl

theorem refines_store (h : Fetches op s m) (hkind : op.kind = .store)
    (hin : InPmem (effectiveAddr op (fetched m s.pc) (m.cpu.gpr (rs1 (fetched m s.pc)))) op.width) :
    Refines op s m h.zero := by
  cases op <;> first
    | cases hkind; done
    | skip
  case sh => exact refines_st h rfl rfl hin fun g a v => storeBytes_and_ffff g a v
  case sw | sb => exact refines_st h rfl rfl hin fun g a v => rfl

/-- **Every load and store of the table makes the specified access**, if its bytes are in `pmem`. -/
theorem loadStore_refines (h : Fetches op s m) (hkind : op.kind = .load ∨ op.kind = .store) (hlb : op ≠ .lb)
    (hin : InPmem (effectiveAddr op (fetched m s.pc) (m.cpu.gpr (rs1 (fetched m s.pc)))) op.width) :
    Refines op s m h.zero := by
  rcases hkind with hload | hstore
  · exact refines_load h hload hlb hin
  · exact refines_store h hstore hin

/-- `lh x1, 1(x1)`: misaligned, and the base is the destination. -/
theorem lh_refines : Refines .lh atReset (oneInst 0x00109083 0x80000000) rfl :=
  loadStore_refines ⟨rfl, by decide, rfl, by decide⟩ (.inl rfl) (by decide) (by decide)

end Nemu
