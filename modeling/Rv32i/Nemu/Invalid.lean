import Rv32i.Nemu.Table

/-!
# NEMU: words that are no instruction

`invalid_inst` of `src/engine/interpreter/hostcall.c` fetches the word at the pc and the one behind it for its
message, through the memory that an instruction is fetched from.

`isaExecOnceWith` is `isa_exec_once` with its fetch as a parameter; with `instFetchChecked` an access that leaves
`pmem` does not go unnoticed.  `reports_iff`: a word that matches no pattern is reported just if the word behind it
is in `pmem`, too.
-/

namespace Nemu

open Rv32

/-! ## A host that notices -/

/-- `paddr_read` on a host that stops a read past the end of `pmem`. -/
def paddrReadChecked (pmem : Pmem) (addr : Word) (len : ℕ) : Exec Word :=
  if inPmem addr then
    if (guestToHost addr).toNat + len ≤ configMsize.toNat then pmemRead pmem addr len else .error .overrun
  else .error .panic

def instFetchChecked (pmem : Pmem) (pc : Word) (len : ℕ) : Exec (Word × Word) := do
  let inst ← paddrReadChecked pmem pc len
  return (inst, pc + BitVec.ofNat 32 len)

section Fetch

variable (fetch : Pmem → Word → ℕ → Exec (Word × Word))

/-- `invalid_inst`, with its `inst_fetch`. -/
def invalidInstWith : Body := fun _ s m => do
  let (_, pc) ← fetch m.pmem s.pc 4
  let _ ← fetch m.pmem pc 4
  return (s, setNemuState m .abort s.pc (-1))

/-- The entry of `inv`. -/
def invEntryWith : InstPat := { invEntry with body := invalidInstWith fetch }

/-- `isa_exec_once`, with the `inst_fetch` of itself and of `invalid_inst`. -/
def isaExecOnceWith (s : Decode) (m : Machine) : Exec (Decode × Machine) := do
  let (inst, snpc) ← fetch m.pmem s.snpc 4
  let (s, m) ← instpat (namedTable ++ [invEntryWith fetch]) { s with inst, snpc, dnpc := snpc } m
  return (s, m.setR 0 0)

/-- With the fetch of the source this is `isa_exec_once`. -/
theorem isaExecOnceWith_instFetch (s : Decode) (m : Machine) : isaExecOnceWith instFetch s m = isaExecOnce s m := rfl

/-- No pattern of the table but the one of `inv` matches the word. -/
def NoPattern (w : Word) : Prop := ∀ e ∈ namedTable, e.hit w = false

theorem table_with_pat : ∀ e ∈ namedTable ++ [invEntryWith fetch], instPattern e.pattern.toList = some e.pat := by
  intro e he
  rcases List.mem_append.mp he with he | he
  · exact table_pat e (mem_table he)
  · rw [List.mem_singleton.mp he]
    exact table_pat invEntry (by rw [table_eq]; simp)

theorem invEntryWith_hit (w : Word) : (invEntryWith fetch).hit w = true := by
  have hinv := invEntry_hit w
  have hpattern : (invEntryWith fetch).pattern = invEntry.pattern := rfl
  unfold InstPat.hit at hinv ⊢
  rw [hpattern]
  exact hinv

theorem instpat_none {s : Decode} (h : NoPattern s.inst) (m : Machine) :
    instpat (namedTable ++ [invEntryWith fetch]) s m = invalidInstWith fetch (decodeOperand s m.cpu .N) s m := by
  have hnone : namedTable.find? (fun e => e.hit s.inst) = none := by
    rw [List.find?_eq_none]
    intro e he
    rw [h e he]
    exact Bool.false_ne_true
  rw [instpat_eq s m _ (table_with_pat fetch), List.find?_append, hnone, Option.none_or, List.find?_cons,
    invEntryWith_hit]
  rfl

end Fetch

/-! ## The checked fetch -/

variable {pmem : Pmem} {pc : Word}

/-- The bytes of a word are in `pmem` just if the first is, and the word ends in it. -/
theorem inPmem_word_iff (a : Word) :
    InPmem a .word ↔ inPmem a = true ∧ (guestToHost a).toNat + 4 ≤ configMsize.toNat := by
  obtain ⟨o, ho⟩ : ∃ o, o = guestToHost a := ⟨_, rfl⟩
  have hin := inPmem_add_iff a
  rw [← ho] at hin
  have hsize : configMsize.toNat = 2 ^ 27 := rfl
  have h0 := hin 0
  rw [show BitVec.ofNat 32 0 = 0#32 from rfl, BitVec.add_zero, BitVec.add_zero] at h0
  rw [h0, ← ho]
  unfold InPmem
  constructor
  · intro h
    have hfirst := (hin 0).mp (h 0 (by decide))
    have hlast := (hin 3).mp (h 3 (by decide))
    rw [BitVec.toNat_add, BitVec.toNat_ofNat] at hfirst hlast
    have := o.isLt
    omega
  · rintro ⟨hfirst, hend⟩ i hi
    have hi : i < 4 := hi
    rw [hin, BitVec.toNat_add, BitVec.toNat_ofNat]
    omega

theorem instFetchChecked_ok (pmem : Pmem) (h : InPmem pc .word) :
    instFetchChecked pmem pc 4 = .ok (loadBytes (guestMem pmem) pc .word, pc + 4) := by
  obtain ⟨hin, hend⟩ := (inPmem_word_iff pc).mp h
  have hread := @paddrRead_eq pmem pc .word hin
  unfold paddrRead at hread
  rw [if_pos hin] at hread
  unfold instFetchChecked paddrReadChecked
  rw [if_pos hin, if_pos hend, show (4 : ℕ) = Width.word.bytes from rfl, hread]
  rfl

theorem instFetchChecked_error (pmem : Pmem) (h : ¬ InPmem pc .word) : ∃ f, instFetchChecked pmem pc 4 = .error f := by
  rw [inPmem_word_iff, not_and] at h
  unfold instFetchChecked paddrReadChecked
  by_cases hin : inPmem pc = true
  · rw [if_pos hin, if_neg (h hin)]
    exact ⟨.overrun, rfl⟩
  · rw [if_neg hin]
    exact ⟨.panic, rfl⟩

/-- A checked fetch that returns is the fetch of the source. -/
theorem instFetch_of_checked {r : Word × Word} (h : instFetchChecked pmem pc 4 = .ok r) :
    instFetch pmem pc 4 = .ok r := by
  by_cases hin : InPmem pc .word
  · rw [instFetchChecked_ok pmem hin] at h
    rw [instFetch_eq hin.first]
    exact h
  · obtain ⟨f, hf⟩ := instFetchChecked_error pmem hin
    rw [hf] at h
    cases h

/-- The step with checked fetches, where it returns, is the one of the source. -/
theorem isaExecOnce_of_checked {s : Decode} {m : Machine} {r : Decode × Machine}
    (h : isaExecOnceWith instFetchChecked s m = .ok r) : isaExecOnce s m = .ok r := by
  have hinv : ∀ o t t', invalidInstWith instFetchChecked o t m = .ok t' → invalidInstWith instFetch o t m = .ok t' := by
    intro o t t' ht
    unfold invalidInstWith at ht ⊢
    obtain ⟨⟨w, pc⟩, hw, ht⟩ := bind_ok ht
    obtain ⟨w', hw', ht⟩ := bind_ok ht
    simp only [instFetch_of_checked hw, instFetch_of_checked hw', bind, Except.bind]
    exact ht
  have hpat : ∀ t t', instpat (namedTable ++ [invEntryWith instFetchChecked]) t m = .ok t' →
      instpat (namedTable ++ [invEntryWith instFetch]) t m = .ok t' := by
    intro t t' ht
    rw [instpat_eq t m _ (table_with_pat _), List.find?_append] at ht ⊢
    cases hfind : namedTable.find? (fun e => e.hit t.inst) with
    | some e =>
      rw [hfind] at ht
      exact ht
    | none =>
      rw [hfind] at ht
      rw [Option.none_or, List.find?_cons, invEntryWith_hit] at ht ⊢
      exact hinv (decodeOperand t m.cpu .N) t t' ht
  rw [← isaExecOnceWith_instFetch]
  unfold isaExecOnceWith at h ⊢
  obtain ⟨⟨inst, snpc⟩, hw, h⟩ := bind_ok h
  obtain ⟨⟨t, m'⟩, ht, h⟩ := bind_ok h
  simp only [instFetch_of_checked hw, hpat _ _ ht, bind, Except.bind]
  exact h

/-! ## The report -/

variable {s : Decode} {m : Machine}

/-- The step at `pc` returns in the aborted state that names it, with the registers (`x0` being zero) and the memory
as they were, and no access has left `pmem`. -/
def Reports (s : Decode) (pc : Word) (m : Machine) : Prop :=
  ∃ s' m', isaExecOnceWith instFetchChecked { s with pc, snpc := pc } m = .ok (s', m') ∧
    m'.nemuState = ⟨.abort, pc, -1⟩ ∧ m'.pmem = m.pmem ∧ (m.cpu.gpr 0 = 0 → m'.cpu = m.cpu)

theorem setR_zero_of_zero (h : m.cpu.gpr 0 = 0) : m.setR 0 0 = m := by
  have hgpr : (fun q => if q = 0 then 0 else m.cpu.gpr q) = m.cpu.gpr := by
    funext q
    by_cases hq : q = 0
    · rw [if_pos hq, hq, h]
    · rw [if_neg hq]
  unfold Machine.setR
  rw [hgpr]

/-- What the step does with a word of no pattern. -/
theorem isaExecOnceWith_none {fetch : Pmem → Word → ℕ → Exec (Word × Word)} {w snpc : Word}
    (hfetch : fetch m.pmem pc 4 = .ok (w, snpc)) (hw : NoPattern w) :
    isaExecOnceWith fetch { s with pc, snpc := pc } m =
      (fetch m.pmem snpc 4).map fun _ =>
        (⟨pc, snpc, snpc, w⟩, (setNemuState m .abort pc (-1)).setR 0 0) := by
  have hpat := instpat_none fetch (s := ⟨pc, snpc, snpc, w⟩) hw m
  have hinv : invalidInstWith fetch (decodeOperand ⟨pc, snpc, snpc, w⟩ m.cpu .N) ⟨pc, snpc, snpc, w⟩ m =
      (fetch m.pmem snpc 4).map fun _ => (⟨pc, snpc, snpc, w⟩, setNemuState m .abort pc (-1)) := by
    unfold invalidInstWith
    simp only [hfetch, bind, Except.bind]
    cases fetch m.pmem snpc 4 <;> rfl
  unfold isaExecOnceWith
  simp only [hfetch, bind, Except.bind, hpat, hinv]
  cases fetch m.pmem snpc 4 <;> rfl

/-- **A word of no pattern is reported just if the word behind it is in `pmem`.** -/
theorem reports_iff (s : Decode) (pc : Word) (m : Machine) (hpc : InPmem pc .word)
    (hw : NoPattern (loadBytes (guestMem m.pmem) pc .word)) : Reports s pc m ↔ InPmem (pc + 4) .word := by
  have hstep := isaExecOnceWith_none (s := s) (instFetchChecked_ok m.pmem hpc) hw
  unfold Reports
  rw [hstep]
  constructor
  · rintro ⟨s', m', h, -⟩
    by_contra hnot
    obtain ⟨f, hf⟩ := instFetchChecked_error m.pmem hnot
    rw [hf] at h
    cases h
  · intro hnext
    rw [instFetchChecked_ok m.pmem hnext]
    refine ⟨_, _, rfl, rfl, rfl, fun h0 => ?_⟩
    exact (congrArg Machine.cpu (setR_zero_of_zero (m := setNemuState m .abort pc (-1)) h0)).trans rfl

/-- A machine whose memory is all ones. -/
def Machine.ones : Machine where
  cpu := ⟨fun _ => 0, configMbase⟩
  pmem := fun _ => 0xff
  nemuState := ⟨.running, 0, 0⟩

theorem noPattern_ones : NoPattern 0xffffffff := by
  have hmiss : ∀ e ∈ namedTable, ¬ e.pat.Matches 0xffffffff := by decide
  intro e he
  rw [← Bool.not_eq_true, hit_iff (mem_table he)]
  exact hmiss e he

theorem reports_ones :
    Reports ⟨0, 0, 0, 0⟩ configMbase .ones ↔ InPmem (configMbase + 4) .word :=
  reports_iff ⟨0, 0, 0, 0⟩ configMbase .ones (by decide) noPattern_ones

/-- At the last word of `pmem` the message does not come about: the fetch behind the word panics. -/
theorem last_word_not_reported :
    InPmem 0x87fffffc .word ∧ NoPattern (loadBytes (guestMem Machine.ones.pmem) 0x87fffffc .word) ∧
      isaExecOnce ⟨0x87fffffc, 0x87fffffc, 0, 0⟩ .ones = .error .panic ∧
      ¬ Reports ⟨0, 0, 0, 0⟩ 0x87fffffc .ones := by
  have hfetch : instFetch Machine.ones.pmem 0x87fffffc 4 = .ok (0xffffffff, 0x88000000) := by decide
  have hpanic : instFetch Machine.ones.pmem 0x88000000 4 = .error .panic := by decide
  have hbehind : ¬ InPmem 0x88000000 .word := by decide
  refine ⟨by decide, noPattern_ones, ?_, ?_⟩
  · have hstep := isaExecOnceWith_none (s := ⟨0, 0, 0, 0⟩) hfetch noPattern_ones
    rw [hpanic] at hstep
    exact hstep
  · rintro ⟨s', m', h, -⟩
    obtain ⟨f, hf⟩ := instFetchChecked_error Machine.ones.pmem hbehind
    have hstep := isaExecOnceWith_none (s := ⟨0, 0, 0, 0⟩)
      (instFetchChecked_ok Machine.ones.pmem (by decide : InPmem 0x87fffffc .word)) noPattern_ones
    rw [show (0x87fffffc + 4 : Word) = 0x88000000 from rfl, hf] at hstep
    rw [hstep] at h
    cases h

end Nemu
