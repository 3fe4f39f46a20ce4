import Rv32i.Nemu.Inst

/-!
# NEMU: what the decode table decodes

Every pattern string of the table stands for the encodings of the instruction it is named after
(`table_pat`), and entries of different names clash.  Hence the entry that `decode_exec` runs is the
first one named after the instruction the word encodes (`instpat_of_encodes`), and the table as a whole
decodes a word to what it encodes exactly when the word is not a `lb` (`decode_iff`): `lb` has no entry.

The second half shows that the operands `decode_operand` extracts are the fields and immediates of the
specification.
-/

namespace Nemu

open Rv32 Ternary

/-! ## Pattern strings as ternary patterns -/

/-- The compared bits, shifted back to their place, lie in the 32-bit word and none is lost. -/
def PatKey.Fits (k : PatKey) : Prop :=
  (k.mask <<< k.shift) >>> k.shift = k.mask ∧ (k.key <<< k.shift) >>> k.shift = k.key ∧
    ((k.mask <<< k.shift).setWidth 32).setWidth 64 = k.mask <<< k.shift ∧
    ((k.key <<< k.shift).setWidth 32).setWidth 64 = k.key <<< k.shift

instance (k : PatKey) : Decidable k.Fits := by
  unfold PatKey.Fits; infer_instance

def PatKey.toPattern (k : PatKey) : Pattern 32 :=
  ⟨(k.mask <<< k.shift).setWidth 32, (k.key <<< k.shift).setWidth 32⟩

/-- Shifting the word down or the pattern up compares the same bits. -/
theorem and_shift_iff {x m k : BitVec 64} {s : ℕ} (hm : (m <<< s) >>> s = m) (hk : (k <<< s) >>> s = k) :
    (x >>> s) &&& m = k ↔ x &&& (m <<< s) = k <<< s := by
  constructor
  · intro h
    rw [← h]
    apply BitVec.eq_of_getLsbD_eq
    intro i hi
    by_cases his : i < s
    · simp [his]
    · have : s + (i - s) = i := by omega
      simp [his, hi, this]
  · intro h
    rw [← hk, ← h, BitVec.ushiftRight_and_distrib, hm]

theorem PatKey.test_iff {k : PatKey} (h : k.Fits) (w : Word) : k.test w = true ↔ k.toPattern.Matches w := by
  obtain ⟨hm, hk, hm', hk'⟩ := h
  unfold PatKey.test PatKey.toPattern Pattern.Matches
  rw [beq_iff_eq, BitVec.ushiftRight_eq', and_shift_iff hm hk, ← BitVec.shiftLeft_eq', ← BitVec.shiftLeft_eq',
    ← hm', ← hk', ← BitVec.setWidth_and]
  generalize (k.mask <<< k.shift).setWidth 32 = mask
  generalize (k.key <<< k.shift).setWidth 32 = key
  have hback : ∀ x : Word, (x.setWidth 64).setWidth 32 = x := fun x => by simp
  rw [hback, hback]
  constructor
  · intro e
    simpa only [hback] using congrArg (BitVec.setWidth 32) e
  · intro e
    rw [e]

/-- The pattern of a pattern string, when the string decodes and its compared bits fit the word. -/
def instPattern (str : List Char) : Option (Pattern 32) :=
  match patternDecode str with
  | .ok k => if k.Fits then some k.toPattern else none
  | .error _ => none

/-- The words an entry is meant for: the encodings of its instruction, or every word for `inv`. -/
def InstPat.pat (e : InstPat) : Pattern 32 :=
  match e.name with
  | some op => op.pattern
  | none => ⟨0, 0⟩

/-- The entry's test succeeds on the word. -/
def InstPat.hit (e : InstPat) (w : Word) : Bool :=
  match patternDecode e.pattern.toList with
  | .ok k => k.test w
  | .error _ => false

/-- Every pattern string decodes, to the encodings of the instruction the entry is named after. -/
theorem table_pat : ∀ e ∈ instpatTable, instPattern e.pattern.toList = some e.pat := by
  unfold instpatTable
  simp only [List.forall_mem_cons, List.not_mem_nil, false_implies, implies_true, and_true]
  repeat' apply And.intro
  all_goals
    -- the characters of the literal first: `toList` is slow to evaluate
    refine (congrArg instPattern String.toList_ofList).trans ?_
    decide +kernel

theorem patternDecode_of_pat {e : InstPat} (h : instPattern e.pattern.toList = some e.pat) :
    ∃ k, patternDecode e.pattern.toList = .ok k ∧ ∀ w, k.test w = true ↔ e.pat.Matches w := by
  unfold instPattern at h
  cases hk : patternDecode e.pattern.toList with
  | error f => rw [hk] at h; cases h
  | ok k =>
    rw [hk] at h
    by_cases hf : k.Fits
    · have hp : k.toPattern = e.pat := by simpa [hf] using h
      exact ⟨k, rfl, fun w => by rw [PatKey.test_iff hf, hp]⟩
    · simp [hf] at h

theorem hit_iff {e : InstPat} (he : e ∈ instpatTable) (w : Word) : e.hit w = true ↔ e.pat.Matches w := by
  obtain ⟨k, hk, ht⟩ := patternDecode_of_pat (table_pat e he)
  unfold InstPat.hit
  rw [hk]
  exact ht w

/-! ## The entry that runs -/

/-- The first entry of the table whose test succeeds. -/
def firstMatch (w : Word) : Option InstPat := instpatTable.find? fun e => e.hit w

/-- The expansion runs the first entry whose test succeeds. -/
theorem instpat_eq (s : Decode) (m : Machine) :
    ∀ table : List InstPat, (∀ e ∈ table, instPattern e.pattern.toList = some e.pat) →
      instpat table s m = match table.find? fun e => e.hit s.inst with
        | some e => e.body (decodeOperand s m.cpu e.type) s m
        | none => .ok (s, m)
  | [], _ => rfl
  | e :: rest, h => by
    obtain ⟨k, hk, -⟩ := patternDecode_of_pat (h e (List.mem_cons_self ..))
    have hhit : e.hit s.inst = k.test s.inst := by unfold InstPat.hit; rw [hk]
    have ih := instpat_eq s m rest fun x hx => h x (List.mem_cons_of_mem _ hx)
    rw [List.find?_cons, hhit]
    cases ht : k.test s.inst with
    | true => simp [instpat, hk, ht, bind, Except.bind]
    | false => simpa [instpat, hk, ht, bind, Except.bind] using ih

/-- The last entry. -/
def invEntry : InstPat := ⟨"??????? ????? ????? ??? ????? ????? ??", none, .N, invalidInst⟩

/-- The entries with a name, in order. -/
def namedTable : List InstPat := instpatTable.dropLast

theorem table_eq : instpatTable = namedTable ++ [invEntry] := rfl

theorem namedTable_name : ∀ e ∈ namedTable, e.name ≠ none := by decide

theorem mem_table {e : InstPat} (he : e ∈ namedTable) : e ∈ instpatTable := by
  rw [table_eq]
  exact List.mem_append_left _ he

theorem pat_of_name {e : InstPat} {op : Mnemonic} (h : e.name = some op) : e.pat = op.pattern := by
  unfold InstPat.pat
  rw [h]

/-- An entry named `op` tests for the encodings of `op`. -/
theorem hit_name_iff {e : InstPat} (he : e ∈ instpatTable) {op : Mnemonic} (h : e.name = some op) (w : Word) :
    e.hit w = true ↔ Encodes op w := by
  rw [hit_iff he, pat_of_name h, encodes_iff_matches]

/-- Two named entries that both match have the same name. -/
theorem name_eq_of_hit {e e' : InstPat} (he : e ∈ namedTable) (he' : e' ∈ namedTable) {w : Word}
    (h : e.hit w = true) (h' : e'.hit w = true) : e.name = e'.name := by
  obtain ⟨op, hop⟩ := Option.ne_none_iff_exists'.mp (namedTable_name e he)
  obtain ⟨op', hop'⟩ := Option.ne_none_iff_exists'.mp (namedTable_name e' he')
  rw [hit_name_iff (mem_table he) hop] at h
  rw [hit_name_iff (mem_table he') hop'] at h'
  rw [hop, hop', h.unique h']

/-- On an encoding of `op`, the first entry that matches is the first one named `op`. -/
theorem firstMatch_of_encodes {op : Mnemonic} {w : Word} {e : InstPat}
    (hfind : namedTable.find? (fun e => e.name = some op) = some e) (hw : Encodes op w) :
    firstMatch w = some e := by
  obtain ⟨hname, pre, post, htable, hpre⟩ := List.find?_eq_some_iff_append.mp hfind
  have hname : e.name = some op := by simpa using hname
  have he : e ∈ namedTable := by rw [htable]; simp
  have hhit : e.hit w = true := (hit_name_iff (mem_table he) hname w).mpr hw
  have hmiss : ∀ x ∈ pre, ¬ x.hit w = true := by
    intro x hx hxw
    have hx' : x ∈ namedTable := by rw [htable]; exact List.mem_append_left _ hx
    have := hpre x hx
    rw [name_eq_of_hit hx' he hxw hhit, hname] at this
    simp at this
  unfold firstMatch
  rw [table_eq, htable, List.find?_eq_some_iff_append]
  exact ⟨hhit, pre, post ++ [invEntry], by simp, fun x hx => by simpa using hmiss x hx⟩

theorem instpat_of_encodes {op : Mnemonic} {s : Decode} {m : Machine} {e : InstPat}
    (hfind : namedTable.find? (fun e => e.name = some op) = some e) (hw : Encodes op s.inst) :
    instpat instpatTable s m = e.body (decodeOperand s m.cpu e.type) s m := by
  have := instpat_eq s m instpatTable table_pat
  rw [this]
  have hf := firstMatch_of_encodes hfind hw
  unfold firstMatch at hf
  rw [hf]

/-! ## The table as a decoder -/

theorem exists_entry (op : Mnemonic) (h : op ≠ .lb) : ∃ e ∈ namedTable, e.name = some op := by
  cases op <;> first | exact absurd rfl h | decide

theorem no_lb_entry : ∀ e ∈ namedTable, e.name ≠ some .lb := by decide

theorem invEntry_hit (w : Word) : invEntry.hit w = true := by
  rw [hit_iff (by rw [table_eq]; simp)]
  show w &&& 0 = 0
  exact BitVec.and_zero

/-- The name of the first entry that matches, for every instruction but `lb`. -/
theorem firstMatch_name_iff (w : Word) (op : Mnemonic) (h : op ≠ .lb) :
    (firstMatch w).map InstPat.name = some (some op) ↔ Encodes op w := by
  constructor
  · intro hm
    obtain ⟨e, he, hname⟩ := Option.map_eq_some_iff.mp hm
    have hhit := List.find?_some he
    exact (hit_name_iff (List.mem_of_find?_eq_some he) hname w).mp hhit
  · intro hw
    obtain ⟨e, he, hname⟩ := exists_entry op h
    cases hf : namedTable.find? (fun e => e.name = some op) with
    | none =>
      rw [List.find?_eq_none] at hf
      exact absurd hname (by simpa using hf e he)
    | some x =>
      rw [firstMatch_of_encodes hf hw]
      simpa using List.find?_some hf

/-- No entry is named `lb`. -/
theorem firstMatch_ne_lb (w : Word) : (firstMatch w).map InstPat.name ≠ some (some .lb) := by
  intro hm
  obtain ⟨e, he, hname⟩ := Option.map_eq_some_iff.mp hm
  have := List.mem_of_find?_eq_some he
  rw [table_eq, List.mem_append] at this
  rcases this with h | h
  · exact no_lb_entry e h hname
  · rw [List.mem_singleton.mp h] at hname
    cases hname

/-- Some entry always matches. -/
theorem firstMatch_isSome (w : Word) : ∃ e, firstMatch w = some e := by
  cases hf : firstMatch w with
  | some e => exact ⟨e, rfl⟩
  | none =>
    unfold firstMatch at hf
    rw [List.find?_eq_none] at hf
    exact absurd (invEntry_hit w) (hf invEntry (by rw [table_eq]; simp))

/-- What the table is meant to do with a word: name the instruction the word encodes, reject every
other word, and have no two instructions compete for it. -/
def DecodesRight (w : Word) : Prop :=
  (∀ op, (firstMatch w).map InstPat.name = some (some op) ↔ Encodes op w) ∧
    ((firstMatch w).map InstPat.name = some none ↔ ∀ op, ¬ Encodes op w) ∧
    ∀ e ∈ instpatTable, ∀ e' ∈ instpatTable, e.name ≠ none → e'.name ≠ none →
      e.hit w = true → e'.hit w = true → e.name = e'.name

/-- **The table decodes a word right exactly when the word is not a `lb`.** -/
theorem decode_iff (w : Word) : DecodesRight w ↔ ¬ Encodes .lb w := by
  constructor
  · rintro ⟨h, -, -⟩ hlb
    exact firstMatch_ne_lb w ((h .lb).mpr hlb)
  · intro hlb
    have hname : ∀ op, (firstMatch w).map InstPat.name = some (some op) ↔ Encodes op w := by
      intro op
      by_cases hop : op = .lb
      · subst hop
        exact ⟨fun h => absurd h (firstMatch_ne_lb w), fun h => absurd h hlb⟩
      · exact firstMatch_name_iff w op hop
    refine ⟨hname, ?_, ?_⟩
    · obtain ⟨e, he⟩ := firstMatch_isSome w
      constructor
      · intro hn op hop
        rw [(hname op).mpr hop] at hn
        cases hn
      · intro hno
        cases hn : e.name with
        | none => rw [he, Option.map_some, hn]
        | some op => exact absurd ((hname op).mp (by rw [he, Option.map_some, hn])) (hno op)
    · intro e he e' he' hn hn' hhit hhit'
      have hmem : ∀ x ∈ instpatTable, x.name ≠ none → x ∈ namedTable := by
        intro x hx hxn
        rw [table_eq, List.mem_append] at hx
        rcases hx with h | h
        · exact h
        · exact absurd (by rw [List.mem_singleton.mp h]; rfl) hxn
      exact name_eq_of_hit (hmem e he hn) (hmem e' he' hn') hhit hhit'

/-- `lb a0, 0(a0)` is a valid load that falls through to `inv`. -/
theorem lb_not_decoded : ¬ DecodesRight 0x00050503 := by
  rintro ⟨h, -, -⟩
  exact firstMatch_ne_lb 0x00050503 ((h .lb).mpr (by decide))

/-! ## Operands -/

theorem getLsbD_bitmask (n i : ℕ) (hn : n < 64) : (bitmask n).getLsbD i = decide (i < n) := by
  unfold bitmask
  have : (1#64 <<< n) - 1#64 = BitVec.ofNat 64 (2 ^ n - 1) := by
    apply BitVec.eq_of_toNat_eq
    have h1 : 2 ^ n < 2 ^ 64 := Nat.pow_lt_pow_right (by decide) hn
    have h2 : 0 < 2 ^ n := Nat.two_pow_pos n
    simp only [BitVec.toNat_sub, BitVec.toNat_shiftLeft, BitVec.toNat_ofNat, Nat.shiftLeft_eq]
    omega
  rw [this, BitVec.getLsbD_ofNat, Nat.testBit_two_pow_sub_one]
  by_cases h : i < n
  · simp [h]; omega
  · simp [h]

theorem getLsbD_bits (x : Word) (hi lo i : ℕ) (h : hi - lo + 1 < 64) :
    (bits x hi lo).getLsbD i = (decide (i < hi - lo + 1) && x.getLsbD (lo + i)) := by
  unfold bits
  rw [BitVec.getLsbD_and, getLsbD_bitmask _ _ h, BitVec.getLsbD_setWidth, BitVec.getLsbD_ushiftRight]
  by_cases hi' : i < hi - lo + 1
  · simp [hi', show i < 64 by omega]
  · simp [hi']

/-- The field `x[hi:lo]`, cut to its width. -/
theorem setWidth_bits (x : Word) (hi lo n : ℕ) (hn : n = hi - lo + 1) (h : n < 64) :
    (bits x hi lo).setWidth n = x.extractLsb' lo n := by
  subst hn
  apply BitVec.eq_of_getLsbD_eq
  intro i hi'
  rw [BitVec.getLsbD_setWidth, getLsbD_bits x hi lo i h, BitVec.getLsbD_extractLsb']
  simp [hi']

theorem immI_eq (w : Word) : immI w = Rv32.immI w := by
  unfold immI Rv32.immI
  rw [setWidth_sext, setWidth_bits w 31 20 12 rfl (by decide)]

theorem immU_eq (w : Word) : immU w = Rv32.immU w := by
  unfold immU Rv32.immU sext
  rw [setWidth_bits w 31 12 20 rfl (by decide)]
  apply BitVec.eq_of_getLsbD_eq
  intro i hi
  simp only [BitVec.getLsbD_setWidth, BitVec.getLsbD_shiftLeft, BitVec.getLsbD_signExtend, BitVec.getLsbD_append,
    BitVec.getLsbD_extractLsb', hi, decide_true, Bool.true_and]
  by_cases h12 : i < 12
  · simp [h12]
  · have h1 : i < 64 := by omega
    have h2 : i - 12 < 20 := by omega
    have h3 : i - 12 < 64 := by omega
    simp [h12, h1, h2, h3]

/-- The split immediates agree bit by bit; every bit of the result has one source. -/
theorem immS_eq (w : Word) : immS w = Rv32.immS w := by
  unfold immS Rv32.immS sext
  rw [setWidth_bits w 31 25 7 rfl (by decide)]
  apply BitVec.eq_of_getLsbD_eq
  intro i hi
  interval_cases i <;>
    simp (disch := decide) only [BitVec.getLsbD_setWidth, BitVec.getLsbD_signExtend, BitVec.getLsbD_or,
      BitVec.getLsbD_shiftLeft, BitVec.getLsbD_append, getLsbD_bits, BitVec.getLsbD_extractLsb',
      BitVec.msb_eq_getLsbD_last] <;> simp

theorem immB_eq (w : Word) : immB w = Rv32.immB w := by
  unfold immB Rv32.immB sext
  rw [setWidth_bits w 31 31 1 rfl (by decide)]
  apply BitVec.eq_of_getLsbD_eq
  intro i hi
  interval_cases i <;>
    simp (disch := decide) only [BitVec.getLsbD_setWidth, BitVec.getLsbD_signExtend, BitVec.getLsbD_or,
      BitVec.getLsbD_shiftLeft, BitVec.getLsbD_append, getLsbD_bits, BitVec.getLsbD_extractLsb',
      BitVec.msb_eq_getLsbD_last] <;> simp

theorem immJ_eq (w : Word) : immJ w = Rv32.immJ w := by
  unfold immJ Rv32.immJ sext
  rw [setWidth_bits w 31 31 1 rfl (by decide)]
  apply BitVec.eq_of_getLsbD_eq
  intro i hi
  interval_cases i <;>
    simp (disch := decide) only [BitVec.getLsbD_setWidth, BitVec.getLsbD_signExtend, BitVec.getLsbD_or,
      BitVec.getLsbD_shiftLeft, BitVec.getLsbD_append, getLsbD_bits, BitVec.getLsbD_extractLsb',
      BitVec.msb_eq_getLsbD_last] <;> simp

/-- What `decode_operand` extracts, in the specification's fields and immediates. -/
theorem decodeOperand_eq (s : Decode) (cpu : CPUState) (type : OpType) :
    decodeOperand s cpu type =
      { rd := rd s.inst
        src1 := match type with | .R | .I | .S | .B => cpu.gpr (rs1 s.inst) | _ => 0
        src2 := match type with | .R | .S | .B => cpu.gpr (rs2 s.inst) | _ => 0
        imm := match type with
          | .I => Rv32.immI s.inst | .S => Rv32.immS s.inst | .B => Rv32.immB s.inst
          | .U => Rv32.immU s.inst | .J => Rv32.immJ s.inst | _ => 0 } := by
  have h1 := setWidth_bits s.inst 19 15 5 rfl (by decide)
  have h2 := setWidth_bits s.inst 24 20 5 rfl (by decide)
  have h3 := setWidth_bits s.inst 11 7 5 rfl (by decide)
  unfold decodeOperand
  cases type <;> simp only [h1, h2, h3, immI_eq, immU_eq, immS_eq, immB_eq, immJ_eq] <;> rfl

end Nemu
