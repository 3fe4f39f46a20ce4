import Rv32i.Lib.Wildcard
import Rv32i.Nemu.Inst

/-!
# NEMU: pattern strings

`pattern_decode` and `pattern_decode_hex` of `include/cpu/decode.h`: the test that is built from a pattern string
succeeds on a word just if every character that is no `?` is the digit of the word at its place
(`pattern_law`).
-/

namespace Nemu

open Rv32 Wildcard

/-! ## `pattern_decode_hex` -/

/-- The value of a digit character of `pattern_decode_hex`. -/
def hexDigit (c : Char) : BitVec 64 :=
  if '0' ≤ c ∧ c ≤ '9' then BitVec.ofNat 64 (c.toNat - '0'.toNat) else BitVec.ofNat 64 (c.toNat - 'a'.toNat + 10)

/-- `macro(i)` of `pattern_decode_hex` on one character. -/
def patternStepHex (k : PatKey) (c : Char) : Exec PatKey :=
  if c = ' ' then .ok k
  else if ('0' ≤ c ∧ c ≤ '9') ∨ ('a' ≤ c ∧ c ≤ 'f') ∨ c = '?' then
    .ok { key := (k.key <<< 4) ||| (if c = '?' then 0 else hexDigit c)
          mask := (k.mask <<< 4) ||| (if c = '?' then 0 else 0xf)
          shift := if c = '?' then k.shift + 4 else 0 }
  else .error .panic

/-- The expansions of `macro`, as many as there are, and the panic behind them. -/
def unrolled (step : PatKey → Char → Exec PatKey) : ℕ → List Char → PatKey → Exec PatKey
  | 0, _, _ => .error .panic
  | _ + 1, [], k => .ok { key := k.key >>> k.shift, mask := k.mask >>> k.shift, shift := k.shift }
  | n + 1, c :: str, k => do unrolled step n str (← step k c)

/-- `macro16(0)`. -/
def patternDecodeHex (str : List Char) : Exec PatKey := unrolled patternStepHex 16 str ⟨0, 0, 0⟩

theorem patternLoop_eq (n : ℕ) (str : List Char) (k : PatKey) :
    patternLoop n str k = unrolled patternStep n str k := by
  induction n generalizing str k with
  | zero => rfl
  | succ n ih =>
    cases str with
    | nil => rfl
    | cons c str =>
      show (patternStep k c >>= patternLoop n str) = (patternStep k c >>= unrolled patternStep n str)
      congr 1
      funext k'
      exact ih str k'

/-! ## The scan -/

/-- The characters of a pattern that are no spaces, from the right. -/
def places (str : List Char) : List Char := (str.filter (· ≠ ' ')).reverse

section Scan

variable {b : ℕ}

/-- Key, mask and shift of the digits that are read, the last first. -/
def gathered (ds : List (Option (BitVec b))) : PatKey :=
  ⟨pack 64 (ds.map digit), pack 64 (ds.map care), BitVec.ofNat 64 (b * openEnd ds)⟩

/-- The step leaves spaces alone and appends the digit of every other character that it accepts. -/
structure Scans (step : PatKey → Char → Exec PatKey) (value : Char → Option (BitVec b)) (accepts : Char → Prop) :
    Prop where
  space : ∀ k, step k ' ' = .ok k
  digit : ∀ ds c, c ≠ ' ' → accepts c → step (gathered ds) c = .ok (gathered (value c :: ds))

variable {step : PatKey → Char → Exec PatKey} {value : Char → Option (BitVec b)} {accepts : Char → Prop}

/-- What is left at `finish`. -/
def finished (ds : List (Option (BitVec b))) : PatKey :=
  let k := gathered ds
  { key := k.key >>> k.shift, mask := k.mask >>> k.shift, shift := k.shift }

theorem places_cons {c : Char} {str : List Char} (hc : c ≠ ' ') : places (c :: str) = places str ++ [c] := by
  unfold places
  rw [List.filter_cons_of_pos (by simpa using hc), List.reverse_cons]

theorem places_space (str : List Char) : places (' ' :: str) = places str := by
  unfold places
  rw [List.filter_cons_of_neg (by simp)]

/-- **The scan holds the digits of what it has read.** -/
theorem Scans.unrolled_eq (h : Scans step value accepts) {n : ℕ} {str : List Char} (hn : str.length < n)
    (hstr : ∀ c ∈ str, c = ' ' ∨ accepts c) (ds : List (Option (BitVec b))) :
    unrolled step n str (gathered ds) = .ok (finished ((places str).map value ++ ds)) := by
  induction str generalizing n ds with
  | nil =>
    obtain ⟨n, rfl⟩ : ∃ i, n = i + 1 := ⟨n - 1, by simp at hn; omega⟩
    rfl
  | cons c str ih =>
    obtain ⟨n, rfl⟩ : ∃ i, n = i + 1 := ⟨n - 1, by simp at hn; omega⟩
    rw [List.length_cons] at hn
    have hrest : ∀ d ∈ str, d = ' ' ∨ accepts d := fun d hd => hstr d (List.mem_cons_of_mem _ hd)
    show (step (gathered ds) c >>= unrolled step n str) = _
    by_cases hc : c = ' '
    · subst hc
      rw [h.space, places_space]
      exact ih (by omega) hrest ds
    · have hacc : accepts c := (hstr c List.mem_cons_self).resolve_left hc
      rw [h.digit ds c hc hacc, places_cons hc, List.map_append, List.append_assoc]
      exact ih (by omega) hrest (value c :: ds)

/-- **The test compares the digits.** -/
theorem finished_test (hb : 0 < b) {ds : List (Option (BitVec b))} (hlen : b * ds.length < 64) (inst : Word) :
    (finished ds).test inst = true ↔
      ∀ i v, ds[i]? = some (some v) → (inst.setWidth 64).extractLsb' (b * i) b = v := by
  have hle : b * openEnd ds ≤ b * ds.length := Nat.mul_le_mul_left b (openEnd_le ds)
  have hshift : (BitVec.ofNat 64 (b * openEnd ds)).toNat = b * openEnd ds := by
    rw [BitVec.toNat_ofNat, Nat.mod_eq_of_lt (by omega)]
  rw [← test_iff hb (by omega : b * ds.length ≤ 64)]
  unfold finished gathered PatKey.test
  rw [beq_iff_eq]
  simp only [BitVec.ushiftRight_eq', hshift]

/-- Behind a digit that is not open nothing is open. -/
theorem gathered_some (v : BitVec b) (ds : List (Option (BitVec b))) :
    gathered (some v :: ds) = ⟨((gathered ds).key <<< b) ||| v.setWidth 64,
      ((gathered ds).mask <<< b) ||| (BitVec.allOnes b).setWidth 64, 0⟩ := rfl

theorem gathered_none (ds : List (Option (BitVec b))) :
    gathered (none :: ds) = ⟨((gathered ds).key <<< b) ||| 0, ((gathered ds).mask <<< b) ||| 0,
      (gathered ds).shift + BitVec.ofNat 64 b⟩ := by
  have hzero : (0#b).setWidth 64 = 0 := BitVec.setWidth_zero 64 b
  have hshift : BitVec.ofNat 64 (b * openEnd (none :: ds)) =
      BitVec.ofNat 64 (b * openEnd ds) + BitVec.ofNat 64 b := by
    rw [← BitVec.ofNat_add]
    rfl
  show PatKey.mk ((pack 64 (ds.map digit) <<< b) ||| (0#b).setWidth 64)
    ((pack 64 (ds.map care) <<< b) ||| (0#b).setWidth 64) (BitVec.ofNat 64 (b * openEnd (none :: ds))) = _
  rw [hshift, hzero]
  rfl

end Scan

/-! ## The two pattern functions -/

/-- The digit of a character of `pattern_decode`. -/
def binValue (c : Char) : Option (BitVec 1) := if c = '?' then none else some (if c = '1' then 1 else 0)

/-- The digit of a character of `pattern_decode_hex`. -/
def hexValue (c : Char) : Option (BitVec 4) := if c = '?' then none else some ((hexDigit c).setWidth 4)

theorem patternStep_scans : Scans patternStep binValue fun c => c = '0' ∨ c = '1' ∨ c = '?' where
  space _ := rfl
  digit ds c _ hacc := by
    rcases hacc with rfl | rfl | rfl
    · exact congrArg Except.ok (gathered_some 0 ds).symm
    · exact congrArg Except.ok (gathered_some 1 ds).symm
    · exact congrArg Except.ok (gathered_none ds).symm

/-- A digit character is the one of its value. -/
theorem hexDigit_spec {c : Char} (h : ('0' ≤ c ∧ c ≤ '9') ∨ ('a' ≤ c ∧ c ≤ 'f')) :
    c ≠ '?' ∧ hexDigit c = ((hexDigit c).setWidth 4).setWidth 64 ∧
      c = ((hexDigit c).setWidth 4).toNat.digitChar := by
  have hnat : (48 ≤ c.toNat ∧ c.toNat ≤ 57) ∨ (97 ≤ c.toNat ∧ c.toNat ≤ 102) := h
  have hc := Char.ofNat_toNat c
  revert hnat
  generalize c.toNat = n at hc
  subst hc
  clear h
  rintro (⟨hlo, hhi⟩ | ⟨hlo, hhi⟩) <;> interval_cases n <;> decide

theorem patternStepHex_scans : Scans patternStepHex hexValue
    fun c => ('0' ≤ c ∧ c ≤ '9') ∨ ('a' ≤ c ∧ c ≤ 'f') ∨ c = '?' where
  space _ := rfl
  digit ds c hc hacc := by
    unfold patternStepHex hexValue
    rw [if_neg hc, if_pos hacc]
    by_cases hq : c = '?'
    · rw [if_pos hq, if_pos hq, if_pos hq, if_pos hq, gathered_none]
      rfl
    · obtain ⟨-, hval, -⟩ := hexDigit_spec (by tauto : ('0' ≤ c ∧ c ≤ '9') ∨ ('a' ≤ c ∧ c ≤ 'f'))
      rw [if_neg hq, if_neg hq, if_neg hq, if_neg hq, gathered_some, ← hval]
      rfl

/-! ## The law -/

/-- Every character of the pattern is open or the digit of the word at its place from the right, in base
`2 ^ b`. -/
def Agrees (b : ℕ) (str : List Char) (w : BitVec 64) : Prop :=
  ∀ i c, (places str)[i]? = some c → c = '?' ∨ c = (w.extractLsb' (b * i) b).toNat.digitChar

/-- The digits of a pattern, compared as characters. -/
theorem agrees_iff {b : ℕ} {str : List Char} {w : BitVec 64} {value : Char → Option (BitVec b)}
    (hvalue : ∀ c ∈ places str, (c = '?' ∧ value c = none) ∨
      (c ≠ '?' ∧ ∃ v, value c = some v ∧ ∀ d : BitVec b, d = v ↔ c = d.toNat.digitChar)) :
    (∀ i v, ((places str).map value)[i]? = some (some v) → w.extractLsb' (b * i) b = v) ↔ Agrees b str w := by
  constructor
  · intro h i c hc
    rcases hvalue c (List.mem_of_getElem? hc) with ⟨hq, -⟩ | ⟨-, v, hv, hd⟩
    · exact .inl hq
    · exact .inr ((hd _).mp (h i v (by rw [List.getElem?_map, hc, Option.map_some, hv])))
  · intro h i v hi
    rw [List.getElem?_map] at hi
    obtain ⟨c, hc, hval⟩ := Option.map_eq_some_iff.mp hi
    rcases hvalue c (List.mem_of_getElem? hc) with ⟨-, hnone⟩ | ⟨hq, v', hv, hd⟩
    · rw [hnone] at hval
      cases hval
    · rw [hv] at hval
      cases hval
      exact (hd _).mpr ((h i c hc).resolve_left hq)

theorem places_length_le (str : List Char) : (places str).length ≤ str.length := by
  unfold places
  rw [List.length_reverse]
  exact List.length_filter_le _ _

theorem mem_places {str : List Char} {c : Char} (h : c ∈ places str) : c ∈ str ∧ c ≠ ' ' := by
  unfold places at h
  rw [List.mem_reverse, List.mem_filter] at h
  exact ⟨h.1, by simpa using h.2⟩

/-- What a scan from the start gives, as a law about characters. -/
theorem Scans.law {b : ℕ} {step : PatKey → Char → Exec PatKey} {value : Char → Option (BitVec b)}
    {accepts : Char → Prop} (h : Scans step value accepts) (hb : 0 < b) {n : ℕ} {str : List Char}
    (hn : str.length < n) (hstr : ∀ c ∈ str, c = ' ' ∨ accepts c) (hlen : b * (places str).length < 64)
    (hvalue : ∀ c, accepts c → (c = '?' ∧ value c = none) ∨
      (c ≠ '?' ∧ ∃ v, value c = some v ∧ ∀ d : BitVec b, d = v ↔ c = d.toNat.digitChar)) (inst : Word) :
    ∃ k, unrolled step n str ⟨0, 0, 0⟩ = .ok k ∧ (k.test inst = true ↔ Agrees b str (inst.setWidth 64)) := by
  have hscan := h.unrolled_eq hn hstr []
  rw [List.append_nil] at hscan
  refine ⟨_, hscan, ?_⟩
  rw [finished_test hb (by rwa [List.length_map])]
  refine agrees_iff fun c hc => hvalue c ?_
  obtain ⟨hmem, hne⟩ := mem_places hc
  exact (hstr c hmem).resolve_left hne

theorem digitChar_bit (x : BitVec 1) : x.toNat.digitChar = if x.getLsbD 0 then '1' else '0' := by
  revert x
  decide

/-- **A pattern's test succeeds just on the words that have its digits.** -/
theorem pattern_law :
    (∀ str : List Char, (∀ c ∈ str, c = '0' ∨ c = '1' ∨ c = '?' ∨ c = ' ') → str.length ≤ 63 →
      (places str).length ≤ 32 → ∀ inst : Word, ∃ k, patternDecode str = .ok k ∧ (k.test inst = true ↔
        ∀ i c, (places str)[i]? = some c → c = '?' ∨ c = if inst.getLsbD i then '1' else '0')) ∧
    (∀ str : List Char, (∀ c ∈ str, ('0' ≤ c ∧ c ≤ '9') ∨ ('a' ≤ c ∧ c ≤ 'f') ∨ c = '?' ∨ c = ' ') →
      str.length ≤ 15 → ∀ inst : Word, ∃ k, patternDecodeHex str = .ok k ∧ (k.test inst = true ↔
        ∀ i c, (places str)[i]? = some c →
          c = '?' ∨ c = ((inst.setWidth 64).extractLsb' (4 * i) 4).toNat.digitChar)) := by
  constructor
  · intro str hstr hlen hplaces inst
    have hlaw := @Scans.law 1 patternStep binValue _ patternStep_scans Nat.one_pos 64 str (by omega)
      (fun c hc => by have := hstr c hc; tauto) (by omega) ?_ inst
    · obtain ⟨k, hk, htest⟩ := hlaw
      refine ⟨k, (patternLoop_eq 64 str _).trans hk, htest.trans ?_⟩
      refine forall_congr' fun i => forall_congr' fun c => imp_congr_right fun hc => ?_
      have hi : i < 32 := lt_of_lt_of_le (List.getElem?_eq_some_iff.mp hc).1 hplaces
      have hbit : ((inst.setWidth 64).extractLsb' (1 * i) 1).getLsbD 0 = inst.getLsbD i := by
        simp [show i < 64 by omega]
      rw [digitChar_bit, hbit]
    · rintro c (rfl | rfl | rfl)
      · exact .inr ⟨by decide, 0, rfl, by decide⟩
      · exact .inr ⟨by decide, 1, rfl, by decide⟩
      · exact .inl ⟨rfl, rfl⟩
  · intro str hstr hlen inst
    have hplaces := places_length_le str
    refine patternStepHex_scans.law (by omega) (by omega) (fun c hc => by have := hstr c hc; tauto) (by omega) ?_ inst
    intro c hacc
    by_cases hq : c = '?'
    · exact .inl ⟨hq, if_pos hq⟩
    · obtain ⟨-, -, hchar⟩ := hexDigit_spec (by tauto : ('0' ≤ c ∧ c ≤ '9') ∨ ('a' ≤ c ∧ c ≤ 'f'))
      have hinj : ∀ d v : BitVec 4, d = v ↔ v.toNat.digitChar = d.toNat.digitChar := by decide
      refine .inr ⟨hq, _, if_neg hq, fun d => ?_⟩
      rw [hinj, ← hchar]

/-- The law at the lower end of `ebreak`. -/
theorem pattern_law_ebreak :
    (∃ k, patternDecode ['1', '1', '1', '?', '?', ' ', '1', '1'] = .ok k ∧
      (k.test 0x00100073 = true ↔ ∀ i c, (places ['1', '1', '1', '?', '?', ' ', '1', '1'])[i]? = some c →
        c = '?' ∨ c = if (0x00100073 : Word).getLsbD i then '1' else '0')) ∧
    (∃ k, patternDecodeHex ['1', '?', ' ', '7', '3'] = .ok k ∧
      (k.test 0x00100073 = true ↔ ∀ i c, (places ['1', '?', ' ', '7', '3'])[i]? = some c →
        c = '?' ∨ c = (((0x00100073 : Word).setWidth 64).extractLsb' (4 * i) 4).toNat.digitChar)) :=
  ⟨pattern_law.1 _ (by simp) (by simp) (by decide) 0x00100073,
    pattern_law.2 _ (by simp) (by simp) 0x00100073⟩

end Nemu
