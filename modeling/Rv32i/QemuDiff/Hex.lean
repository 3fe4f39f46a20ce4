import Mathlib
import Rv32i.Lib.Bytes

/-!
# The GDB client: hexadecimal digits

`tools/qemu-diff/src/protocol.c`: the digits of bytes, in which commands and replies are written.

* `hexNibble`, `hexEncode`, `gdbDecodeHex`, `gdbDecodeHexStr` — the functions of the client;
* `digits_hexByte`, `digits_hexUpper` — the two digits of a byte are read back, whichever case they have;
* `readBytes`, `readBytes_hexByte` — the bytes that a text of digits is, and the digits of bytes read back;
* `gdbDecodeHexStr_word` — the eight digits of a register are read back, least significant byte first.
-/

namespace QemuDiff

abbrev Byte := BitVec 8

/-- The code of a character. -/
def chr (c : Char) : Byte := BitVec.ofNat 8 c.toNat

/-- The characters of a text. -/
def text (s : String) : List Byte := s.toList.map chr

/-! ## `ctype.h`, in the C locale -/

def isdigit (c : Byte) : Bool := chr '0' ≤ c ∧ c ≤ chr '9'

def isxdigit (c : Byte) : Bool := isdigit c ∨ chr 'a' ≤ c ∧ c ≤ chr 'f' ∨ chr 'A' ≤ c ∧ c ≤ chr 'F'

def tolower (c : Byte) : Byte := if chr 'A' ≤ c ∧ c ≤ chr 'Z' then c + 32 else c

/-! ## The digits -/

def hexNibble (hex : Byte) : Byte := if isdigit hex then hex - chr '0' else tolower hex - chr 'a' + 10

def hexEncode (digit : Byte) : Byte := if digit > 9 then chr 'a' + digit - 10 else chr '0' + digit

/-- `UINT16_MAX` for what is no digit. -/
def gdbDecodeHex (msb lsb : Byte) : BitVec 16 :=
  if ¬ isxdigit msb ∨ ¬ isxdigit lsb then 0xffff
  else 16 * (hexNibble msb).setWidth 16 + (hexNibble lsb).setWidth 16

/-- The loop of `gdb_decode_hex_str`; the list is what is in memory from `bytes` on, and the end of the list is taken for
a character that is no digit. -/
def decodeLoop (value weight : BitVec 64) : List Byte → BitVec 64
  | b0 :: b1 :: rest =>
    if isxdigit b0 ∧ isxdigit b1 then decodeLoop (value + weight * (gdbDecodeHex b0 b1).setWidth 64) (weight * 256) rest
    else value
  | _ => value

def gdbDecodeHexStr (bytes : List Byte) : BitVec 64 := decodeLoop 0 1 bytes

/-! ## Round trips -/

/-- The two digits of a byte, as `sprintf` writes them in `gdb_memcpy_to_qemu_small` and `gdb_setregs`. -/
def hexByte (b : Byte) : List Byte := [hexEncode (b >>> 4), hexEncode (b &&& 0xf)]

/-- The digit of `%X`. -/
def hexUpper (digit : Byte) : Byte := if digit > 9 then chr 'A' + digit - 10 else chr '0' + digit

/-- The characters are the two digits of a byte. -/
def Digits (msb lsb b : Byte) : Prop := gdbDecodeHex msb lsb = b.setWidth 16

/-- A digit in either case is read back. -/
theorem nibble_digit {d : Byte} (h : d.toNat < 16) : (isxdigit (hexEncode d) = true ∧ hexNibble (hexEncode d) = d) ∧
    isxdigit (hexUpper d) = true ∧ hexNibble (hexUpper d) = d := by
  have hall : ∀ n : Fin 16, (isxdigit (hexEncode (BitVec.ofNat 8 n)) = true ∧
      hexNibble (hexEncode (BitVec.ofNat 8 n)) = BitVec.ofNat 8 n) ∧
      isxdigit (hexUpper (BitVec.ofNat 8 n)) = true ∧ hexNibble (hexUpper (BitVec.ofNat 8 n)) = BitVec.ofNat 8 n := by
    decide
  have hd := hall ⟨d.toNat, h⟩
  rwa [BitVec.ofNat_toNat, BitVec.setWidth_eq] at hd

theorem high_lt (b : Byte) : (b >>> 4).toNat < 16 := by
  rw [BitVec.toNat_ushiftRight, Nat.shiftRight_eq_div_pow]
  have := b.isLt
  omega

theorem low_toNat (b : Byte) : (b &&& 0xf).toNat = b.toNat % 16 := by
  rw [BitVec.toNat_and]
  exact Nat.and_two_pow_sub_one_eq_mod b.toNat 4

/-- Two characters that are the digits of the halves of a byte. -/
theorem digits_of_nibbles {msb lsb b : Byte} (hm : isxdigit msb = true ∧ hexNibble msb = b >>> 4)
    (hl : isxdigit lsb = true ∧ hexNibble lsb = b &&& 0xf) : Digits msb lsb b := by
  unfold Digits gdbDecodeHex
  rw [if_neg (by rw [hm.1, hl.1]; decide), hm.2, hl.2]
  apply BitVec.eq_of_toNat_eq
  rw [BitVec.toNat_add, BitVec.toNat_mul, BitVec.toNat_setWidth, BitVec.toNat_setWidth, BitVec.toNat_setWidth, low_toNat,
    BitVec.toNat_ushiftRight, Nat.shiftRight_eq_div_pow, show (16 : BitVec 16).toNat = 16 from rfl]
  have := b.isLt
  omega

theorem low_lt (b : Byte) : (b &&& 0xf).toNat < 16 := by
  rw [low_toNat]
  omega

/-- **The digits of a byte are read back.** -/
theorem digits_hexByte (b : Byte) : Digits (hexEncode (b >>> 4)) (hexEncode (b &&& 0xf)) b :=
  digits_of_nibbles (nibble_digit (high_lt b)).1 (nibble_digit (low_lt b)).1

theorem digits_hexUpper (b : Byte) : Digits (hexUpper (b >>> 4)) (hexUpper (b &&& 0xf)) b :=
  digits_of_nibbles (nibble_digit (high_lt b)).2 (nibble_digit (low_lt b)).2

/-- The number that bytes are, the first the least significant. -/
def leSum : List Byte → BitVec 64
  | [] => 0
  | b :: rest => b.setWidth 64 + 256 * leSum rest

/-- The string ends here for `gdb_decode_hex_str`. -/
def NoDigits : List Byte → Prop
  | b0 :: b1 :: _ => ¬ (isxdigit b0 = true ∧ isxdigit b1 = true)
  | _ => True

/-- Pairs of digits to the end. -/
def readBytes : List Byte → Option (List Byte)
  | [] => some []
  | [_] => none
  | msb :: lsb :: rest =>
    if isxdigit msb ∧ isxdigit lsb then (readBytes rest).map ((16 * hexNibble msb + hexNibble lsb) :: ·) else none

theorem readBytes_cons {msb lsb : Byte} {rest bytes : List Byte} (h : readBytes (msb :: lsb :: rest) = some bytes) :
    (isxdigit msb = true ∧ isxdigit lsb = true) ∧
      ∃ bytes', readBytes rest = some bytes' ∧ bytes = (16 * hexNibble msb + hexNibble lsb) :: bytes' := by
  rw [readBytes] at h
  split at h
  next hdigits =>
    obtain ⟨bytes', hrest, heq⟩ := Option.map_eq_some_iff.mp h
    exact ⟨hdigits, bytes', hrest, heq.symm⟩
  next => cases h

theorem readBytes_hexByte (data : List Byte) : readBytes (data.flatMap hexByte) = some data := by
  induction data with
  | nil => rfl
  | cons b data ih =>
    obtain ⟨hm, hm'⟩ := (nibble_digit (high_lt b)).1
    obtain ⟨hl, hl'⟩ := (nibble_digit (low_lt b)).1
    have hb : (16 : Byte) * (b >>> 4) + (b &&& 0xf) = b := by
      have hlt := b.isLt
      apply BitVec.eq_of_toNat_eq
      rw [BitVec.toNat_add, BitVec.toNat_mul, low_toNat, BitVec.toNat_ushiftRight, Nat.shiftRight_eq_div_pow,
        show (16 : Byte).toNat = 16 from rfl]
      omega
    show readBytes (hexEncode (b >>> 4) :: hexEncode (b &&& 0xf) :: data.flatMap hexByte) = _
    rw [readBytes, if_pos ⟨hm, hl⟩, ih, hm', hl', hb]
    rfl

/-- Two digits for each byte. -/
theorem readBytes_length : ∀ {digits bytes : List Byte}, readBytes digits = some bytes →
    digits.length = 2 * bytes.length
  | [], _, h => by
    cases h
    rfl
  | [_], _, h => by cases h
  | msb :: lsb :: rest, _, h => by
    obtain ⟨-, bytes', hrest, rfl⟩ := readBytes_cons h
    rw [List.length_cons, List.length_cons, List.length_cons, readBytes_length hrest]
    omega

/-- The digits behind the first `k` bytes are those of the other bytes. -/
theorem readBytes_drop (k : ℕ) : ∀ {digits bytes : List Byte}, readBytes digits = some bytes →
    readBytes (digits.drop (2 * k)) = some (bytes.drop k) := by
  induction k with
  | zero => exact id
  | succ k ih =>
    intro digits bytes h
    match digits with
    | [] =>
      cases h
      rfl
    | [_] => cases h
    | msb :: lsb :: rest =>
      obtain ⟨-, bytes', hrest, rfl⟩ := readBytes_cons h
      exact ih hrest

/-- The digits of the first `k` bytes. -/
theorem readBytes_take (k : ℕ) : ∀ {digits bytes : List Byte}, readBytes digits = some bytes →
    readBytes (digits.take (2 * k)) = some (bytes.take k) := by
  induction k with
  | zero => exact fun _ => rfl
  | succ k ih =>
    intro digits bytes h
    match digits with
    | [] =>
      cases h
      rfl
    | [_] => cases h
    | msb :: lsb :: rest =>
      obtain ⟨hdigits, bytes', hrest, rfl⟩ := readBytes_cons h
      show readBytes (msb :: lsb :: rest.take (2 * k)) = _
      rw [readBytes, if_pos hdigits, ih hrest]
      rfl

theorem hexNibble_lt {c : Byte} (h : isxdigit c = true) : (hexNibble c).toNat < 16 := by
  have hall : ∀ n : Fin 256, isxdigit (BitVec.ofNat 8 n) = true → (hexNibble (BitVec.ofNat 8 n)).toNat < 16 := by
    decide +kernel
  have hc := hall ⟨c.toNat, c.isLt⟩
  rw [BitVec.ofNat_toNat, BitVec.setWidth_eq] at hc
  exact hc h

theorem gdbDecodeHex_digits {msb lsb : Byte} (hm : isxdigit msb = true) (hl : isxdigit lsb = true) :
    (gdbDecodeHex msb lsb).setWidth 64 = (16 * hexNibble msb + hexNibble lsb).setWidth 64 := by
  have hm' := hexNibble_lt hm
  have hl' := hexNibble_lt hl
  unfold gdbDecodeHex
  rw [if_neg (by rw [hm, hl]; decide)]
  apply BitVec.eq_of_toNat_eq
  simp only [BitVec.toNat_setWidth, BitVec.toNat_add, BitVec.toNat_mul, show (16 : BitVec 16).toNat = 16 from rfl,
    show (16 : Byte).toNat = 16 from rfl]
  omega

/-- **Digits are decoded as the bytes they are.** -/
theorem decodeLoop_bytes {tail : List Byte} (htail : NoDigits tail) (bytes : List Byte) : ∀ {digits : List Byte},
    readBytes digits = some bytes → ∀ value weight,
      decodeLoop value weight (digits ++ tail) = value + weight * leSum bytes := by
  induction bytes with
  | nil =>
    intro digits h value weight
    have hend : decodeLoop value weight tail = value := by
      match tail, htail with
      | [], _ => rfl
      | [_], _ => rfl
      | b0 :: b1 :: rest, htail => exact if_neg htail
    have hnil : digits = [] := List.length_eq_zero_iff.mp (readBytes_length h)
    rw [hnil, List.nil_append, hend, leSum, mul_zero, add_zero]
  | cons b bytes ih =>
    intro digits h value weight
    match digits with
    | [] => cases h
    | [_] => cases h
    | msb :: lsb :: rest =>
      obtain ⟨hdigits, bytes', hrest, heq⟩ := readBytes_cons h
      cases heq
      show decodeLoop value weight (msb :: lsb :: (rest ++ tail)) = _
      unfold decodeLoop
      rw [if_pos hdigits, ih hrest, gdbDecodeHex_digits hdigits.1 hdigits.2, leSum]
      ring

/-- The bytes of a register in memory. -/
def wordBytes (v : BitVec 32) : List Byte := (List.range 4).map (Bytes.byte v)

theorem leSum_wordBytes (v : BitVec 32) : leSum (wordBytes v) = v.setWidth 64 := by
  have hsum : leSum (wordBytes v) = (Bytes.byte v 0).setWidth 64 + 256 * ((Bytes.byte v 1).setWidth 64 +
      256 * ((Bytes.byte v 2).setWidth 64 + 256 * ((Bytes.byte v 3).setWidth 64 + 256 * 0))) := rfl
  have hv := v.isLt
  rw [hsum]
  apply BitVec.eq_of_toNat_eq
  simp only [BitVec.toNat_add, BitVec.toNat_mul, BitVec.toNat_setWidth, Bytes.byte_toNat,
    show (256 : BitVec 64).toNat = 256 from rfl, show (0 : BitVec 64).toNat = 0 from rfl]
  omega

/-- **The digits of a register are read back.** -/
theorem gdbDecodeHexStr_word {v : BitVec 32} {digits tail : List Byte} (h : readBytes digits = some (wordBytes v))
    (htail : NoDigits tail) : gdbDecodeHexStr (digits ++ tail) = v.setWidth 64 := by
  unfold gdbDecodeHexStr
  rw [decodeLoop_bytes htail _ h, leSum_wordBytes, zero_add, one_mul]

end QemuDiff
