import Mathlib.Data.List.Basic
import Mathlib.Tactic

/-!
# Keys

The keys of `AM_KEYS` (`amdev.h`), which are those of `NEMU_KEYS` (`nemu/src/device/keyboard.c`): their codes, the map
from the scancodes of SDL, and the bit that tells a key that went down.
-/

namespace Keys

abbrev Word := BitVec 32

/-- The keys, in the order of the list. -/
inductive Key
  | escape | f1 | f2 | f3 | f4 | f5 | f6 | f7 | f8 | f9 | f10 | f11 | f12
  | grave | n1 | n2 | n3 | n4 | n5 | n6 | n7 | n8 | n9 | n0 | minus | equals | backspace
  | tab | q | w | e | r | t | y | u | i | o | p | leftbracket | rightbracket | backslash
  | capslock | a | s | d | f | g | h | j | k | l | semicolon | apostrophe | «return»
  | lshift | z | x | c | v | b | n | m | comma | period | slash | rshift
  | lctrl | application | lalt | space | ralt | rctrl
  | up | down | left | right | insert | delete | home | «end» | pageup | pagedown
  deriving DecidableEq

def Key.all : List Key :=
  [.escape, .f1, .f2, .f3, .f4, .f5, .f6, .f7, .f8, .f9, .f10, .f11, .f12,
    .grave, .n1, .n2, .n3, .n4, .n5, .n6, .n7, .n8, .n9, .n0, .minus, .equals, .backspace,
    .tab, .q, .w, .e, .r, .t, .y, .u, .i, .o, .p, .leftbracket, .rightbracket, .backslash,
    .capslock, .a, .s, .d, .f, .g, .h, .j, .k, .l, .semicolon, .apostrophe, .return,
    .lshift, .z, .x, .c, .v, .b, .n, .m, .comma, .period, .slash, .rshift,
    .lctrl, .application, .lalt, .space, .ralt, .rctrl,
    .up, .down, .left, .right, .insert, .delete, .home, .end, .pageup, .pagedown]

/-- `AM_KEY_NONE`, `NEMU_KEY_NONE` -/
def keyNone : Word := 0

/-- `AM_KEY_k`, `NEMU_KEY_k`: the enumeration goes on behind `KEY_NONE`. -/
def Key.code (key : Key) : Word := BitVec.ofNat 32 (Key.all.idxOf key + 1)

def keydownMask : Word := 0x8000

/-- `keymap[SDL_SCANCODE_k] = KEY_k`, for all keys in turn. -/
def keymap (scancode : Key → Fin 256) : Vector Word 256 :=
  Key.all.foldl (fun map key => map.set (scancode key) key.code) (Vector.replicate 256 keyNone)

/-- `keymap[scancode] | (keydown ? KEYDOWN_MASK : 0)` -/
def keyEvent (code : Word) (keydown : Bool) : Word := code ||| if keydown then keydownMask else 0

/-! ## Codes -/

theorem code_toNat (key : Key) : 0 < key.code.toNat ∧ key.code.toNat ≤ 82 := by
  have hidx : Key.all.idxOf key ≤ 81 := by
    cases key <;> decide
  rw [Key.code, BitVec.toNat_ofNat]
  omega

/-- **An entry of the map** is none, or the code of a key. -/
theorem keymap_entry (scancode : Key → Fin 256) {i : ℕ} (hi : i < 256) :
    (keymap scancode)[i] = keyNone ∨ ∃ key : Key, (keymap scancode)[i] = key.code := by
  have hfold : ∀ (ks : List Key) (map : Vector Word 256), (map[i] = keyNone ∨ ∃ key : Key, map[i] = key.code) →
      (ks.foldl (fun map key => map.set (scancode key) key.code) map)[i] = keyNone ∨
        ∃ key : Key, (ks.foldl (fun map key => map.set (scancode key) key.code) map)[i] = key.code := by
    intro ks
    induction ks with
    | nil => exact fun _ h => h
    | cons key ks ih =>
      intro map h
      refine ih _ ?_
      rw [Vector.getElem_set]
      by_cases hk : (scancode key : ℕ) = i
      · rw [if_pos hk]
        exact .inr ⟨key, rfl⟩
      · rw [if_neg hk]
        exact h
  exact hfold _ _ (.inl (Vector.getElem_replicate hi))

theorem keymap_lt (scancode : Key → Fin 256) {i : ℕ} (hi : i < 256) : (keymap scancode)[i].toNat < 2 ^ 15 := by
  obtain h | ⟨key, h⟩ := keymap_entry scancode hi
  · rw [h]
    decide
  · rw [h]
    have := (code_toNat key).2
    omega

section Event

variable {code : Word} (keydown : Bool)

theorem keydownMask_eq : keydownMask = BitVec.twoPow 32 15 := by decide

theorem getLsbD_of_lt (h : code.toNat < 2 ^ 15) {i : ℕ} (hi : 15 ≤ i) : code.getLsbD i = false := by
  rw [← BitVec.testBit_toNat]
  exact Nat.testBit_lt_two_pow (h.trans_le (Nat.pow_le_pow_right (by decide) hi))

theorem getLsbD_keyEvent (i : ℕ) :
    (keyEvent code keydown).getLsbD i = (code.getLsbD i || (keydown && decide (i = 15))) := by
  unfold keyEvent
  rw [BitVec.getLsbD_or]
  cases keydown with
  | false => simp
  | true =>
    rw [keydownMask_eq]
    simp only [if_true, BitVec.getLsbD_twoPow, Bool.true_and]
    by_cases h : i = 15
    · simp [h]
    · simp [h, Ne.symm h]

/-- **The code and the bit can be told apart.** -/
theorem keyEvent_code (h : code.toNat < 2 ^ 15) : keyEvent code keydown &&& ~~~keydownMask = code := by
  apply BitVec.eq_of_getLsbD_eq
  intro i hi
  rw [BitVec.getLsbD_and, getLsbD_keyEvent, BitVec.getLsbD_not, keydownMask_eq, BitVec.getLsbD_twoPow]
  by_cases h15 : i = 15
  · rw [h15, getLsbD_of_lt h le_rfl]
    simp
  · simp [hi, h15, Ne.symm h15]

theorem keyEvent_keydown (h : code.toNat < 2 ^ 15) : (keyEvent code keydown &&& keydownMask ≠ 0) ↔ keydown = true := by
  have hbit : (keyEvent code keydown &&& keydownMask).getLsbD 15 = keydown := by
    rw [BitVec.getLsbD_and, getLsbD_keyEvent, getLsbD_of_lt h le_rfl, keydownMask_eq, BitVec.getLsbD_twoPow]
    simp
  constructor
  · intro hne
    by_contra hk
    refine hne (BitVec.eq_of_getLsbD_eq fun i hi => ?_)
    rw [BitVec.getLsbD_and, getLsbD_keyEvent, keydownMask_eq, BitVec.getLsbD_twoPow]
    show _ = (0#32).getLsbD i
    rw [BitVec.getLsbD_zero]
    by_cases h15 : i = 15
    · rw [h15, getLsbD_of_lt h le_rfl, Bool.eq_false_iff.mpr hk]
      rfl
    · simp [Ne.symm h15]
  · intro hk hz
    rw [hz, hk] at hbit
    cases hbit

theorem keyEvent_ne_none (hcode : code ≠ keyNone) : keyEvent code keydown ≠ keyNone := by
  intro h
  refine hcode (BitVec.eq_of_getLsbD_eq fun i _ => ?_)
  have hbit : (keyEvent code keydown).getLsbD i = (0#32).getLsbD i := congrArg (·.getLsbD i) h
  rw [getLsbD_keyEvent, BitVec.getLsbD_zero, Bool.or_eq_false_iff] at hbit
  exact hbit.1.trans BitVec.getLsbD_zero.symm

end Event

end Keys
