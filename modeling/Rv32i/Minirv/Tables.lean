import Rv32i.Lib.ByteShift
import Rv32i.Lib.Chunks
import Rv32i.Minirv.Stack

/-!
# minirv: the lookup tables

The tables of `inst-replace.h` and the file that `gen-lut.c` writes.

* `lutBin` — that file, table after table, with `lut_and8`, …: what it holds at the offsets that `inst-replace.h`
  computes;
* `Symbols` — where the linker puts the tables, and `Ready`: they hold their contents, away from the red zone;
* `Ready.lookup` — a lookup gives the content.
-/

namespace Minirv

open Rv32 Bytes

/-! ## Contents -/

def sameResultTable : List Byte := [1, 0, 0, 0, 0, 0, 0, 0]
def check8bit0Table : List Byte := 0 :: List.replicate 255 1
def slt1Table : List Byte := [0, 1, 0, 0, 1, 1, 0, 1]
def sltu1Table : List Byte := [0, 1, 1, 1, 0, 0, 0, 1]
def or1Table : List Byte := [0, 1, 1, 1]

/-- One entry of a row: `fwrite` of the low bytes of `res`. -/
def genEntry (entrySize : ℕ) (res : Word) : List Byte := (List.range entrySize).map (byte res)

/-- `gen_table`. -/
def genTable (row col entrySize : ℕ) (expr : Word → Word → Word) : List Byte :=
  (List.range row).flatMap fun j => (List.range col).flatMap fun i =>
    genEntry entrySize (expr (BitVec.ofNat 32 j) (BitVec.ofNat 32 i))

/-- `lut.bin`, the file that `gen-lut.c` writes. -/
def lutBin : List Byte :=
  genTable 256 256 1 (fun j i => j &&& i) ++
  genTable 256 256 1 (fun j i => j ||| i) ++
  genTable 256 256 1 (fun j i => j ^^^ i) ++
  genTable 32 256 4 (fun j i => i <<< j.toNat) ++
  genTable 32 256 4 (fun j i => (i <<< 24) >>> j.toNat) ++
  genTable 32 256 4 (fun j i => (i <<< 24).sshiftRight j.toNat)

theorem length_genTable (row col entrySize : ℕ) (expr : Word → Word → Word) :
    (genTable row col entrySize expr).length = row * (col * entrySize) := by
  unfold genTable
  rw [Chunks.length_flatMap fun j _ => Chunks.length_flatMap fun i _ => ?_, List.length_range, List.length_range]
  simp [genEntry]

/-- **Byte `k` of the entry in row `j` and column `i`.** -/
theorem genTable_getElem? {row col entrySize i j k : ℕ} (expr : Word → Word → Word) (hj : j < row) (hi : i < col)
    (hk : k < entrySize) : (genTable row col entrySize expr)[j * (col * entrySize) + (i * entrySize + k)]? =
      some (byte (expr (BitVec.ofNat 32 j) (BitVec.ofNat 32 i)) k) := by
  have hentry : ∀ i, (genEntry entrySize (expr (BitVec.ofNat 32 j) (BitVec.ofNat 32 i))).length = entrySize := by
    simp [genEntry]
  have hrow : i * entrySize + k < col * entrySize := by
    calc i * entrySize + k < i * entrySize + entrySize := by omega
      _ = (i + 1) * entrySize := by ring
      _ ≤ col * entrySize := Nat.mul_le_mul_right _ hi
  unfold genTable
  rw [Chunks.getElem?_flatMap_range (fun j => ?_) hj hrow, Chunks.getElem?_flatMap_range hentry hi hk]
  · simp [genEntry, hk]
  · rw [Chunks.length_flatMap fun i _ => ?_, List.length_range]
    simp [genEntry]

/-- The three tables of bytes, one after another: row `j` and column `i` of table `t`. -/
theorem lutBin_logic (j i : Byte) :
    lutBin[j.toNat * 256 + i.toNat]? = some (j &&& i) ∧
    lutBin[256 * 256 + (j.toNat * 256 + i.toNat)]? = some (j ||| i) ∧
    lutBin[256 * 256 + (256 * 256 + (j.toNat * 256 + i.toNat))]? = some (j ^^^ i) := by
  have hj := j.isLt
  have hi := i.isLt
  have hlen : ∀ expr, (genTable 256 256 1 expr).length = 256 * 256 := fun expr => length_genTable 256 256 1 expr
  have hentry : ∀ expr : Word → Word → Word, (genTable 256 256 1 expr)[j.toNat * 256 + i.toNat]? =
      some (byte (expr (j.setWidth 32) (i.setWidth 32)) 0) := by
    intro expr
    have h := genTable_getElem? expr hj hi (show 0 < 1 by omega)
    simpa only [Nat.mul_one, Nat.add_zero, BitVec.ofNat_toNat] using h
  unfold lutBin
  simp only [List.append_assoc]
  refine ⟨?_, ?_, ?_⟩
  · rw [List.getElem?_append_left (by rw [hlen]; omega), hentry, ← BitVec.setWidth_and, byte_setWidth]
  · rw [List.getElem?_append_right (by rw [hlen]; omega), hlen, Nat.add_sub_cancel_left,
      List.getElem?_append_left (by rw [hlen]; omega), hentry, ← BitVec.setWidth_or, byte_setWidth]
  · rw [List.getElem?_append_right (by rw [hlen]; omega), hlen, Nat.add_sub_cancel_left,
      List.getElem?_append_right (by rw [hlen]; omega), hlen, Nat.add_sub_cancel_left,
      List.getElem?_append_left (by rw [hlen]; omega), hentry, ← BitVec.setWidth_xor, byte_setWidth]

/-- The three tables of words behind them: byte `k` of the entry in row `a` and column `i`. -/
theorem lutBin_shift {a k : ℕ} (ha : a < 32) (i : Byte) (hk : k < 4) :
    lutBin[3 * 65536 + (a * 1024 + (i.toNat * 4 + k))]? = some (byte (left i a) k) ∧
    lutBin[3 * 65536 + 32768 + (a * 1024 + (i.toNat * 4 + k))]? = some (byte (right i a) k) ∧
    lutBin[3 * 65536 + 2 * 32768 + (a * 1024 + (i.toNat * 4 + k))]? = some (byte (rightArith i a) k) := by
  have hi := i.isLt
  have hlen1 : ∀ expr, (genTable 256 256 1 expr).length = 65536 := fun expr => length_genTable 256 256 1 expr
  have hlen4 : ∀ expr, (genTable 32 256 4 expr).length = 32768 := fun expr => length_genTable 32 256 4 expr
  have hskip : ∀ {l l' : List Byte} {m n : ℕ}, l.length = m → m ≤ n → (l ++ l')[n]? = l'[n - m]? := by
    rintro l l' m n rfl hn
    exact List.getElem?_append_right hn
  have hentry : ∀ expr : Word → Word → Word, (genTable 32 256 4 expr)[a * 1024 + (i.toNat * 4 + k)]? =
      some (byte (expr (BitVec.ofNat 32 a) (i.setWidth 32)) k) := by
    intro expr
    have h := genTable_getElem? expr ha hi hk
    simpa only [BitVec.ofNat_toNat] using h
  have hrow : (BitVec.ofNat 32 a).toNat = a := by
    rw [BitVec.toNat_ofNat]
    omega
  unfold lutBin
  simp only [List.append_assoc]
  refine ⟨?_, ?_, ?_⟩
  · rw [hskip (hlen1 _) (by omega), hskip (hlen1 _) (by omega), hskip (hlen1 _) (by omega),
      List.getElem?_append_left (by rw [hlen4]; omega),
      show 3 * 65536 + (a * 1024 + (i.toNat * 4 + k)) - 65536 - 65536 - 65536 = a * 1024 + (i.toNat * 4 + k) by omega,
      hentry, hrow]
    rfl
  · rw [hskip (hlen1 _) (by omega), hskip (hlen1 _) (by omega), hskip (hlen1 _) (by omega), hskip (hlen4 _) (by omega),
      List.getElem?_append_left (by rw [hlen4]; omega),
      show 3 * 65536 + 32768 + (a * 1024 + (i.toNat * 4 + k)) - 65536 - 65536 - 65536 - 32768 =
        a * 1024 + (i.toNat * 4 + k) by omega, hentry, hrow]
    rfl
  · rw [hskip (hlen1 _) (by omega), hskip (hlen1 _) (by omega), hskip (hlen1 _) (by omega), hskip (hlen4 _) (by omega),
      hskip (hlen4 _) (by omega),
      show 3 * 65536 + 2 * 32768 + (a * 1024 + (i.toNat * 4 + k)) - 65536 - 65536 - 65536 - 32768 - 32768 =
        a * 1024 + (i.toNat * 4 + k) by omega, hentry, hrow]
    rfl

/-! ## Symbols -/

/-- The addresses that the linker gives to the symbols of `inst-replace.h`. -/
structure Symbols where
  sameResultTable : Word
  check8bit0Table : Word
  slt1Table : Word
  sltu1Table : Word
  or1Table : Word
  logicShiftTable : Word
  checkSameArray : Word

namespace Symbols

variable (L : Symbols)

def and8Table : Word := L.logicShiftTable
def or8Table : Word := L.and8Table + 256 * 256
def xor8Table : Word := L.or8Table + 256 * 256
def sll8Table : Word := L.xor8Table + 256 * 256
def srl8Table : Word := L.sll8Table + 32 * 256 * 4
def sra8Table : Word := L.srl8Table + 32 * 256 * 4

/-- The last row of `_xor8_table`. -/
def xor8LastRow : Word := L.xor8Table + (0xff : Word) <<< 8

/-- The read-only tables with their contents. -/
def rodata : List (Word × List Byte) :=
  [(L.sameResultTable, Minirv.sameResultTable), (L.check8bit0Table, Minirv.check8bit0Table),
    (L.slt1Table, Minirv.slt1Table), (L.sltu1Table, Minirv.sltu1Table), (L.or1Table, Minirv.or1Table),
    (L.logicShiftTable, lutBin)]

/-- `_check_same_array`. -/
def array : Region 32 := ⟨L.checkSameArray, 256⟩

end Symbols

/-- The tables hold their declared contents. -/
def Loaded (L : Symbols) (m : Word → Byte) : Prop :=
  ∀ t ∈ L.rodata, ∀ k b, t.2[k]? = some b → m (t.1 + BitVec.ofNat 32 k) = b

/-- What the macros rely on: the tables are loaded, and none of their bytes is in the red zone below `sp`. -/
structure Ready (L : Symbols) (s : Machine) : Prop where
  loaded : Loaded L s.mem
  unused : ∀ t ∈ L.rodata, ∀ k < t.2.length, ¬ (redZone (s.regs.x sp)).Contains (t.1 + BitVec.ofNat 32 k)

/-- The bytes of `_check_same_array` are its own: they are neither in the red zone below `p` nor in a table. -/
structure ArrayApart (L : Symbols) (p : Word) : Prop where
  unused : ∀ q, L.array.Contains q → ¬ (redZone p).Contains q
  tables : ∀ t ∈ L.rodata, ∀ k < t.2.length, ¬ L.array.Contains (t.1 + BitVec.ofNat 32 k)

/-- The bytes of `_check_same_array`. -/
def arrayCells (L : Symbols) : Set Cell
  | .reg _ => False
  | .byte q => L.array.Contains q

@[simp] theorem reg_not_mem_arrayCells (L : Symbols) (r : RegIdx) : .reg r ∉ arrayCells L := id

namespace Ready

variable {L : Symbols} {s s' : Machine} {K : Set Cell} {rs : List RegIdx} {ns : List ℕ}

/-- **A lookup gives the content of the table.** -/
theorem lookup (h : Ready L s) {t : Word × List Byte} (ht : t ∈ L.rodata) {k : ℕ} {b : Byte} (hb : t.2[k]? = some b) :
    s.mem (t.1 + BitVec.ofNat 32 k) = b := h.loaded t ht k b hb

/-- The last row of `_xor8_table` complements. -/
theorem lookup_not (h : Ready L s) (b : Byte) : s.mem (b.setWidth 32 + L.xor8LastRow) = ~~~b := by
  have hxor : (255 : Byte) ^^^ b = ~~~b := BitVec.allOnes_xor
  have hb := h.lookup (t := (L.logicShiftTable, lutBin)) (by simp [Symbols.rodata]) (lutBin_logic 255 b).2.2
  have hlt := b.isLt
  have haddr : b.setWidth 32 + L.xor8LastRow =
      L.logicShiftTable + BitVec.ofNat 32 (256 * 256 + (256 * 256 + ((255 : Byte).toNat * 256 + b.toNat))) := by
    have hoffset : BitVec.ofNat 32 (256 * 256 + (256 * 256 + ((255 : Byte).toNat * 256 + b.toNat))) =
        256 * 256 + (256 * 256 + ((0xff : Word) <<< 8 + b.setWidth 32)) := by
      rw [BitVec.ofNat_add, BitVec.ofNat_add, BitVec.ofNat_add, BitVec.ofNat_toNat]
      rfl
    rw [hoffset]
    unfold Symbols.xor8LastRow Symbols.xor8Table Symbols.or8Table Symbols.and8Table
    ring
  rw [haddr, hb, hxor]

/-- The row of `_and8_table` for amounts keeps the low five bits. -/
theorem lookup_and (h : Ready L s) (b : Byte) :
    s.mem (b.setWidth 32 + (L.and8Table + (0x1f : Word) <<< 8)) = 0x1f &&& b := by
  have hb := h.lookup (t := (L.logicShiftTable, lutBin)) (by simp [Symbols.rodata]) (lutBin_logic 0x1f b).1
  have haddr : b.setWidth 32 + (L.and8Table + (0x1f : Word) <<< 8) =
      L.logicShiftTable + BitVec.ofNat 32 ((0x1f : Byte).toNat * 256 + b.toNat) := by
    rw [BitVec.ofNat_add, BitVec.ofNat_toNat, BitVec.add_comm, BitVec.add_assoc]
    rfl
  rw [haddr, hb]

/-- **The entries of the shift tables.** -/
theorem lookup_shift (h : Ready L s) {a : ℕ} (ha : a < 32) (b : Byte) :
    loadBytes s.mem (L.sll8Table + BitVec.ofNat 32 (a * 1024) + BitVec.ofNat 32 (b.toNat * 4)) .word = left b a ∧
    loadBytes s.mem (L.srl8Table + BitVec.ofNat 32 (a * 1024) + BitVec.ofNat 32 (b.toNat * 4)) .word = right b a ∧
    loadBytes s.mem (L.sra8Table + BitVec.ofNat 32 (a * 1024) + BitVec.ofNat 32 (b.toNat * 4)) .word =
      rightArith b a := by
  have hword : ∀ {o : ℕ} {v : Word}, (∀ k < 4, lutBin[o + (a * 1024 + (b.toNat * 4 + k))]? = some (byte v k)) →
      loadBytes s.mem (L.logicShiftTable + BitVec.ofNat 32 o + BitVec.ofNat 32 (a * 1024) +
        BitVec.ofNat 32 (b.toNat * 4)) .word = v := by
    intro o v hv
    rw [loadBytes_word, ← ofBytes_byte v]
    refine ofBytes_congr fun k hk => ?_
    have hb := h.lookup (t := (L.logicShiftTable, lutBin)) (by simp [Symbols.rodata]) (hv k hk)
    rwa [BitVec.ofNat_add, BitVec.ofNat_add, BitVec.ofNat_add, ← BitVec.add_assoc, ← BitVec.add_assoc,
      ← BitVec.add_assoc] at hb
  have hoffset : L.sll8Table = L.logicShiftTable + BitVec.ofNat 32 (3 * 65536) ∧
      L.srl8Table = L.logicShiftTable + BitVec.ofNat 32 (3 * 65536 + 32768) ∧
      L.sra8Table = L.logicShiftTable + BitVec.ofNat 32 (3 * 65536 + 2 * 32768) := by
    unfold Symbols.sra8Table Symbols.srl8Table Symbols.sll8Table Symbols.xor8Table Symbols.or8Table Symbols.and8Table
    refine ⟨?_, ?_, ?_⟩ <;> simp only [BitVec.add_assoc] <;> rfl
  obtain ⟨hsll, hsrl, hsra⟩ := hoffset
  rw [hsll, hsrl, hsra]
  exact ⟨hword fun k hk => (lutBin_shift ha b hk).1, hword fun k hk => (lutBin_shift ha b hk).2.1,
    hword fun k hk => (lutBin_shift ha b hk).2.2⟩

/-- The tables stay where code that writes none of their bytes is executed. -/
theorem of_keeps (h : Ready L s) (hk : Keeps K s s') (hsp : .reg sp ∉ K)
    (hK : ∀ t ∈ L.rodata, ∀ k < t.2.length, .byte (t.1 + BitVec.ofNat 32 k) ∉ K) : Ready L s' where
  loaded t ht k b hb := by
    have hlt : k < t.2.length := (List.getElem?_eq_some_iff.mp hb).1
    rw [hk.mem (hK t ht k hlt)]
    exact h.loaded t ht k b hb
  unused := by
    rw [hk.x hsp]
    exact h.unused

theorem touch (h : Ready L s) (hk : Keeps (Touch (s.regs.x sp) rs ns) s s') (hsp : sp ∉ rs) (hns : ∀ n ∈ ns, 1 ≤ n) :
    Ready L s' :=
  h.of_keeps hk hsp fun t ht k hlt => not_byte_mem_touch hns (h.unused t ht k hlt)

end Ready

/-! ## A linked program -/

/-- Symbols as a linker may place them. -/
def Symbols.sample : Symbols where
  sameResultTable := 0x1000
  check8bit0Table := 0x1100
  slt1Table := 0x1200
  sltu1Table := 0x1208
  or1Table := 0x1210
  logicShiftTable := 0x2000
  checkSameArray := 0x100000

/-- The byte at an address of the linked program. -/
def Symbols.sampleByte (k : ℕ) : Byte :=
  if k < 0x1100 then Minirv.sameResultTable.getD (k - 0x1000) 0
  else if k < 0x1200 then Minirv.check8bit0Table.getD (k - 0x1100) 0
  else if k < 0x1208 then Minirv.slt1Table.getD (k - 0x1200) 0
  else if k < 0x1210 then Minirv.sltu1Table.getD (k - 0x1208) 0
  else if k < 0x2000 then Minirv.or1Table.getD (k - 0x1210) 0
  else lutBin.getD (k - 0x2000) 0

/-- The linked program with `sp` at `0x200000` and `v` in every other register. -/
def sampleMachine (v : Word) : Machine where
  regs := ⟨fun r => if r = 0 then 0 else if r = sp then 0x200000 else v, rfl⟩
  pc := 0x80000000
  mem q := Symbols.sampleByte q.toNat

theorem length_lutBin : lutBin.length = 294912 := by
  unfold lutBin
  simp only [List.length_append, length_genTable]

theorem length_check8bit0Table : check8bit0Table.length = 256 := by
  rw [check8bit0Table, List.length_cons, List.length_replicate]

/-- Every byte of a table of the program is at its address, below the array. -/
theorem Symbols.sample_table {t : Word × List Byte} (ht : t ∈ Symbols.sample.rodata) {k : ℕ} {b : Byte}
    (h : t.2[k]? = some b) : t.1.toNat + k < 0x100000 ∧ Symbols.sampleByte (t.1.toNat + k) = b := by
  have hget : ∀ (l : List Byte) n, l[k]? = some b → n = k → l.getD n 0 = b := by
    rintro l n h rfl
    rw [List.getD_eq_getElem?_getD, h]
    rfl
  have hlt : ∀ (l : List Byte), l[k]? = some b → k < l.length := fun l h => (List.getElem?_eq_some_iff.mp h).1
  simp only [Symbols.rodata, List.mem_cons, List.not_mem_nil, or_false] at ht
  rcases ht with rfl | rfl | rfl | rfl | rfl | rfl
  · have hk : k < 8 := hlt Minirv.sameResultTable h
    show 0x1000 + k < 0x100000 ∧ Symbols.sampleByte (0x1000 + k) = b
    rw [Symbols.sampleByte, if_pos (by omega)]
    exact ⟨by omega, hget _ _ h (by omega)⟩
  · have hk := hlt Minirv.check8bit0Table h
    rw [length_check8bit0Table] at hk
    show 0x1100 + k < 0x100000 ∧ Symbols.sampleByte (0x1100 + k) = b
    rw [Symbols.sampleByte, if_neg (by omega), if_pos (by omega)]
    exact ⟨by omega, hget _ _ h (by omega)⟩
  · have hk : k < 8 := hlt Minirv.slt1Table h
    show 0x1200 + k < 0x100000 ∧ Symbols.sampleByte (0x1200 + k) = b
    rw [Symbols.sampleByte, if_neg (by omega), if_neg (by omega), if_pos (by omega)]
    exact ⟨by omega, hget _ _ h (by omega)⟩
  · have hk : k < 8 := hlt Minirv.sltu1Table h
    show 0x1208 + k < 0x100000 ∧ Symbols.sampleByte (0x1208 + k) = b
    rw [Symbols.sampleByte, if_neg (by omega), if_neg (by omega), if_neg (by omega), if_pos (by omega)]
    exact ⟨by omega, hget _ _ h (by omega)⟩
  · have hk : k < 4 := hlt Minirv.or1Table h
    show 0x1210 + k < 0x100000 ∧ Symbols.sampleByte (0x1210 + k) = b
    rw [Symbols.sampleByte, if_neg (by omega), if_neg (by omega), if_neg (by omega), if_neg (by omega),
      if_pos (by omega)]
    exact ⟨by omega, hget _ _ h (by omega)⟩
  · have hk := hlt lutBin h
    rw [length_lutBin] at hk
    show 0x2000 + k < 0x100000 ∧ Symbols.sampleByte (0x2000 + k) = b
    rw [Symbols.sampleByte, if_neg (by omega), if_neg (by omega), if_neg (by omega), if_neg (by omega),
      if_neg (by omega)]
    exact ⟨by omega, hget _ _ h (by omega)⟩

/-- The address of byte `k` of a table. -/
theorem Symbols.sample_addr {t : Word × List Byte} (ht : t ∈ Symbols.sample.rodata) {k : ℕ} (hk : k < t.2.length) :
    (t.1 + BitVec.ofNat 32 k).toNat = t.1.toNat + k ∧ t.1.toNat + k < 0x100000 := by
  have hend := (Symbols.sample_table ht (List.getElem?_eq_getElem hk)).1
  refine ⟨?_, hend⟩
  rw [BitVec.toNat_add, BitVec.toNat_ofNat]
  omega

theorem sample_ready (v : Word) : Ready Symbols.sample (sampleMachine v) where
  loaded t ht k b hb := by
    show Symbols.sampleByte (t.1 + BitVec.ofNat 32 k).toNat = b
    rw [(Symbols.sample_addr ht (List.getElem?_eq_some_iff.mp hb).1).1]
    exact (Symbols.sample_table ht hb).2
  unused t ht k hk := by
    obtain ⟨haddr, hend⟩ := Symbols.sample_addr ht hk
    show ¬ (t.1 + BitVec.ofNat 32 k - (0x200000 - 28)).toNat < 28
    rw [BitVec.toNat_sub, haddr, show ((0x200000 : Word) - 28).toNat = 0x1fffe4 from rfl]
    omega

theorem sample_arrayApart (v : Word) : ArrayApart Symbols.sample ((sampleMachine v).regs.x sp) where
  unused q hq := by
    have hq' : (q - 0x100000).toNat < 256 := hq
    have hlt := q.isLt
    show ¬ (q - (0x200000 - 28)).toNat < 28
    rw [BitVec.toNat_sub, show (0x100000 : Word).toNat = 0x100000 from rfl] at hq'
    rw [BitVec.toNat_sub, show ((0x200000 : Word) - 28).toNat = 0x1fffe4 from rfl]
    omega
  tables t ht k hk := by
    obtain ⟨haddr, hend⟩ := Symbols.sample_addr ht hk
    show ¬ (t.1 + BitVec.ofNat 32 k - 0x100000).toNat < 256
    rw [BitVec.toNat_sub, haddr, show (0x100000 : Word).toNat = 0x100000 from rfl]
    omega

end Minirv
