import Mathlib

/-!
# Little-endian words in byte arrays

Disk blocks and memory pages are arrays of bytes, and the C sources read and
write integers of several widths at fixed offsets of them.  This module fixes
the layout once: byte `i` of a word holds its bits `8*i .. 8*i+7`.  A write at
one offset is read back there and is invisible at every disjoint offset.
-/

namespace Xv6.LittleEndian

variable {width length : ℕ}

abbrev Byte := BitVec 8

abbrev Bytes (length : ℕ) := Fin length → Byte

def ofBytes {width : ℕ} (bytes : Fin width → Byte) : BitVec (8 * width) :=
  BitVec.ofFnLE fun bit =>
    (bytes ⟨bit.val / 8, Nat.div_lt_of_lt_mul bit.isLt⟩).getLsbD (bit.val % 8)

def byteOf {width : ℕ} (word : BitVec (8 * width)) (index : ℕ) : Byte :=
  word.extractLsb' (8 * index) 8

theorem ofBytes_byteOf (word : BitVec (8 * width)) :
    ofBytes (fun index : Fin width => byteOf word index) = word := by
  apply BitVec.eq_of_getLsbD_eq
  intro bit hbit
  have hrem : bit % 8 < 8 := Nat.mod_lt bit (by omega)
  have hsplit : 8 * (bit / 8) + bit % 8 = bit := Nat.div_add_mod bit 8
  simp [byteOf, ofBytes, hbit, hrem, hsplit]

/-- The byte at a position, zero past the end of the array. -/
def byteAt {length : ℕ} (data : Bytes length) (position : ℕ) : Byte :=
  if h : position < length then data ⟨position, h⟩ else 0

/-- Read the `width`-byte word that starts at `offset`. -/
def readWord (width : ℕ) {length : ℕ} (data : Bytes length) (offset : ℕ) : BitVec (8 * width) :=
  ofBytes fun index => byteAt data (offset + index)

/-- Store a `width`-byte word at `offset`; every other byte is kept. -/
def writeWord (width : ℕ) {length : ℕ} (data : Bytes length) (offset : ℕ)
    (word : BitVec (8 * width)) : Bytes length := fun position =>
  if offset ≤ position.val ∧ position.val < offset + width then
    byteOf word (position.val - offset)
  else data position

theorem byteAt_writeWord_inside (data : Bytes length)
    (offset : ℕ) (word : BitVec (8 * width)) (index : Fin width) (hfits : offset + width ≤ length) :
    byteAt (writeWord width data offset word) (offset + index) = byteOf word index := by
  have hlt : offset + index.val < length := by omega
  simp [byteAt, writeWord, hlt, index.isLt]

theorem byteAt_writeWord_outside (data : Bytes length)
    (offset : ℕ) (word : BitVec (8 * width)) (position : ℕ)
    (hout : position < offset ∨ offset + width ≤ position) :
    byteAt (writeWord width data offset word) position = byteAt data position := by
  have hnot : ¬ (offset ≤ position ∧ position < offset + width) := by omega
  simp [byteAt, writeWord, hnot]

theorem readWord_writeWord_same {width length : ℕ} (data : Bytes length)
    (offset : ℕ) (word : BitVec (8 * width)) (hfits : offset + width ≤ length) :
    readWord width (writeWord width data offset word) offset = word := by
  have hbytes : (fun index : Fin width =>
      byteAt (writeWord width data offset word) (offset + index)) =
        fun index : Fin width => byteOf word index := by
    funext index
    exact byteAt_writeWord_inside data offset word index hfits
  rw [readWord, hbytes, ofBytes_byteOf]

theorem readWord_writeWord_disjoint {width other length : ℕ}
    (data : Bytes length) (offset position : ℕ) (word : BitVec (8 * width))
    (hdisjoint : position + other ≤ offset ∨ offset + width ≤ position) :
    readWord other (writeWord width data offset word) position = readWord other data position := by
  have hbytes : (fun index : Fin other =>
      byteAt (writeWord width data offset word) (position + index)) =
        fun index : Fin other => byteAt data (position + index) := by
    funext index
    have hi := index.isLt
    exact byteAt_writeWord_outside data offset word _ (by omega)
  rw [readWord, readWord, hbytes]

theorem readWord_zero (width length offset : ℕ) :
    readWord width (fun _ : Fin length => 0) offset = 0 := by
  apply BitVec.eq_of_getLsbD_eq
  intro bit hbit
  simp [readWord, ofBytes, byteAt, hbit]

theorem readWord_eq {width length : ℕ} {data : Bytes length} {offset : ℕ}
    {word : BitVec (8 * width)} (hbytes : ∀ index : Fin width,
      byteAt data (offset + index) = byteOf word index) : readWord width data offset = word := by
  rw [readWord, funext hbytes]
  exact ofBytes_byteOf word

/-! ## Words of 16 and 32 bits -/

def readU16 {length : ℕ} (data : Bytes length) (offset : ℕ) : BitVec 16 := readWord 2 data offset

def readU32 {length : ℕ} (data : Bytes length) (offset : ℕ) : BitVec 32 := readWord 4 data offset

def writeU32 {length : ℕ} (data : Bytes length) (offset : ℕ) (word : BitVec 32) : Bytes length :=
  writeWord 4 data offset word

@[simp]
theorem readU32_zero (length offset : ℕ) : readU32 (fun _ : Fin length => 0) offset = 0 :=
  readWord_zero 4 length offset

theorem readU32_writeU32_same (data : Bytes length)
    (offset : ℕ) (word : BitVec 32) (hfits : offset + 4 ≤ length) :
    readU32 (writeU32 data offset word) offset = word :=
  @readWord_writeWord_same 4 length data offset word hfits

theorem readU32_writeU32_disjoint (data : Bytes length) (offset position : ℕ) (word : BitVec 32)
    (hdisjoint : position + 4 ≤ offset ∨ offset + 4 ≤ position) :
    readU32 (writeU32 data offset word) position = readU32 data position :=
  @readWord_writeWord_disjoint 4 4 length data offset position word hdisjoint

/-! ## Words of 64 bits -/

def readU64 {length : ℕ} (data : Bytes length) (offset : ℕ) : BitVec 64 := readWord 8 data offset

def writeU64 {length : ℕ} (data : Bytes length) (offset : ℕ) (word : BitVec 64) : Bytes length :=
  writeWord 8 data offset word

@[simp]
theorem readU64_zero (length offset : ℕ) : readU64 (fun _ : Fin length => 0) offset = 0 :=
  readWord_zero 8 length offset

theorem readU64_writeU64_same (data : Bytes length)
    (offset : ℕ) (word : BitVec 64) (hfits : offset + 8 ≤ length) :
    readU64 (writeU64 data offset word) offset = word :=
  @readWord_writeWord_same 8 length data offset word hfits

theorem readU64_writeU64_disjoint (data : Bytes length) (offset position : ℕ) (word : BitVec 64)
    (hdisjoint : position + 8 ≤ offset ∨ offset + 8 ≤ position) :
    readU64 (writeU64 data offset word) position = readU64 data position :=
  @readWord_writeWord_disjoint 8 8 length data offset position word hdisjoint

/-! ## Runs of bytes -/

/-- Replace the bytes from `offset` on by those of a list. -/
def overwrite {length : ℕ} (data : Bytes length) (offset : ℕ)
    (bytes : List Byte) : Bytes length := fun index =>
  if offset ≤ index.val ∧ index.val < offset + bytes.length then
    bytes.getD (index.val - offset) 0
  else data index

theorem byteAt_overwrite (data : Bytes length) (offset : ℕ)
    {bytes : List Byte} (hfits : offset + bytes.length ≤ length)
    (position : ℕ) :
    byteAt (overwrite data offset bytes) position =
      if offset ≤ position ∧ position < offset + bytes.length then
        bytes.getD (position - offset) 0
      else byteAt data position := by
  by_cases hpos : position < length
  · simp only [byteAt, overwrite, dif_pos hpos]
  · rw [if_neg (by omega), byteAt, byteAt, dif_neg hpos, dif_neg hpos]

def slice {length : ℕ} (data : Bytes length) (offset count : ℕ) : List Byte :=
  (List.range count).map fun index => byteAt data (offset + index)

@[simp]
theorem length_slice (data : Bytes length) (offset count : ℕ) :
    (slice data offset count).length = count := by
  simp [slice]

end Xv6.LittleEndian
