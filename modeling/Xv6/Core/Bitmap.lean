import Xv6.Core.LittleEndian

/-!
# Bitmaps in byte arrays

Bit `i` of a bitmap is bit `i % 8` of byte `i / 8`.  The operations are the ones
that C code writes with a mask `1 << (i % 8)`; setting or clearing one bit leaves
all others as they were.
-/

namespace Xv6.Bitmap

open LittleEndian BitVec Nat

variable {length : ℕ}

def mask (index : ℕ) : Byte := 1#8 <<< (index % 8)

def storeByte (data : Bytes length) (position : ℕ) (value : Byte) :
    Bytes length := fun index =>
  if index.val = position then value else data index

def testBit (data : Bytes length) (index : ℕ) : Bool :=
  (byteAt data (index / 8) &&& mask index) != 0

def setBit (data : Bytes length) (index : ℕ) : Bytes length :=
  storeByte data (index / 8) (byteAt data (index / 8) ||| mask index)

def clearBit (data : Bytes length) (index : ℕ) : Bytes length :=
  storeByte data (index / 8) (byteAt data (index / 8) &&& ~~~mask index)

theorem byteAt_storeByte (data : Bytes length) {position : ℕ} (value : Byte)
    (hpos : position < length) (other : ℕ) :
    byteAt (storeByte data position value) other =
      if other = position then value else byteAt data other := by
  by_cases heq : other = position
  · subst heq
    simp [byteAt, storeByte, hpos]
  · simp [byteAt, storeByte, heq]

theorem mask_eq_twoPow (index : ℕ) : mask index = BitVec.twoPow 8 (index % 8) :=
  (twoPow_eq 8 (index % 8)).symm

theorem testBit_eq (data : Bytes length) (index : ℕ) :
    testBit data index = (byteAt data (index / 8)).getLsbD (index % 8) := by
  have hi : index % 8 < 8 := mod_lt index (by omega)
  have hnonzero : BitVec.twoPow 8 (index % 8) ≠ 0#8 := by
    intro hzero
    have hbit := congrArg (fun byte => byte.getLsbD (index % 8)) hzero
    simp [hi] at hbit
  rw [testBit, mask_eq_twoPow, and_twoPow]
  cases (byteAt data (index / 8)).getLsbD (index % 8) with
  | false => simp
  | true => simpa using hnonzero

theorem getLsbD_mask (index bit : ℕ) : (mask index).getLsbD bit = decide (bit = index % 8) := by
  have hi : index % 8 < 8 := mod_lt index (by omega)
  rw [mask_eq_twoPow, getLsbD_twoPow]
  simp [hi, eq_comm]

theorem index_eq_iff (index other : ℕ) :
    other = index ↔ other / 8 = index / 8 ∧ other % 8 = index % 8 := by
  omega

theorem testBit_setBit (data : Bytes length) {index : ℕ} (hi : index / 8 < length) (other : ℕ) :
    testBit (setBit data index) other = (testBit data other || decide (other = index)) := by
  rw [testBit_eq, testBit_eq, setBit, byteAt_storeByte data _ hi]
  by_cases hbyte : other / 8 = index / 8
  · rw [if_pos hbyte, getLsbD_or, getLsbD_mask, hbyte]
    simp [index_eq_iff index other, hbyte]
  · have hne : other ≠ index := fun heq => hbyte (by rw [heq])
    simp [hbyte, hne]

theorem testBit_clearBit (data : Bytes length) {index : ℕ} (hi : index / 8 < length) (other : ℕ) :
    testBit (clearBit data index) other = (testBit data other && decide (other ≠ index)) := by
  have ho : other % 8 < 8 := mod_lt other (by omega)
  rw [testBit_eq, testBit_eq, clearBit, byteAt_storeByte data _ hi]
  by_cases hbyte : other / 8 = index / 8
  · rw [if_pos hbyte, getLsbD_and, getLsbD_not, getLsbD_mask, hbyte]
    simp [index_eq_iff index other, hbyte, ho]
  · have hne : other ≠ index := fun heq => hbyte (by rw [heq])
    simp [hbyte, hne]

end Xv6.Bitmap
