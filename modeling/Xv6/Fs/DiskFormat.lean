import Xv6.Core.Bitmap
import Xv6.Log.DiskLog

/-!
# The on-disk file system format

The structures of `kernel/fs.h`: where inodes and bitmap bits lie on the disk,
and how they are read and written.  The disk is the one that `bread` and
`log_write` show to the file system, so a block that was logged is seen with its
new contents.
-/

namespace Xv6.DiskFormat

open LittleEndian Bitmap DiskLog Function

def NDIRECT : ℕ := 12
def NINDIRECT : ℕ := 256
def MAXFILE : ℕ := NDIRECT + NINDIRECT

def IPB : ℕ := 16

def BPB : ℕ := 8192

def sizeofDinode : ℕ := 64

theorem NDIRECT_eq : NDIRECT = 12 := rfl
theorem NINDIRECT_eq : NINDIRECT = 256 := rfl
theorem MAXFILE_eq : MAXFILE = 268 := rfl
theorem BSIZE_eq : BSIZE = 1024 := rfl
theorem BPB_eq : BPB = 8192 := rfl
theorem IPB_eq : IPB = 16 := rfl

/-- The fields of `struct superblock` that the file system uses, for the layout
that `mkfs` makes: the inode blocks lie before the bitmap, and the bitmap before
the data area. -/
structure Superblock where
  size : ℕ
  ninodes : ℕ
  inodestart : ℕ
  bmapstart : ℕ
  inodesFit : inodestart + (ninodes / IPB + 1) ≤ bmapstart
  bitmapFits : bmapstart + (size / BPB + 1) ≤ size
  size_lt : size < 2 ^ 31

/-- The first block of the data area; all blocks before it are metadata. -/
def Superblock.dataStart (sb : Superblock) : ℕ := sb.bmapstart + (sb.size / BPB + 1)

def IBLOCK (sb : Superblock) (inum : ℕ) : ℕ := inum / IPB + sb.inodestart

def BBLOCK (sb : Superblock) (b : ℕ) : ℕ := b / BPB + sb.bmapstart

/-! ## The bitmap -/

def bitSet (sb : Superblock) (disk : Disk) (b : ℕ) : Bool := testBit (disk (BBLOCK sb b)) (b % BPB)

def markUsed (sb : Superblock) (disk : Disk) (b : ℕ) : Disk :=
  update disk (BBLOCK sb b) (setBit (disk (BBLOCK sb b)) (b % BPB))

def markFree (sb : Superblock) (disk : Disk) (b : ℕ) : Disk :=
  update disk (BBLOCK sb b) (clearBit (disk (BBLOCK sb b)) (b % BPB))

theorem block_eq_iff (sb : Superblock) (b other : ℕ) :
    other = b ↔ BBLOCK sb other = BBLOCK sb b ∧ other % BPB = b % BPB := by
  simp only [BBLOCK, BPB_eq]
  omega

theorem bit_in_block (b : ℕ) : b % BPB / 8 < BSIZE := by
  simp only [BSIZE_eq, BPB_eq]
  omega

theorem bitSet_markUsed (sb : Superblock) (disk : Disk) (b other : ℕ) :
    bitSet sb (markUsed sb disk b) other = (bitSet sb disk other || decide (other = b)) := by
  by_cases hb : BBLOCK sb other = BBLOCK sb b
  · rw [bitSet, markUsed, hb, update_self, testBit_setBit _ (bit_in_block b), bitSet, hb]
    simp [block_eq_iff sb b other, hb]
  · have hne : other ≠ b := fun heq => hb (by rw [heq])
    simp [bitSet, markUsed, update_of_ne hb, hne]

theorem bitSet_markFree (sb : Superblock) (disk : Disk) (b other : ℕ) :
    bitSet sb (markFree sb disk b) other = (bitSet sb disk other && decide (other ≠ b)) := by
  by_cases hb : BBLOCK sb other = BBLOCK sb b
  · rw [bitSet, markFree, hb, update_self, testBit_clearBit _ (bit_in_block b), bitSet, hb]
    simp [block_eq_iff sb b other, hb]
  · have hne : other ≠ b := fun heq => hb (by rw [heq])
    simp [bitSet, markFree, update_of_ne hb, hne]

/-! ## Inodes -/

/-- `struct dinode`. -/
@[ext]
structure Dinode where
  type : BitVec 16
  major : BitVec 16
  minor : BitVec 16
  nlink : BitVec 16
  size : BitVec 32
  addrs : Fin (NDIRECT + 1) → BitVec 32

def Dinode.short (dinode : Dinode) : ℕ → BitVec 16
  | 0 => dinode.type
  | 1 => dinode.major
  | 2 => dinode.minor
  | _ => dinode.nlink

def Dinode.encode (dinode : Dinode) (index : ℕ) : Byte :=
  if index < 8 then @byteOf 2 (dinode.short (index / 2)) (index % 2)
  else if index < 12 then @byteOf 4 dinode.size (index - 8)
  else if h : (index - 12) / 4 < NDIRECT + 1 then
    @byteOf 4 (dinode.addrs ⟨(index - 12) / 4, h⟩) ((index - 12) % 4)
  else 0

def loadDinode (data : Block) (offset : ℕ) : Dinode where
  type := readU16 data offset
  major := readU16 data (offset + 2)
  minor := readU16 data (offset + 4)
  nlink := readU16 data (offset + 6)
  size := readU32 data (offset + 8)
  addrs index := readU32 data (offset + 12 + 4 * index)

/-- Store a `struct dinode` at a byte offset of a block. -/
def storeDinode (data : Block) (offset : ℕ) (dinode : Dinode) : Block :=
  fun position =>
    if offset ≤ position.val ∧ position.val < offset + sizeofDinode then
      dinode.encode (position.val - offset)
    else data position

/-- The byte offset of `(struct dinode*)bp->data + inum%IPB`. -/
def dinodeOffset (inum : ℕ) : ℕ := inum % IPB * sizeofDinode

def readDinode (sb : Superblock) (disk : Disk) (inum : ℕ) : Dinode :=
  loadDinode (disk (IBLOCK sb inum)) (dinodeOffset inum)

def writeDinode (sb : Superblock) (disk : Disk) (inum : ℕ) (dinode : Dinode) :
    Disk :=
  update disk (IBLOCK sb inum) (storeDinode (disk (IBLOCK sb inum)) (dinodeOffset inum) dinode)

theorem byteAt_storeDinode_inside (data : Block) {offset index : ℕ}
    (dinode : Dinode) (hi : index < sizeofDinode) (hfits : offset + sizeofDinode ≤ BSIZE) :
    byteAt (storeDinode data offset dinode) (offset + index) = dinode.encode index := by
  have hlt : offset + index < BSIZE := by omega
  simp [byteAt, storeDinode, hlt, hi]

theorem byteAt_storeDinode_outside (data : Block) {offset position : ℕ} (dinode : Dinode)
    (hout : position < offset ∨ offset + sizeofDinode ≤ position) :
    byteAt (storeDinode data offset dinode) position = byteAt data position := by
  have hnot : ¬ (offset ≤ position ∧ position < offset + sizeofDinode) := by omega
  simp [byteAt, storeDinode, hnot]

section
variable (data : Block) {offset : ℕ} (dinode : Dinode) (hfits : offset + sizeofDinode ≤ BSIZE)
include hfits

theorem readU16_storeDinode {index : ℕ} (hi : index < 4) :
    readU16 (storeDinode data offset dinode) (offset + 2 * index) = dinode.short index := by
  refine @readWord_eq 2 _ _ _ (dinode.short index) fun byte => ?_
  have hbyte := byte.isLt
  have hhalf : (2 * index + byte.val) / 2 = index := by omega
  have hrest : (2 * index + byte.val) % 2 = byte.val := by omega
  rw [Nat.add_assoc, byteAt_storeDinode_inside data dinode
      (by simp only [sizeofDinode]; omega) hfits, Dinode.encode,
    if_pos (by omega), hhalf, hrest]

theorem readU32_storeDinode_size :
    readU32 (storeDinode data offset dinode) (offset + 8) = dinode.size := by
  refine @readWord_eq 4 _ _ _ dinode.size fun byte => ?_
  have hbyte := byte.isLt
  rw [Nat.add_assoc, byteAt_storeDinode_inside data dinode
      (by simp only [sizeofDinode]; omega) hfits, Dinode.encode,
    if_neg (by omega), if_pos (by omega), Nat.add_sub_cancel_left]

theorem readU32_storeDinode_addrs (index : Fin (NDIRECT + 1)) :
    readU32 (storeDinode data offset dinode) (offset + 12 + 4 * index) = dinode.addrs index := by
  refine @readWord_eq 4 _ _ _ (dinode.addrs index) fun byte => ?_
  have hbyte := byte.isLt
  have hi : index.val < 13 := index.isLt
  have hquarter : (12 + (4 * index.val + byte.val) - 12) / 4 = index.val := by omega
  have hrest : (12 + (4 * index.val + byte.val) - 12) % 4 = byte.val := by omega
  rw [Nat.add_assoc, Nat.add_assoc, byteAt_storeDinode_inside data dinode
      (by simp only [sizeofDinode]; omega) hfits, Dinode.encode,
    if_neg (by omega), if_neg (by omega),
    dif_pos (by rw [hquarter]; exact index.isLt)]
  simp only [hquarter, hrest, Fin.eta]

theorem loadDinode_storeDinode_same :
    loadDinode (storeDinode data offset dinode) offset = dinode := by
  have hshort := fun index hi => @readU16_storeDinode data offset dinode hfits index hi
  ext1
  · exact hshort 0 (by omega)
  · exact hshort 1 (by omega)
  · exact hshort 2 (by omega)
  · exact hshort 3 (by omega)
  · exact readU32_storeDinode_size data dinode hfits
  · funext index
    exact readU32_storeDinode_addrs data dinode hfits index

end

theorem loadDinode_congr {data data' : Block} {offset : ℕ} (hbytes : ∀ position, offset ≤ position →
      position < offset + sizeofDinode → byteAt data' position = byteAt data position) :
    loadDinode data' offset = loadDinode data offset := by
  have hword : ∀ width position, position + width ≤ sizeofDinode →
      readWord width data' (offset + position) = readWord width data (offset + position) := by
    intro width position hpos
    rw [readWord, readWord]
    congr 1
    funext byte
    have hbyte := byte.isLt
    exact hbytes _ (by omega) (by omega)
  have hfits : ∀ position width, position + width ≤ 64 →
      position + width ≤ sizeofDinode := fun _ _ h => h
  ext1
  · exact hword 2 0 (hfits 0 2 (by omega))
  · exact hword 2 2 (hfits 2 2 (by omega))
  · exact hword 2 4 (hfits 4 2 (by omega))
  · exact hword 2 6 (hfits 6 2 (by omega))
  · exact hword 4 8 (hfits 8 4 (by omega))
  · funext index
    have hi : index.val < 13 := index.isLt
    have haddr := hword 4 (12 + 4 * index) (hfits _ 4 (by omega))
    rw [← Nat.add_assoc] at haddr
    exact haddr

theorem dinodeOffset_fits (inum : ℕ) : dinodeOffset inum + sizeofDinode ≤ BSIZE := by
  simp only [dinodeOffset, sizeofDinode, BSIZE_eq, IPB_eq]
  omega

theorem readDinode_writeDinode (sb : Superblock) (disk : Disk) (inum : ℕ)
    (dinode : Dinode) (other : ℕ) :
    readDinode sb (writeDinode sb disk inum dinode) other =
      if other = inum then dinode else readDinode sb disk other := by
  by_cases ho : other = inum
  · subst ho
    rw [if_pos rfl, readDinode, writeDinode, update_self]
    exact loadDinode_storeDinode_same _ dinode (dinodeOffset_fits other)
  · rw [if_neg ho, readDinode, readDinode, writeDinode]
    by_cases hb : IBLOCK sb other = IBLOCK sb inum
    · rw [hb, update_self]
      refine loadDinode_congr fun position hlow hhigh => ?_
      refine byteAt_storeDinode_outside _ dinode ?_
      simp only [IBLOCK, dinodeOffset, sizeofDinode, IPB_eq] at *
      omega
    · rw [update_of_ne hb]

end Xv6.DiskFormat
