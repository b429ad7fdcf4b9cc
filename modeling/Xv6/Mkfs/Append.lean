import Xv6.Fs.FileSystem
import Xv6.Mkfs.Mkfs

/-!
# Appending to an inode of the image

`mkfs` hands out blocks in order and writes the bitmap at the end.  `marked` is the
disk that the kernel would see if the bitmap were written now; on it the allocation
of a block by `mkfs` is the `balloc` of the kernel, and finding the next block in
`iappend` is the `bmap` of the kernel.  The invariant of the file system and the
lemmas on `writei` then apply to `iappend`.
-/

namespace Xv6.MkfsAppend

open Function List Option LittleEndian Bitmap DiskLog DiskFormat BlockOwnership FileContent
open ReadWrite Outcome Mkfs
open InodeContent (addr setAddr indirectEntry bmap bmapAddr)

variable {image : Image} {b c sec count off inum : ℕ} {disk : Disk} {ip din : Dinode}
  {cur : ℕ → Dinode}

/-! ## The bitmap that is still to be written -/

def marked (image : Image) : Disk := update image.disk sb.bmapstart (bitmap image.freeblock)

theorem bitmap_succ (used : ℕ) : bitmap (used + 1) = setBit (bitmap used) used := by
  rw [bitmap, range_succ, foldl_append]
  rfl

theorem testBit_bitmap {used : ℕ} (hused : used ≤ BPB) (b : ℕ) :
    testBit (bitmap used) b = decide (b < used) := by
  induction used with
  | zero =>
    rw [testBit_eq]
    simp [bitmap, byteAt]
  | succ used ih =>
    have hin : used / 8 < BSIZE := by
      simp only [BPB_eq, BSIZE_eq] at hused ⊢
      omega
    rw [bitmap_succ, testBit_setBit _ hin, ih (by omega)]
    by_cases hb : b < used
    · simp [hb, Nat.lt_succ_of_lt hb]
    · by_cases heq : b = used
      · simp [heq]
      · have hnot : ¬ b < used + 1 := by omega
        simp [hb, heq, hnot]

theorem bitSet_marked (hfree : image.freeblock ≤ BPB)
    (hb : b < BPB) : bitSet sb (marked image) b = decide (b < image.freeblock) := by
  have hblock : BBLOCK sb b = sb.bmapstart := by rw [BBLOCK, Nat.div_eq_of_lt hb, Nat.zero_add]
  rw [bitSet, hblock, marked, update_self, Nat.mod_eq_of_lt hb, testBit_bitmap hfree]

theorem marked_of_ne (image : Image) (hc : c ≠ sb.bmapstart) :
    marked image c = image.disk c :=
  update_of_ne hc _ _

theorem marked_wsect (image : Image) (hsec : sec ≠ sb.bmapstart) (buf : Block) :
    marked (wsect image sec buf) = update (marked image) sec buf :=
  update_comm hsec _ _ _

/-- The blocks from `freeblock` on are not in use. -/
structure Free (image : Image) : Prop where
  low : sb.dataStart ≤ image.freeblock
  high : image.freeblock ≤ sb.size
  zero : ∀ b, image.freeblock ≤ b → image.disk b = fun _ => 0

theorem Free.bits (hfree : Free image) (hb : b < BPB) :
    bitSet sb (marked image) b = decide (b < image.freeblock) := by
  refine bitSet_marked ?_ hb
  have hhigh := hfree.high
  simp only [size_eq, BPB_eq] at *
  omega

def takeBlock (image : Image) : Image := { image with freeblock := image.freeblock + 1 }

theorem Free.take (hfree : Free image)
    (hroom : image.freeblock < FSSIZE) : Free (takeBlock image) where
  low := hfree.low.trans (Nat.le_succ _)
  high := hroom
  zero b hb := hfree.zero b (Nat.le_of_succ_le hb)

theorem Free.wsect (hfree : Free image)
    (hsec : sec < image.freeblock) (buf : Block) : Free (wsect image sec buf) where
  low := hfree.low
  high := hfree.high
  zero b hb := by
    have hb' : image.freeblock ≤ b := hb
    exact (update_of_ne (by omega) _ _).trans (hfree.zero b hb')

theorem ne_bmapstart (hc : sb.dataStart ≤ c) : c ≠ sb.bmapstart := by
  simp only [dataStart_eq, bmapstart_eq] at *
  omega

theorem balloc_marked (hfree : Free image) (hroom : image.freeblock < FSSIZE) :
    InodeContent.balloc sb (marked image) = .ok (image.freeblock, marked (takeBlock image)) := by
  have hlarge : image.freeblock < BPB := by
    simp only [FSSIZE_eq, BPB_eq] at *
    omega
  have hfind : ((List.range sb.size).find? fun b => !bitSet sb (marked image) b) =
      some image.freeblock := by
    rw [List.find?_range_eq_some]
    refine ⟨?_, mem_range.mpr hroom, ?_⟩
    · rw [hfree.bits hlarge]
      simp
    · intro b hb
      rw [hfree.bits (by omega)]
      simpa using hb
  have hblock : BBLOCK sb image.freeblock = sb.bmapstart := by
    rw [BBLOCK, Nat.div_eq_of_lt hlarge, Nat.zero_add]
  have hdisk : InodeContent.bzero (markUsed sb (marked image) image.freeblock)
      image.freeblock = marked (takeBlock image) := by
    have hne := ne_bmapstart hfree.low
    funext c
    rw [InodeContent.bzero, markUsed, hblock, Nat.mod_eq_of_lt hlarge]
    by_cases hc : c = image.freeblock
    · subst hc
      rw [update_self, marked_of_ne _ hne]
      exact (hfree.zero _ le_rfl).symm
    · rw [update_of_ne hc]
      by_cases hbitmap : c = sb.bmapstart
      · subst hbitmap
        change _ = update image.disk sb.bmapstart (bitmap (image.freeblock + 1)) sb.bmapstart
        rw [update_self, update_self, marked, update_self, bitmap_succ]
      · rw [update_of_ne hbitmap, marked_of_ne _ hbitmap, marked_of_ne _ hbitmap]
        rfl
  rw [InodeContent.balloc, hfind]
  simp only [hdisk]

/-! ## Finding the next block -/

section
variable {cur : ℕ → Dinode} {inum : ℕ} {image : Image} {din : Dinode}
  (hfree : Free image) (hlayout : Layout sb (marked image) (update cur inum din))
  (hinum : inum < sb.ninodes) (htype : din.type ≠ 0)
include hfree hlayout hinum htype

theorem slot_lt {slot : ℕ} (hslot : inodeSlot (marked image) din slot = some b) :
    sb.dataStart ≤ b ∧ b < image.freeblock := by
  obtain ⟨hlow, hhigh, hbit⟩ := hlayout.used_slot hinum htype hslot
  rw [hfree.bits (by simp only [size_eq, BPB_eq] at *; omega)] at hbit
  exact ⟨hlow, of_decide_eq_true hbit⟩

theorem allocAddr_spec {index : ℕ} (hi : index < NDIRECT + 1)
    (hroom : addr din index = 0 → image.freeblock < FSSIZE) :
    ∃ b after din', allocAddr image din index = (after, din') ∧ (addr din' index).toNat = b ∧
      bmapAddr sb (marked image) din index = .ok (b, marked after, din') ∧
      Free after ∧ after.freeinode = image.freeinode ∧
      after.freeblock = image.freeblock + (if addr din index = 0 then 1 else 0) ∧
      ∀ slot, inodeSlot (marked after) din' slot =
        if slot = index then some b else inodeSlot (marked image) din slot := by
  by_cases hnil : addr din index = 0
  · have hballoc := balloc_marked hfree (hroom hnil)
    have halloc := balloc_spec hlayout.metadata hballoc
    have hassign := assigned_addr hlayout hinum htype hi hnil halloc
    have hvalue : (addr (setAddr din index (BitVec.ofNat 32 image.freeblock))
        index).toNat = image.freeblock := by
      have hpointer := pointer_ofNat sb halloc.low halloc.high
      rw [addr_setAddr din _ hi, if_pos rfl]
      exact (eq_of_pointer hpointer).2
    refine ⟨image.freeblock, takeBlock image, _, ?_, hvalue, ?_,
      hfree.take (hroom hnil), rfl, ?_, hassign.slots⟩
    · rw [allocAddr, if_pos hnil]
      rfl
    · rw [bmapAddr, if_pos hnil, hballoc]
      rfl
    · rw [if_pos hnil]
      rfl
  · refine ⟨_, image, din, if_neg hnil, rfl, ?_, hfree, rfl, ?_, ?_⟩
    · rw [bmapAddr, if_neg hnil]
      rfl
    · rw [if_neg hnil, Nat.add_zero]
    · intro slot
      split
      case isTrue hslot =>
        rw [hslot, inodeSlot_addr _ din hi]
        exact pointer_of_ne hnil
      case isFalse => rfl

theorem allocEntry_spec {bn : ℕ} (hbn : ¬ bn < NDIRECT) (hlimit : bn < MAXFILE)
    (hindir : addr din NDIRECT ≠ 0)
    (hroom : fileBlock (marked image) din bn = none → image.freeblock < FSSIZE) :
    ∃ b after, allocEntry image (addr din NDIRECT).toNat (bn - NDIRECT) = .ok (b, after) ∧
      bmap sb (marked image) din bn = .ok (b, marked after, din) ∧
      Free after ∧ after.freeinode = image.freeinode ∧
      after.freeblock = image.freeblock +
        (if fileBlock (marked image) din bn = none then 1 else 0) ∧
      ∀ slot, inodeSlot (marked after) din slot =
        if slot = blockSlot bn then some b else inodeSlot (marked image) din slot := by
  have hrange : bn - NDIRECT < NINDIRECT := by
    simp only [MAXFILE] at hlimit
    omega
  have hslot : blockSlot bn = NDIRECT + 1 + (bn - NDIRECT) := by
    rw [blockSlot, if_neg hbn]
    omega
  have hpointer : inodeSlot (marked image) din NDIRECT = some (addr din NDIRECT).toNat := by
    rw [inodeSlot_addr _ din (Nat.lt_succ_self NDIRECT)]
    exact pointer_of_ne hindir
  obtain ⟨hlow, hused⟩ := slot_lt hfree hlayout hinum htype hpointer
  have hne := ne_bmapstart hlow
  have hhigh := hfree.high
  have hread : rsect image (addr din NDIRECT).toNat =
      .ok (marked image (addr din NDIRECT).toNat) := by
    have hin : (addr din NDIRECT).toNat < FSSIZE := lt_of_lt_of_le hused hhigh
    rw [rsect, if_pos hin, marked_of_ne image hne]
  have he : fileBlock (marked image) din bn =
      pointer (indirectEntry (marked image (addr din NDIRECT).toNat) (bn - NDIRECT)) := by
    rw [fileBlock, hslot, inodeSlot_entry _ hindir hrange]
  by_cases hnil : indirectEntry (marked image (addr din NDIRECT).toNat) (bn - NDIRECT) = 0
  · have hnone : fileBlock (marked image) din bn = none := by
      rw [he, hnil]
      rfl
    have hballoc := balloc_marked hfree (hroom hnone)
    have halloc := balloc_spec hlayout.metadata hballoc
    have hassign := assigned_entry hlayout hinum htype hindir hrange hnil halloc
    have hkept : marked (takeBlock image) (addr din NDIRECT).toNat =
        marked image (addr din NDIRECT).toNat := by
      rw [marked_of_ne _ hne, marked_of_ne _ hne]
      rfl
    have hvalue : (BitVec.ofNat 32 image.freeblock).toNat = image.freeblock :=
      (eq_of_pointer (pointer_ofNat sb halloc.low halloc.high)).2
    have hwritten : indirectEntry (writeU32 (marked image (addr din NDIRECT).toNat)
        (4 * (bn - NDIRECT)) (BitVec.ofNat 32 image.freeblock)) (bn - NDIRECT) =
          BitVec.ofNat 32 image.freeblock := by
      rw [indirectEntry, readU32_writeU32_same _ _ _ (by
        simp only [BSIZE_eq, NINDIRECT_eq] at hrange ⊢
        omega)]
    have hmarked := marked_wsect (takeBlock image) hne
      (writeU32 (marked image (addr din NDIRECT).toNat) (4 * (bn - NDIRECT))
        (BitVec.ofNat 32 image.freeblock))
    refine ⟨image.freeblock, wsect (takeBlock image) (addr din NDIRECT).toNat
      (writeU32 (marked image (addr din NDIRECT).toNat) (4 * (bn - NDIRECT))
        (BitVec.ofNat 32 image.freeblock)), ?_, ?_,
      (hfree.take (hroom hnone)).wsect (Nat.lt_succ_of_lt hused) _, rfl, ?_, ?_⟩
    · rw [allocEntry, hread, ok_bind, if_pos hnil]
      simp only [hwritten, hvalue]
      rfl
    · rw [bmap, if_neg hbn, if_pos hrange, bmapAddr, if_neg hindir, pure_eq_ok, ok_bind]
      dsimp only
      rw [if_pos hnil, hballoc, ok_bind]
      dsimp only
      rw [hkept, ← hmarked]
      rfl
    · rw [if_pos hnone]
      rfl
    · intro slot
      rw [hmarked, ← hkept, hassign.slots, hslot]
  · have hsome : fileBlock (marked image) din bn ≠ none := by
      rw [he, pointer_of_ne hnil]
      exact some_ne_none _
    refine ⟨(indirectEntry (marked image (addr din NDIRECT).toNat)
      (bn - NDIRECT)).toNat, image, ?_, ?_, hfree, rfl, ?_, ?_⟩
    · rw [allocEntry, hread, ok_bind, if_neg hnil]
      rfl
    · rw [bmap, if_neg hbn, if_pos hrange, bmapAddr, if_neg hindir, pure_eq_ok, ok_bind]
      dsimp only
      rw [if_neg hnil]
      rfl
    · rw [if_neg hsome, Nat.add_zero]
    · intro slot
      split
      case isTrue heq =>
        rw [heq, hslot, inodeSlot_entry _ hindir hrange]
        exact pointer_of_ne hnil
      case isFalse => rfl

end

/-! ## How many blocks a file has -/

/-- The blocks of a file with `length` bytes, with its indirect block. -/
def blocksFor (length : ℕ) : ℕ :=
  (length + BSIZE - 1) / BSIZE + if NDIRECT * BSIZE < length then 1 else 0

theorem blocksFor_eq (length : ℕ) :
    blocksFor length = (length + 1023) / 1024 + if 12288 < length then 1 else 0 := by
  have hdirect : NDIRECT * BSIZE = 12288 := by rw [NDIRECT_eq, BSIZE_eq]
  rw [blocksFor, hdirect, BSIZE_eq, Nat.add_sub_assoc (by omega)]

/-- The inode has the blocks for `length` bytes and no others. -/
structure Extent (disk : Disk) (ip : Dinode) (length : ℕ) : Prop where
  blocks : ∀ bn < MAXFILE, (fileBlock disk ip bn).isSome ↔ bn * BSIZE < length
  indirect : (inodeSlot disk ip NDIRECT).isSome ↔ NDIRECT * BSIZE < length

theorem blocksFor_mono {short long : ℕ} (hle : short ≤ long) :
    blocksFor short ≤ blocksFor long := by
  rw [blocksFor_eq, blocksFor_eq]
  split_ifs <;> omega

theorem blocksFor_chunk (off : ℕ) (hpos : 0 < count)
    (hcount : count ≤ BSIZE - off % BSIZE) : blocksFor (off + count) = blocksFor (off + 1) := by
  rw [blocksFor_eq, blocksFor_eq]
  simp only [BSIZE_eq] at hcount
  split_ifs <;> omega

theorem Extent.chunk (hextent : Extent disk ip (off + 1)) (hpos : 0 < count)
    (hcount : count ≤ BSIZE - off % BSIZE) : Extent disk ip (off + count) where
  blocks bn hbn := by
    rw [hextent.blocks bn hbn]
    simp only [BSIZE_eq] at *
    omega
  indirect := by
    rw [hextent.indirect]
    simp only [BSIZE_eq, NDIRECT_eq] at *
    omega

theorem Extent.congr {disk' : Disk} {ip' : Dinode} {length : ℕ}
    (hextent : Extent disk ip length)
    (hslots : ∀ slot, inodeSlot disk' ip' slot = inodeSlot disk ip slot) :
    Extent disk' ip' length where
  blocks bn hbn := by
    rw [fileBlock, hslots]
    exact hextent.blocks bn hbn
  indirect := by
    rw [hslots]
    exact hextent.indirect

section
variable {cur : ℕ → Dinode} {inum : ℕ} {image : Image} {din : Dinode}
  (hfree : Free image) (hlayout : Layout sb (marked image) (update cur inum din))
  (hinum : inum < sb.ninodes) (htype : din.type ≠ 0)
include hfree hlayout hinum htype

theorem appendBlock_spec (hextent : Extent (marked image) din off) (hlimit : off / BSIZE < MAXFILE)
    (hroom : image.freeblock + (blocksFor (off + 1) - blocksFor off) ≤ FSSIZE) :
    ∃ b after din', appendBlock image din (off / BSIZE) = .ok (b, after, din') ∧
      bmap sb (marked image) din (off / BSIZE) = .ok (b, marked after, din') ∧
      Free after ∧ after.freeinode = image.freeinode ∧
      after.freeblock = image.freeblock + (blocksFor (off + 1) - blocksFor off) ∧
      Extent (marked after) din' (off + 1) := by
  have hhere := hextent.blocks (off / BSIZE) hlimit
  have hnone : fileBlock (marked image) din (off / BSIZE) = none ↔ off % BSIZE = 0 := by
    rw [← not_isSome_iff_eq_none, hhere]
    simp only [BSIZE_eq]
    omega
  by_cases hdirect : off / BSIZE < NDIRECT
  · have hslot : blockSlot (off / BSIZE) = off / BSIZE := if_pos hdirect
    have haddr : addr din (off / BSIZE) = 0 ↔ off % BSIZE = 0 := by
      rw [← hnone, fileBlock, hslot, inodeSlot_addr _ din (Nat.lt_succ_of_lt hdirect),
        pointer_eq_none]
    have hcost : blocksFor (off + 1) - blocksFor off =
        if addr din (off / BSIZE) = 0 then 1 else 0 := by
      simp only [BSIZE_eq, NDIRECT_eq] at hdirect
      rw [blocksFor_eq, blocksFor_eq, if_neg (by omega), if_neg (by omega)]
      by_cases hstart : off % BSIZE = 0
      · rw [if_pos (haddr.mpr hstart)]
        simp only [BSIZE_eq] at hstart
        omega
      · rw [if_neg (hstart ∘ haddr.mp)]
        simp only [BSIZE_eq] at hstart
        omega
    obtain ⟨b, after, din', halloc, hvalue, hmap, hfree', hinode, hb, hslots⟩ :=
      allocAddr_spec hfree hlayout hinum htype (Nat.lt_succ_of_lt hdirect) (fun hnil => by
          rw [hcost, if_pos hnil] at hroom
          exact hroom)
    refine ⟨b, after, din', ?_, ?_, hfree', hinode, by rw [hb, hcost], ?_, ?_⟩
    · rw [appendBlock, if_pos hdirect, halloc]
      simp only [hvalue]
      rfl
    · rw [bmap, if_pos hdirect, hmap]
    · intro bn hbn
      rw [fileBlock, hslots]
      split
      case isTrue heq =>
        have hsame := blockSlot_injective (heq.trans hslot.symm)
        simp only [isSome_some, true_iff, hsame, BSIZE_eq]
        omega
      case isFalse hne =>
        have ho : bn ≠ off / BSIZE := by
          rintro rfl
          exact hne hslot
        rw [← fileBlock, hextent.blocks bn hbn]
        simp only [BSIZE_eq] at *
        omega
    · rw [hslots, if_neg (by omega), hextent.indirect]
      simp only [BSIZE_eq, NDIRECT_eq] at *
      omega
  · have hindir : addr din NDIRECT = 0 ↔ off = NDIRECT * BSIZE := by
      have hslot := hextent.indirect
      rw [inodeSlot_addr _ din (Nat.lt_succ_self NDIRECT)] at hslot
      rw [← pointer_eq_none, ← not_isSome_iff_eq_none, hslot]
      simp only [BSIZE_eq, NDIRECT_eq] at *
      omega
    have hcost : blocksFor (off + 1) - blocksFor off = (if addr din NDIRECT = 0 then 1 else 0) +
          if off % BSIZE = 0 then 1 else 0 := by
      have hlow : 12288 ≤ off := by
        simp only [BSIZE_eq, NDIRECT_eq] at hdirect
        omega
      rw [blocksFor_eq, blocksFor_eq, if_pos (by omega)]
      by_cases hedge : off = NDIRECT * BSIZE
      · have hstart : off % BSIZE = 0 := by rw [hedge, Nat.mul_mod_left]
        rw [if_pos (hindir.mpr hedge), if_pos hstart]
        simp only [BSIZE_eq, NDIRECT_eq] at hedge
        rw [if_neg (by omega)]
        omega
      · rw [if_neg (hedge ∘ hindir.mp)]
        simp only [BSIZE_eq, NDIRECT_eq] at hedge
        rw [if_pos (by omega)]
        split
        case isTrue hstart =>
          simp only [BSIZE_eq] at hstart
          omega
        case isFalse hstart =>
          simp only [BSIZE_eq] at hstart
          omega
    obtain ⟨b₁, image₁, din₁, halloc₁, hvalue₁, hmap₁, hfree₁, hinode₁, hblock₁,
      hslots₁⟩ := allocAddr_spec hfree hlayout hinum htype (Nat.lt_succ_self NDIRECT)
        (fun hnil => by
          rw [hcost, if_pos hnil] at hroom
          omega)
    obtain ⟨hgrows, hslot₁⟩ := bmapAddr_spec hlayout hinum htype (Nat.lt_succ_self NDIRECT) hmap₁
    have htype₁ : din₁.type ≠ 0 := hgrows.type_eq ▸ htype
    have hpointer : addr din₁ NDIRECT ≠ 0 := by
      intro hzero
      rw [inodeSlot_addr _ din₁ (Nat.lt_succ_self NDIRECT), pointer_eq_none.mpr hzero] at hslot₁
      cases hslot₁
    have hsame : fileBlock (marked image₁) din₁ (off / BSIZE) =
        fileBlock (marked image) din (off / BSIZE) := by
      rw [fileBlock, hslots₁, if_neg (blockSlot_ne _)]
      rfl
    obtain ⟨b, after, he, hmap, hfree', hinode, hb, hslots⟩ :=
      allocEntry_spec hfree₁ hgrows.layout hinum htype₁ hdirect hlimit hpointer (fun hnil => by
          rw [hsame, hnone] at hnil
          rw [hcost, if_pos hnil] at hroom
          omega)
    refine ⟨b, after, din₁, ?_, ?_, hfree', hinode.trans hinode₁, ?_, ?_, ?_⟩
    · rw [appendBlock, if_neg hdirect, halloc₁]
      simp only [he, ok_bind]
      rfl
    · rw [← hmap, bmap, bmap, if_neg hdirect, if_neg hdirect, hmap₁,
        bmapAddr_present sb (pointer_of_ne hpointer), hvalue₁]
    · rw [hb, hblock₁, hcost, hsame]
      simp only [hnone]
      omega
    · intro bn hbn
      rw [fileBlock, hslots]
      split
      case isTrue heq =>
        have hsame := blockSlot_injective heq
        simp only [isSome_some, true_iff, hsame, BSIZE_eq]
        omega
      case isFalse hne =>
        have ho : bn ≠ off / BSIZE := by
          rintro rfl
          exact hne rfl
        rw [hslots₁, if_neg (blockSlot_ne bn), ← fileBlock, hextent.blocks bn hbn]
        simp only [BSIZE_eq] at *
        omega
    · rw [hslots, if_neg (Ne.symm (blockSlot_ne _)), hslots₁, if_pos rfl]
      simp only [isSome_some, true_iff, BSIZE_eq, NDIRECT_eq] at *
      omega

end

/-! ## The loop of `iappend` -/

/-- Inode `inum`, with the copy `din`, holds `bytes`. -/
structure Appending (cur : ℕ → Dinode) (inum : ℕ) (image : Image) (din : Dinode)
    (bytes : List Byte) : Prop where
  free : Free image
  layout : Layout sb (marked image) (update cur inum din)
  type : din.type ≠ 0
  extent : Extent (marked image) din bytes.length
  content : ∀ position, fileByte (marked image) din position = bytes.getD position 0

/-- What `iappend` keeps. -/
structure Kept (cur : ℕ → Dinode) (inum : ℕ) (image after : Image) (din din' : Dinode) :
    Prop where
  others : OthersKept sb cur inum (marked image) (marked after)
  inodes : ∀ c < sb.bmapstart, after.disk c = image.disk c
  fields : ∃ addrs, din' = { din with addrs := addrs }
  freeinode : after.freeinode = image.freeinode

theorem Kept.refl (cur : ℕ → Dinode) (inum : ℕ) (image : Image) (din : Dinode) :
    Kept cur inum image image din din :=
  ⟨OthersKept.refl sb cur inum _, fun _ _ => rfl, ⟨din.addrs, rfl⟩, rfl⟩

theorem Kept.trans {middle after : Image}
    {din₁ din₂ : Dinode} (hfst : Kept cur inum image middle din din₁)
    (hsnd : Kept cur inum middle after din₁ din₂) :
    Kept cur inum image after din din₂ where
  others := hfst.others.trans hsnd.others
  inodes c hc := (hsnd.inodes c hc).trans (hfst.inodes c hc)
  fields := by
    obtain ⟨_, rfl⟩ := hfst.fields
    obtain ⟨addrs, rfl⟩ := hsnd.fields
    exact ⟨addrs, rfl⟩
  freeinode := hsnd.freeinode.trans hfst.freeinode

theorem marked_below (image : Image) (hc : c < sb.bmapstart) :
    marked image c = image.disk c :=
  marked_of_ne image hc.ne

theorem appendChunk {bytes chunk : List Byte} (happending : Appending cur inum image din bytes)
    (hinum : inum < sb.ninodes) (hpos : 0 < chunk.length)
    (hchunk : chunk.length ≤ BSIZE - bytes.length % BSIZE) (hlimit : bytes.length / BSIZE < MAXFILE)
    (hroom : image.freeblock + (blocksFor (bytes.length + 1) - blocksFor bytes.length) ≤ FSSIZE) :
    ∃ x middle din', appendBlock image din (bytes.length / BSIZE) =
        .ok (x, middle, din') ∧ rsect middle x = .ok (middle.disk x) ∧
      Appending cur inum (wsect middle x
        (overwrite (middle.disk x) (bytes.length % BSIZE) chunk)) din' (bytes ++ chunk) ∧
      Kept cur inum image (wsect middle x
        (overwrite (middle.disk x) (bytes.length % BSIZE) chunk)) din din' ∧
      middle.freeblock = image.freeblock +
        (blocksFor (bytes.length + 1) - blocksFor bytes.length) := by
  obtain ⟨hfree, hlayout, htype, hextent, hcontent⟩ := happending
  obtain ⟨x, middle, din', hb, hmap, hfree', hinode, hcount, hextent'⟩ :=
    appendBlock_spec hfree hlayout hinum htype hextent hlimit hroom
  obtain ⟨hgrows, hfile⟩ := bmap_spec hlayout hinum htype hmap
  have htype' : din'.type ≠ 0 := hgrows.type_eq ▸ htype
  obtain ⟨hlow, hused⟩ := slot_lt hfree' hgrows.layout hinum htype' hfile
  have hne := ne_bmapstart hlow
  have hwritten := written_chunk hlayout hinum htype hmap hchunk le_rfl le_rfl
  have hstored : marked (wsect middle x (overwrite (middle.disk x) (bytes.length % BSIZE) chunk)) =
      update (marked middle) x (overwrite (marked middle x) (bytes.length % BSIZE) chunk) := by
    rw [marked_wsect middle hne, marked_of_ne middle hne]
  refine ⟨x, middle, din', hb, ?_, ⟨hfree'.wsect hused _, ?_, htype', ?_, ?_⟩,
    ⟨?_, ?_, hgrows.fields, hinode⟩, hcount⟩
  · have hin : x < FSSIZE := lt_of_lt_of_le hused hfree'.high
    rw [rsect, if_pos hin]
  · rw [hstored]
    exact hwritten.layout
  · rw [hstored, length_append]
    exact (hextent'.chunk hpos hchunk).congr (inodeSlot_store hgrows.layout hinum htype' hfile _)
  · intro position
    rw [hstored, fileByte_chunk hlayout hinum htype hmap hchunk, hcontent]
    by_cases hold : position < bytes.length
    · rw [if_neg (by omega), getD_append _ _ _ _ hold]
    · rw [getD_append_right _ _ _ _ (by omega)]
      by_cases hnew : position < bytes.length + chunk.length
      · rw [if_pos ⟨by omega, hnew⟩]
      · rw [if_neg (by omega), getD_eq_default _ _ (by omega), getD_eq_default _ _ (by omega)]
  · rw [hstored]
    exact hwritten.others
  · intro c hc
    have hkept := hwritten.inodes c hc
    rw [← hstored, marked_below _ hc, marked_below _ hc] at hkept
    exact hkept

theorem iappendLoop_spec (hinum : inum < sb.ninodes)
    (fuel : ℕ) : ∀ (image : Image) (din : Dinode) (bytes p : List Byte),
      Appending cur inum image din bytes → p.length ≤ fuel → (bytes ++ p).length ≤ MAXFILE * BSIZE →
      image.freeblock + (blocksFor (bytes ++ p).length - blocksFor bytes.length) ≤ FSSIZE →
      ∃ after din', iappendLoop fuel image din bytes.length p =
          .ok (after, din', (bytes ++ p).length) ∧ Appending cur inum after din' (bytes ++ p) ∧
        Kept cur inum image after din din' ∧ after.freeblock = image.freeblock +
          (blocksFor (bytes ++ p).length - blocksFor bytes.length) := by
  induction fuel with
  | zero =>
    intro image din bytes p happending hfuel hsize hroom
    obtain rfl := length_eq_zero_iff.mp (Nat.le_zero.mp hfuel)
    rw [append_nil]
    exact ⟨image, din, rfl, happending, Kept.refl _ _ _ _, by omega⟩
  | succ fuel ih =>
    intro image din bytes p happending hfuel hsize hroom
    rw [length_append] at hsize hroom ⊢
    by_cases hmore : 0 < p.length
    · obtain ⟨n1, hn1⟩ : ∃ n1, n1 = min p.length
        ((bytes.length / BSIZE + 1) * BSIZE - bytes.length) := ⟨_, rfl⟩
      have hmod : bytes.length - bytes.length / BSIZE * BSIZE =
          bytes.length % BSIZE := by
        simp only [BSIZE_eq]
        omega
      have hn1' : n1 = min p.length (BSIZE - bytes.length % BSIZE) := by
        rw [hn1]
        simp only [BSIZE_eq]
        omega
      have hpos : 0 < n1 := by
        rw [hn1']
        simp only [BSIZE_eq]
        omega
      have hlen : (p.take n1).length = n1 := by
        rw [length_take]
        omega
      have hlimit : bytes.length / BSIZE < MAXFILE := by
        simp only [BSIZE_eq, MAXFILE_eq] at *
        omega
      have hfst := blocksFor_chunk bytes.length hpos (by omega)
      have hmono : blocksFor (bytes.length + n1) ≤
          blocksFor (bytes.length + p.length) := blocksFor_mono (by omega)
      have hmono' : blocksFor bytes.length ≤ blocksFor (bytes.length + n1) :=
        blocksFor_mono (by omega)
      obtain ⟨x, middle, din₁, hb, hread, happending₁, hkept, hcount⟩ :=
        appendChunk happending hinum (by omega : 0 < (p.take n1).length) (by omega)
          hlimit (by omega)
      have hrest : bytes ++ p.take n1 ++ p.drop n1 = bytes ++ p := by
        rw [append_assoc, take_append_drop]
      have hoff : (bytes ++ p.take n1).length = bytes.length + n1 := by rw [length_append, hlen]
      have hcount' : (wsect middle x (overwrite (middle.disk x)
          (bytes.length % BSIZE) (p.take n1))).freeblock = image.freeblock +
            (blocksFor (bytes.length + 1) - blocksFor bytes.length) := hcount
      obtain ⟨after, din₂, hloop, happending₂, hkept₂, hcount₂⟩ :=
        ih _ din₁ (bytes ++ p.take n1) (p.drop n1) happending₁ (by rw [length_drop]; omega)
          (by rw [hrest, length_append]; exact hsize)
          (by rw [hrest, length_append, hoff, hcount']; omega)
      rw [hrest] at hloop happending₂ hcount₂
      rw [length_append] at hcount₂
      rw [@length_append _ bytes p] at hloop
      refine ⟨after, din₂, ?_, happending₂, hkept.trans hkept₂, ?_⟩
      · rw [iappendLoop, if_pos hmore]
        simp only [hlimit, not_true_eq_false, if_false, hb, ok_bind, ← hn1, hread, hmod]
        rw [hoff] at hloop
        exact hloop
      · rw [hcount₂, hcount', hoff]
        omega
    · obtain rfl : p = [] := length_eq_zero_iff.mp (by omega)
      rw [iappendLoop, if_neg hmore, append_nil]
      exact ⟨image, din, rfl, happending, Kept.refl _ _ _ _, by simp⟩

end Xv6.MkfsAppend
