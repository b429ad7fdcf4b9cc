import Xv6.Core.Assignment
import Xv6.Core.Outcome
import Xv6.Fs.InodeContent

/-!
# Which inode owns which block

An inode records block numbers at positions that we call slots: its `addrs`, and
the entries of its indirect block.  `Layout` says that the bitmap agrees with the
slots of all allocated inodes.  `cur` gives the current copy of every inode: for
a locked inode the one in memory, which may be ahead of the disk.
-/

namespace Xv6.BlockOwnership

open DiskLog DiskFormat InodeContent Assignment Function

variable {sb : Superblock} {disk disk' : Disk}
variable {b inum index slot : ℕ} {value : BitVec 32} {ip : Dinode} {disk'' : Disk}
  {cur : ℕ → Dinode} {position : ℕ × ℕ}

def pointer (value : BitVec 32) : Option ℕ := if value = 0 then none else some value.toNat

/-- The block that an inode records at a slot.  Slots `0..NDIRECT` are `addrs`;
slot `NDIRECT + 1 + i` is entry `i` of the indirect block. -/
def inodeSlot (disk : Disk) (ip : Dinode) (slot : ℕ) : Option ℕ :=
  if slot < NDIRECT + 1 then pointer (addr ip slot)
  else if addr ip NDIRECT = 0 ∨ NINDIRECT ≤ slot - (NDIRECT + 1) then none
  else pointer (indirectEntry (disk (addr ip NDIRECT).toNat) (slot - (NDIRECT + 1)))

/-- The block that slot `position.2` of inode `position.1` owns.  A free inode
owns nothing. -/
def held (sb : Superblock) (disk : Disk) (cur : ℕ → Dinode) (position : ℕ × ℕ) : Option ℕ :=
  if position.1 < sb.ninodes ∧ (cur position.1).type ≠ 0 then
    inodeSlot disk (cur position.1) position.2
  else none

/-- A block of the data area that the bitmap marks as used. -/
def Used (sb : Superblock) (disk : Disk) (b : ℕ) : Prop :=
  sb.dataStart ≤ b ∧ b < sb.size ∧ bitSet sb disk b = true

/-- The bitmap is exact: all metadata blocks are marked, and a block of the data
area is marked if and only if exactly one slot of one inode owns it. -/
structure Layout (sb : Superblock) (disk : Disk) (cur : ℕ → Dinode) : Prop where
  owners : Exact (Used sb disk) (held sb disk cur)
  metadata : ∀ b < sb.dataStart, bitSet sb disk b = true

/-! ## The areas of the disk -/

theorem bmapstart_le_BBLOCK (sb : Superblock) (b : ℕ) :
    sb.bmapstart ≤ BBLOCK sb b := Nat.le_add_left _ _

theorem BBLOCK_lt_dataStart (sb : Superblock) (hb : b < sb.size) :
    BBLOCK sb b < sb.dataStart := by
  have hblock : b / BPB ≤ sb.size / BPB := Nat.div_le_div_right hb.le
  simp only [BBLOCK, Superblock.dataStart]
  omega

theorem IBLOCK_lt_bmapstart (sb : Superblock)
    (hinum : inum < sb.ninodes) : IBLOCK sb inum < sb.bmapstart := by
  have hb : inum / IPB ≤ sb.ninodes / IPB := Nat.div_le_div_right hinum.le
  have hfit := sb.inodesFit
  simp only [IBLOCK]
  omega

theorem bmapstart_lt_dataStart (sb : Superblock) : sb.bmapstart < sb.dataStart :=
  Nat.lt_add_of_pos_right (Nat.succ_pos _)

theorem readDinode_congr (hinum : inum < sb.ninodes)
    (hkept : ∀ c < sb.bmapstart, disk' c = disk c) :
    readDinode sb disk' inum = readDinode sb disk inum := by
  rw [readDinode, readDinode, hkept _ (IBLOCK_lt_bmapstart sb hinum)]

theorem bitSet_congr (hkept : disk' (BBLOCK sb b) = disk (BBLOCK sb b)) :
    bitSet sb disk' b = bitSet sb disk b := by
  rw [bitSet, bitSet, hkept]

theorem pointer_eq_none : pointer value = none ↔ value = 0 := by simp [pointer]

theorem pointer_of_ne (hvalue : value ≠ 0) :
    pointer value = some value.toNat := if_neg hvalue

theorem pointer_ofNat (sb : Superblock) (hlow : sb.dataStart ≤ b)
    (hhigh : b < sb.size) : pointer (BitVec.ofNat 32 b) = some b := by
  have hpos : 0 < b := (Nat.zero_le _).trans_lt ((bmapstart_lt_dataStart sb).trans_le hlow)
  have hnat : (BitVec.ofNat 32 b).toNat = b := by
    rw [BitVec.toNat_ofNat]
    exact Nat.mod_eq_of_lt (by have := sb.size_lt; omega)
  have hne : BitVec.ofNat 32 b ≠ 0 := by
    intro hzero
    rw [hzero] at hnat
    simp at hnat
    omega
  rw [pointer_of_ne hne, hnat]

/-! ## Slots of one inode -/

theorem addr_setAddr (ip : Dinode) (value : BitVec 32)
    (hi : index < NDIRECT + 1) (other : ℕ) :
    addr (setAddr ip index value) other =
      if other = index then value else addr ip other := by
  by_cases ho : other = index
  · subst ho
    simp [addr, setAddr, hi]
  · simp [addr, setAddr, ho]

theorem inodeSlot_addr (disk : Disk) (ip : Dinode) (hslot : slot < NDIRECT + 1) :
    inodeSlot disk ip slot = pointer (addr ip slot) := if_pos hslot

theorem inodeSlot_entry (disk : Disk) (hindir : addr ip NDIRECT ≠ 0) (hi : index < NINDIRECT) :
    inodeSlot disk ip (NDIRECT + 1 + index) =
      pointer (indirectEntry (disk (addr ip NDIRECT).toNat) index) := by
  have hsub : NDIRECT + 1 + index - (NDIRECT + 1) = index := by omega
  rw [inodeSlot, if_neg (by omega), hsub, if_neg (by simp only [hindir, false_or]; omega)]

theorem inodeSlot_congr (hkept : ∀ b, inodeSlot disk ip NDIRECT = some b → disk' b = disk b)
    (slot : ℕ) : inodeSlot disk' ip slot = inodeSlot disk ip slot := by
  by_cases hindir : addr ip NDIRECT = 0
  · simp [inodeSlot, hindir]
  · have hb := hkept (addr ip NDIRECT).toNat (by
      rw [inodeSlot_addr disk ip (Nat.lt_succ_self NDIRECT)]
      exact pointer_of_ne hindir)
    simp only [inodeSlot, hb]

/-! ## Taking a block from the bitmap and giving it back -/

/-- What `balloc` does when it returns block `b`. -/
structure Allocated (sb : Superblock) (disk disk' : Disk) (b : ℕ) : Prop where
  low : sb.dataStart ≤ b
  high : b < sb.size
  fresh : ¬ Used sb disk b
  bits : ∀ c < sb.size, bitSet sb disk' c = (bitSet sb disk c || decide (c = b))
  zero : disk' b = fun _ => 0
  inodes : ∀ c < sb.bmapstart, disk' c = disk c
  kept : ∀ c, sb.dataStart ≤ c → c ≠ b → disk' c = disk c

/-- What `bfree` does to block `b`. -/
structure Freed (sb : Superblock) (disk disk' : Disk) (b : ℕ) : Prop where
  bits : ∀ c, bitSet sb disk' c = (bitSet sb disk c && decide (c ≠ b))
  inodes : ∀ c < sb.bmapstart, disk' c = disk c
  kept : ∀ c, sb.dataStart ≤ c → disk' c = disk c

theorem balloc_spec (hmetadata : ∀ c < sb.dataStart, bitSet sb disk c = true)
    (hballoc : balloc sb disk = .ok (b, disk')) : Allocated sb disk disk' b := by
  rw [balloc] at hballoc
  split at hballoc
  case h_2 => cases hballoc
  case h_1 found hfind =>
    cases hballoc
    have hclear : bitSet sb disk b = false := by simpa using List.find?_some hfind
    have hhigh : b < sb.size := List.mem_range.mp (List.mem_of_find?_eq_some hfind)
    have hlow : sb.dataStart ≤ b := by
      by_contra hbelow
      rw [hmetadata b (by omega)] at hclear
      cases hclear
    have hbitmap := BBLOCK_lt_dataStart sb hhigh
    have hinodes := bmapstart_le_BBLOCK sb b
    have harea := bmapstart_lt_dataStart sb
    constructor
    case low => exact hlow
    case high => exact hhigh
    case fresh =>
      rintro ⟨-, -, hset⟩
      rw [hclear] at hset
      cases hset
    case bits =>
      intro c hc
      have hne : BBLOCK sb c ≠ b := by
        have := BBLOCK_lt_dataStart sb hc
        omega
      rw [bzero, bitSet_congr (update_of_ne hne _ _), bitSet_markUsed]
    case zero => exact update_self _ _ _
    case inodes =>
      intro c hc
      rw [bzero, update_of_ne (by omega), markUsed, update_of_ne (by omega)]
    case kept =>
      intro c hc hne
      rw [bzero, update_of_ne hne, markUsed, update_of_ne (by omega)]

theorem bfree_spec {disk : Disk} (hused : Used sb disk b) :
    ∃ disk', bfree sb disk b = .ok disk' ∧ Freed sb disk disk' b := by
  obtain ⟨hlow, hhigh, hset⟩ := hused
  have hbitmap := BBLOCK_lt_dataStart sb hhigh
  have hinodes := bmapstart_le_BBLOCK sb b
  refine ⟨markFree sb disk b, if_pos hset, bitSet_markFree sb disk b, ?_, ?_⟩
  · intro c hc
    exact update_of_ne (by omega) _ _
  · intro c hc
    exact update_of_ne (by omega) _ _

theorem Allocated.used (halloc : Allocated sb disk disk' b) (c : ℕ) :
    Used sb disk' c ↔ Used sb disk c ∨ c = b := by
  by_cases hc : c < sb.size
  · by_cases heq : c = b
    · subst heq
      simp [Used, halloc.bits c hc, halloc.low, hc]
    · simp [Used, halloc.bits c hc, heq]
  · have hne : c ≠ b := fun heq => hc (heq ▸ halloc.high)
    simp [Used, hc, hne]

theorem Freed.used (hfreed : Freed sb disk disk' b) (c : ℕ) :
    Used sb disk' c ↔ Used sb disk c ∧ c ≠ b := by
  simp only [Used, hfreed.bits, Bool.and_eq_true, decide_eq_true_eq]
  tauto

/-- Freeing blocks keeps the contents of all blocks. -/
structure BlocksKept (sb : Superblock) (disk disk' : Disk) : Prop where
  inodes : ∀ c < sb.bmapstart, disk' c = disk c
  kept : ∀ c, sb.dataStart ≤ c → disk' c = disk c

theorem BlocksKept.refl (sb : Superblock) (disk : Disk) : BlocksKept sb disk disk :=
  ⟨fun _ _ => rfl, fun _ _ => rfl⟩

theorem BlocksKept.trans {disk disk' : Disk}
    (hfst : BlocksKept sb disk disk') (hsnd : BlocksKept sb disk' disk'') :
    BlocksKept sb disk disk'' :=
  ⟨fun c hc => (hsnd.inodes c hc).trans (hfst.inodes c hc),
    fun c hc => (hsnd.kept c hc).trans (hfst.kept c hc)⟩

theorem Freed.blocksKept (hfreed : Freed sb disk disk' b) : BlocksKept sb disk disk' :=
  ⟨hfreed.inodes, hfreed.kept⟩

theorem Freed.metadata (hfreed : Freed sb disk disk' b) (hlow : sb.dataStart ≤ b)
    (hmetadata : ∀ c < sb.dataStart, bitSet sb disk c = true) :
    ∀ c < sb.dataStart, bitSet sb disk' c = true := by
  intro c hc
  have hne : c ≠ b := by omega
  simp [hfreed.bits, hmetadata c hc, hne]

/-! ## Operations on one inode -/

/-- An operation on inode `inum` keeps the blocks of all other inodes. -/
def OthersKept (sb : Superblock) (cur : ℕ → Dinode) (inum : ℕ) (disk disk' : Disk) : Prop :=
  ∀ position b, position.1 ≠ inum → held sb disk cur position = some b → disk' b = disk b

theorem OthersKept.held_eq (hkept : OthersKept sb cur inum disk disk') (hpos : position.1 ≠ inum) :
    held sb disk' cur position = held sb disk cur position := by
  by_cases halloc : position.1 < sb.ninodes ∧ (cur position.1).type ≠ 0
  · rw [held, held, if_pos halloc, if_pos halloc]
    refine inodeSlot_congr (fun b hb => ?_) position.2
    refine hkept (position.1, NDIRECT) b hpos ?_
    rw [held, if_pos halloc]
    exact hb
  · rw [held, held, if_neg halloc, if_neg halloc]

theorem OthersKept.refl (sb : Superblock) (cur : ℕ → Dinode) (inum : ℕ)
    (disk : Disk) : OthersKept sb cur inum disk disk :=
  fun _ _ _ _ => rfl

theorem OthersKept.trans {disk disk' : Disk} (hfst : OthersKept sb cur inum disk disk')
    (hsnd : OthersKept sb cur inum disk' disk'') : OthersKept sb cur inum disk disk'' := by
  intro position b hpos hheld
  have hmiddle := hfst.held_eq hpos
  rw [hsnd position b hpos (hmiddle.trans hheld), hfst position b hpos hheld]

theorem held_update_of_ne (sb : Superblock) (disk : Disk) (cur : ℕ → Dinode)
    (ip : Dinode) (hpos : position.1 ≠ inum) :
    held sb disk (update cur inum ip) position = held sb disk cur position := by
  rw [held, held, update_of_ne hpos]

theorem held_update_self (disk : Disk) (cur : ℕ → Dinode)
    (hinum : inum < sb.ninodes) (htype : ip.type ≠ 0) (slot : ℕ) :
    held sb disk (update cur inum ip) (inum, slot) = inodeSlot disk ip slot := by
  rw [held, update_self, if_pos ⟨hinum, htype⟩]

section
variable {sb : Superblock} {cur : ℕ → Dinode} {inum : ℕ} {disk disk' : Disk} {ip ip' : Dinode}

theorem held_replace {value : Option ℕ} (hinum : inum < sb.ninodes)
    (htype : ip.type ≠ 0) (htype' : ip'.type ≠ 0)
    (hothers : OthersKept sb cur inum disk disk')
    (hslots : ∀ other, inodeSlot disk' ip' other =
      if other = slot then value else inodeSlot disk ip other)
    (position : ℕ × ℕ) :
    held sb disk' (update cur inum ip') position =
      update (held sb disk (update cur inum ip)) (inum, slot) value position := by
  obtain ⟨owner, other⟩ := position
  by_cases howner : owner = inum
  · subst howner
    rw [held_update_self disk' cur hinum htype', hslots]
    by_cases ho : other = slot
    · rw [if_pos ho, ho, update_self]
    · rw [if_neg ho, update_of_ne (by simpa using ho), held_update_self disk cur hinum htype]
  · rw [held_update_of_ne sb disk' cur ip' howner, update_of_ne (by simp [howner]),
      held_update_of_ne sb disk cur ip howner, hothers.held_eq howner]

theorem Layout.used_slot (hlay : Layout sb disk (update cur inum ip))
    (hinum : inum < sb.ninodes) (htype : ip.type ≠ 0)
    (hslot : inodeSlot disk ip slot = some b) : Used sb disk b :=
  hlay.owners.marked (inum, slot) b ((held_update_self disk cur hinum htype slot).trans hslot)

theorem Layout.slot_unique (hlay : Layout sb disk (update cur inum ip))
    (hinum : inum < sb.ninodes) (htype : ip.type ≠ 0) {left right : ℕ}
    (hleft : inodeSlot disk ip left = some b)
    (hright : inodeSlot disk ip right = some b) : left = right := by
  have hpos := hlay.owners.unique (inum, left) (inum, right) b
    ((held_update_self disk cur hinum htype left).trans hleft)
    ((held_update_self disk cur hinum htype right).trans hright)
  exact congrArg Prod.snd hpos

theorem Layout.other_ne (hlay : Layout sb disk (update cur inum ip))
    (hinum : inum < sb.ninodes) (htype : ip.type ≠ 0) {c : ℕ}
    (hslot : inodeSlot disk ip slot = some b) (hpos : position.1 ≠ inum)
    (hheld : held sb disk cur position = some c) : c ≠ b := by
  rintro rfl
  have heq := hlay.owners.unique position (inum, slot) c
    ((held_update_of_ne sb disk cur ip hpos).trans hheld)
    ((held_update_self disk cur hinum htype slot).trans hslot)
  exact hpos (congrArg Prod.fst heq)

theorem BlocksKept.others (hkept : BlocksKept sb disk disk')
    (hlay : Layout sb disk (update cur inum ip)) : OthersKept sb cur inum disk disk' := by
  intro position b hpos hheld
  have hused := hlay.owners.marked position b ((held_update_of_ne sb disk cur ip hpos).trans hheld)
  exact hkept.kept b hused.1

end

end Xv6.BlockOwnership
