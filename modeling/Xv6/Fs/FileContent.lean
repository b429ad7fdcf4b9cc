import Xv6.Fs.BlockOwnership

/-!
# The contents of files

`fileByte` is the byte of a file at a position, as the blocks of its inode hold
it.  Allocating a block changes no byte of any file, storing into a block of a
file changes only that file, and `readi` and `writei` transfer exactly the bytes
of the range they are called for.
-/

namespace Xv6.FileContent

open LittleEndian DiskLog DiskFormat InodeContent BlockOwnership Outcome Function

variable {disk : Disk} {ip : Dinode} {position b slot bn c index : ℕ}

def blockSlot (bn : ℕ) : ℕ := if bn < NDIRECT then bn else bn + 1

def fileBlock (disk : Disk) (ip : Dinode) (bn : ℕ) : Option ℕ := inodeSlot disk ip (blockSlot bn)

/-- Byte `position` of a file; a missing block reads as zeros. -/
def fileByte (disk : Disk) (ip : Dinode) (position : ℕ) : Byte :=
  match fileBlock disk ip (position / BSIZE) with
  | some b => byteAt (disk b) (position % BSIZE)
  | none => 0

theorem blockSlot_ne (bn : ℕ) : blockSlot bn ≠ NDIRECT := by
  rw [blockSlot]
  split <;> omega

theorem blockSlot_injective {left right : ℕ}
    (heq : blockSlot left = blockSlot right) : left = right := by
  simp only [blockSlot] at heq
  split at heq <;> split at heq <;> omega

theorem fileByte_of_block (hb : fileBlock disk ip (position / BSIZE) = some b) :
    fileByte disk ip position = byteAt (disk b) (position % BSIZE) := by
  simp only [fileByte, hb]

theorem fileByte_of_none (hb : fileBlock disk ip (position / BSIZE) = none) :
    fileByte disk ip position = 0 := by
  simp only [fileByte, hb]

/-! ## Allocating a block to a slot -/

/-- Slot `slot` of an inode, empty before, records a new block `b`. -/
structure Assigned (sb : Superblock) (disk disk' : Disk) (ip ip' : Dinode)
    (slot b : ℕ) : Prop where
  allocated : ∃ middle, Allocated sb disk middle b ∧
    (∀ c < sb.size, bitSet sb disk' c = bitSet sb middle c)
  empty : inodeSlot disk ip slot = none
  slots : ∀ other, inodeSlot disk' ip' other =
    if other = slot then some b else inodeSlot disk ip other
  zero : disk' b = fun _ => 0
  inodes : ∀ c < sb.bmapstart, disk' c = disk c
  kept : ∀ c, sb.dataStart ≤ c → c ≠ b → inodeSlot disk ip NDIRECT ≠ some c → disk' c = disk c
  fields : ∃ addrs, ip' = { ip with addrs := addrs }

section
variable {sb : Superblock} {cur : ℕ → Dinode} {inum : ℕ} {disk disk' : Disk} {ip ip' : Dinode}

theorem Assigned.type_eq (hassign : Assigned sb disk disk' ip ip' slot b) : ip'.type = ip.type := by
  obtain ⟨addrs, rfl⟩ := hassign.fields
  rfl

theorem Assigned.fresh (hassign : Assigned sb disk disk' ip ip' slot b) : ¬ Used sb disk b := by
  obtain ⟨middle, halloc, -⟩ := hassign.allocated
  exact halloc.fresh

theorem Assigned.used (hassign : Assigned sb disk disk' ip ip' slot b) (c : ℕ) :
    Used sb disk' c ↔ Used sb disk c ∨ c = b := by
  obtain ⟨middle, halloc, hbits⟩ := hassign.allocated
  rw [← halloc.used c]
  by_cases hc : c < sb.size
  · simp [Used, hbits c hc]
  · simp [Used, hc]

variable (hlayout : Layout sb disk (update cur inum ip))
  (hinum : inum < sb.ninodes) (htype : ip.type ≠ 0)
include hlayout hinum htype

theorem Assigned.kept_block (hassign : Assigned sb disk disk' ip ip' slot b)
    (hb : fileBlock disk ip bn = some c) : disk' c = disk c := by
  have hused := hlayout.used_slot hinum htype hb
  refine hassign.kept c hused.1 ?_ ?_
  · rintro rfl
    exact hassign.fresh hused
  · intro hindir
    exact blockSlot_ne bn (hlayout.slot_unique hinum htype hb hindir)

theorem Assigned.others (hassign : Assigned sb disk disk' ip ip' slot b) :
    OthersKept sb cur inum disk disk' := by
  intro position c hpos hheld
  have hused : Used sb disk c := hlayout.owners.marked position c
    ((held_update_of_ne sb disk cur ip hpos).trans hheld)
  refine hassign.kept c hused.1 ?_ ?_
  · rintro rfl
    exact hassign.fresh hused
  · intro hindir
    exact hlayout.other_ne hinum htype hindir hpos hheld rfl

theorem Assigned.layout (hassign : Assigned sb disk disk' ip ip' slot b) :
    Layout sb disk' (update cur inum ip') where
  owners := by
    have hnil : held sb disk (update cur inum ip) (inum, slot) =
        none :=
      (held_update_self disk cur hinum htype slot).trans hassign.empty
    exact (hlayout.owners.assign hassign.fresh hnil).congr hassign.used
      (held_replace hinum htype (hassign.type_eq ▸ htype)
        (hassign.others hlayout hinum htype) hassign.slots)
  metadata c hc := by
    obtain ⟨middle, halloc, hbits⟩ := hassign.allocated
    have hsize : c < sb.size := by
      have hlow := halloc.low
      have hhigh := halloc.high
      omega
    rw [hbits c hsize, halloc.bits c hsize, hlayout.metadata c hc, Bool.true_or]

theorem Assigned.content (hassign : Assigned sb disk disk' ip ip' slot b) (position : ℕ) :
    fileByte disk' ip' position = fileByte disk ip position := by
  have hslot := hassign.slots (blockSlot (position / BSIZE))
  by_cases hnew : blockSlot (position / BSIZE) = slot
  · rw [if_pos hnew] at hslot
    have hnone : fileBlock disk ip (position / BSIZE) = none := by
      rw [fileBlock, hnew]
      exact hassign.empty
    rw [fileByte_of_block hslot, fileByte_of_none hnone, hassign.zero]
    simp [byteAt]
  · rw [if_neg hnew] at hslot
    cases hb : fileBlock disk ip (position / BSIZE) with
    | none =>
      rw [fileByte_of_none hb]
      exact fileByte_of_none (hslot.trans hb)
    | some c =>
      rw [fileByte_of_block hb, fileByte_of_block (hslot.trans hb),
        hassign.kept_block hlayout hinum htype hb]

theorem assigned_addr (hi : index < NDIRECT + 1)
    (hnil : addr ip index = 0) (halloc : Allocated sb disk disk' b) :
    Assigned sb disk disk' ip (setAddr ip index (BitVec.ofNat 32 b)) index b where
  allocated := ⟨disk', halloc, fun _ _ => rfl⟩
  empty := by
    rw [inodeSlot_addr disk ip hi, hnil]
    rfl
  slots other := by
    by_cases ho : other < NDIRECT + 1
    · rw [inodeSlot_addr disk' _ ho, addr_setAddr ip _ hi]
      by_cases heq : other = index
      · rw [if_pos heq, if_pos heq]
        exact pointer_ofNat sb halloc.low halloc.high
      · rw [if_neg heq, if_neg heq, inodeSlot_addr disk ip ho]
    · rw [if_neg (by omega)]
      by_cases hindir : index = NDIRECT
      · -- The new indirect block is zero, so it has no entries.
        subst hindir
        have hb : (BitVec.ofNat 32 b).toNat = b := by
          rw [BitVec.toNat_ofNat]
          exact Nat.mod_eq_of_lt (by
            have := sb.size_lt
            have := halloc.high
            omega)
        have he : ∀ entry, indirectEntry (disk' b) entry = 0 := by
          intro entry
          rw [halloc.zero]
          exact readU32_zero BSIZE _
        simp [inodeSlot, ho, addr_setAddr ip _ hi, hnil, hb, he, pointer]
      · have haddr : addr (setAddr ip index (BitVec.ofNat 32 b)) NDIRECT =
            addr ip NDIRECT := by
          rw [addr_setAddr ip _ hi, if_neg (Ne.symm hindir)]
        have hsame : inodeSlot disk' ip other = inodeSlot disk ip other := by
          refine inodeSlot_congr (fun c hc => ?_) other
          have hused := hlayout.used_slot hinum htype hc
          refine halloc.kept c hused.1 ?_
          rintro rfl
          exact halloc.fresh hused
        rw [← hsame]
        simp only [inodeSlot, if_neg ho, haddr]
  zero := halloc.zero
  inodes := halloc.inodes
  kept c hc hne _ := halloc.kept c hc hne
  fields := ⟨_, rfl⟩

theorem assigned_entry (hindir : addr ip NDIRECT ≠ 0) (hi : index < NINDIRECT)
    (hnil : indirectEntry (disk (addr ip NDIRECT).toNat) index = 0)
    (halloc : Allocated sb disk disk' b) : Assigned sb disk (update disk' (addr ip NDIRECT).toNat
        (writeU32 (disk' (addr ip NDIRECT).toNat) (4 * index) (BitVec.ofNat 32 b)))
      ip ip (NDIRECT + 1 + index) b := by
  have hslot : inodeSlot disk ip NDIRECT = some (addr ip NDIRECT).toNat := by
    rw [inodeSlot_addr disk ip (Nat.lt_succ_self NDIRECT)]
    exact pointer_of_ne hindir
  have hused := hlayout.used_slot hinum htype hslot
  have harea := bmapstart_lt_dataStart sb
  have hlow := hused.1
  have hne : (addr ip NDIRECT).toNat ≠ b := by
    intro heq
    exact halloc.fresh (heq ▸ hused)
  have hbefore := halloc.kept _ hlow hne
  constructor
  case allocated =>
    refine ⟨disk', halloc, fun c hc => bitSet_congr ?_⟩
    have hbitmap := BBLOCK_lt_dataStart sb hc
    exact update_of_ne (by omega) _ _
  case empty =>
    rw [inodeSlot_entry disk hindir hi, hnil]
    rfl
  case slots =>
    intro other
    by_cases ho : other < NDIRECT + 1
    · rw [if_neg (by omega), inodeSlot_addr _ ip ho, inodeSlot_addr _ ip ho]
    · obtain ⟨entry, rfl⟩ := Nat.exists_eq_add_of_le (Nat.le_of_not_lt ho)
      by_cases he : entry < NINDIRECT
      · rw [inodeSlot_entry _ hindir he, inodeSlot_entry _ hindir he, update_self]
        by_cases heq : entry = index
        · subst heq
          rw [if_pos rfl, indirectEntry, readU32_writeU32_same _ _ _ (by
            simp only [BSIZE_eq, NINDIRECT_eq] at hi ⊢
            omega)]
          exact pointer_ofNat sb halloc.low halloc.high
        · rw [if_neg (by omega), indirectEntry, readU32_writeU32_disjoint _ _ _ _
            (by omega), hbefore]
          rfl
      · have hbeyond : NINDIRECT ≤ NDIRECT + 1 + entry - (NDIRECT + 1) := by omega
        rw [if_neg (by omega)]
        simp only [inodeSlot, if_neg ho, if_pos (Or.inr hbeyond)]
  case zero =>
    rw [update_of_ne (Ne.symm hne)]
    exact halloc.zero
  case inodes =>
    intro c hc
    rw [update_of_ne (by omega)]
    exact halloc.inodes c hc
  case kept =>
    intro c hc hnew hold
    have ho : c ≠ (addr ip NDIRECT).toNat := by
      rintro rfl
      exact hold hslot
    rw [update_of_ne ho]
    exact halloc.kept c hc hnew
  case fields => exact ⟨ip.addrs, rfl⟩

end

/-! ## Looking up and allocating the blocks of a file -/

/-- The inode may have gained blocks; no byte of any file has changed. -/
structure Grows (sb : Superblock) (cur : ℕ → Dinode) (inum : ℕ)
    (disk disk' : Disk) (ip ip' : Dinode) : Prop where
  layout : Layout sb disk' (update cur inum ip')
  others : OthersKept sb cur inum disk disk'
  inodes : ∀ c < sb.bmapstart, disk' c = disk c
  fields : ∃ addrs, ip' = { ip with addrs := addrs }
  content : ∀ position, fileByte disk' ip' position = fileByte disk ip position
  blocks : ∀ bn b, fileBlock disk ip bn = some b → fileBlock disk' ip' bn = some b

namespace Grows

variable {sb : Superblock} {cur : ℕ → Dinode} {inum : ℕ}
  {disk disk' disk'' : Disk} {ip ip' ip'' : Dinode}

theorem refl (hlayout : Layout sb disk (update cur inum ip)) :
    Grows sb cur inum disk disk ip ip where
  layout := hlayout
  others := OthersKept.refl sb cur inum disk
  inodes _ _ := rfl
  fields := ⟨ip.addrs, rfl⟩
  content _ := rfl
  blocks _ _ hb := hb

theorem trans (hfst : Grows sb cur inum disk disk' ip ip')
    (hsnd : Grows sb cur inum disk' disk'' ip' ip'') :
    Grows sb cur inum disk disk'' ip ip'' where
  layout := hsnd.layout
  others := hfst.others.trans hsnd.others
  inodes c hc := (hsnd.inodes c hc).trans (hfst.inodes c hc)
  fields := by
    obtain ⟨_, rfl⟩ := hfst.fields
    obtain ⟨addrs, rfl⟩ := hsnd.fields
    exact ⟨addrs, rfl⟩
  content position := (hsnd.content position).trans (hfst.content position)
  blocks bn b hb := hsnd.blocks bn b (hfst.blocks bn b hb)

theorem type_eq (hgrows : Grows sb cur inum disk disk' ip ip') : ip'.type = ip.type := by
  obtain ⟨addrs, rfl⟩ := hgrows.fields
  rfl

theorem size_eq (hgrows : Grows sb cur inum disk disk' ip ip') : ip'.size = ip.size := by
  obtain ⟨addrs, rfl⟩ := hgrows.fields
  rfl

end Grows

section
variable {sb : Superblock} {cur : ℕ → Dinode} {inum : ℕ} {disk disk' : Disk} {ip ip' : Dinode}
  (hlayout : Layout sb disk (update cur inum ip))
  (hinum : inum < sb.ninodes) (htype : ip.type ≠ 0)
include hlayout hinum htype

theorem Assigned.grows (hassign : Assigned sb disk disk' ip ip' slot b) :
    Grows sb cur inum disk disk' ip ip' where
  layout := hassign.layout hlayout hinum htype
  others := hassign.others hlayout hinum htype
  inodes := hassign.inodes
  fields := hassign.fields
  content := hassign.content hlayout hinum htype
  blocks bn c hb := by
    have hne : blockSlot bn ≠ slot := by
      rintro rfl
      rw [fileBlock, hassign.empty] at hb
      cases hb
    rw [fileBlock, hassign.slots, if_neg hne]
    exact hb

theorem bmapAddr_spec (hi : index < NDIRECT + 1)
    (hmap : bmapAddr sb disk ip index = .ok (b, disk', ip')) :
    Grows sb cur inum disk disk' ip ip' ∧ inodeSlot disk' ip' index = some b := by
  rw [bmapAddr] at hmap
  split at hmap
  case isTrue hnil =>
    obtain ⟨⟨found, middle⟩, hballoc, hrest⟩ := bind_eq_ok.mp hmap
    cases hrest
    have hassign := assigned_addr hlayout hinum htype hi hnil (balloc_spec hlayout.metadata hballoc)
    refine ⟨hassign.grows hlayout hinum htype, ?_⟩
    rw [hassign.slots, if_pos rfl]
  case isFalse hfull =>
    cases hmap
    refine ⟨Grows.refl hlayout, ?_⟩
    rw [inodeSlot_addr disk ip hi]
    exact pointer_of_ne hfull

theorem bmap_spec (hmap : bmap sb disk ip bn = .ok (b, disk', ip')) :
    Grows sb cur inum disk disk' ip ip' ∧ fileBlock disk' ip' bn = some b := by
  rw [bmap] at hmap
  split at hmap
  case isTrue hdirect =>
    rw [fileBlock, blockSlot, if_pos hdirect]
    exact bmapAddr_spec hlayout hinum htype (Nat.lt_succ_of_lt hdirect) hmap
  case isFalse hindir =>
    split at hmap
    case isFalse => cases hmap
    case isTrue hrange =>
      obtain ⟨⟨indirect, disk₁, ip₁⟩, haddr, hrest⟩ := bind_eq_ok.mp hmap
      obtain ⟨hgrows, hslot⟩ := bmapAddr_spec hlayout hinum htype (Nat.lt_succ_self NDIRECT) haddr
      have htype₁ : ip₁.type ≠ 0 := hgrows.type_eq ▸ htype
      rw [inodeSlot_addr disk₁ ip₁ (Nat.lt_succ_self NDIRECT)] at hslot
      have hne : addr ip₁ NDIRECT ≠ 0 := by
        intro hzero
        rw [pointer_eq_none.mpr hzero] at hslot
        cases hslot
      rw [pointer_of_ne hne, Option.some.injEq] at hslot
      subst hslot
      have hblockSlot : blockSlot bn = NDIRECT + 1 + (bn - NDIRECT) := by
        rw [blockSlot, if_neg hindir]
        omega
      rw [fileBlock, hblockSlot]
      dsimp only at hrest
      split at hrest
      case isTrue hnil =>
        obtain ⟨⟨found, middle⟩, hballoc, hlast⟩ := bind_eq_ok.mp hrest
        cases hlast
        have hassign := assigned_entry hgrows.layout hinum htype₁ hne hrange
          hnil (balloc_spec hgrows.layout.metadata hballoc)
        refine ⟨hgrows.trans (hassign.grows hgrows.layout hinum htype₁), ?_⟩
        rw [hassign.slots, if_pos rfl]
      case isFalse hfull =>
        cases hrest
        refine ⟨hgrows, ?_⟩
        rw [inodeSlot_entry disk' hne hrange]
        exact pointer_of_ne hfull

theorem inodeSlot_store (hb : fileBlock disk ip bn = some b)
    (data : Block) (slot : ℕ) :
    inodeSlot (update disk b data) ip slot = inodeSlot disk ip slot := by
  refine inodeSlot_congr (fun c hc => ?_) slot
  refine update_of_ne ?_ _ _
  rintro rfl
  exact blockSlot_ne bn (hlayout.slot_unique hinum htype hb hc)

theorem othersKept_store (hb : fileBlock disk ip bn = some b) (data : Block) :
    OthersKept sb cur inum disk (update disk b data) := by
  intro position c hpos hheld
  exact update_of_ne (hlayout.other_ne hinum htype hb hpos hheld) _ _

theorem inodes_store (hb : fileBlock disk ip bn = some b)
    (data : Block) (hc : c < sb.dataStart) : update disk b data c = disk c := by
  have hlow := (hlayout.used_slot hinum htype hb).1
  exact update_of_ne (by omega) _ _

theorem layout_store (hb : fileBlock disk ip bn = some b) (data : Block) :
    Layout sb (update disk b data) (update cur inum ip) where
  owners := by
    refine hlayout.owners.congr (fun c => ?_) fun position => ?_
    · by_cases hc : c < sb.size
      · have hbit := bitSet_congr (inodes_store hlayout hinum htype hb data
            (BBLOCK_lt_dataStart sb hc))
        simp only [Used, hbit]
      · simp only [Used, hc, false_and, and_false]
    · obtain ⟨owner, slot⟩ := position
      by_cases howner : owner = inum
      · subst howner
        rw [held_update_self _ cur hinum htype, held_update_self _ cur hinum htype,
          inodeSlot_store hlayout hinum htype hb data]
      · rw [held_update_of_ne sb _ cur ip howner, held_update_of_ne sb _ cur ip howner,
          (othersKept_store hlayout hinum htype hb data).held_eq howner]
  metadata c hc := by
    have hsize : c < sb.size := hc.trans_le sb.bitmapFits
    rw [bitSet_congr (inodes_store hlayout hinum htype hb data (BBLOCK_lt_dataStart sb hsize))]
    exact hlayout.metadata c hc

theorem fileByte_store (hb : fileBlock disk ip bn = some b)
    (data : Block) (position : ℕ) :
    fileByte (update disk b data) ip position =
      if position / BSIZE = bn then byteAt data (position % BSIZE)
      else fileByte disk ip position := by
  have hslots : ∀ other, fileBlock (update disk b data) ip other =
      fileBlock disk ip other :=
    fun other => inodeSlot_store hlayout hinum htype hb data _
  by_cases hpos : position / BSIZE = bn
  · have hsame : fileBlock (update disk b data) ip (position / BSIZE) = some b := by
      rw [hslots, hpos]
      exact hb
    rw [if_pos hpos, fileByte_of_block hsame, update_self]
  · rw [if_neg hpos]
    cases ho : fileBlock disk ip (position / BSIZE) with
    | none => rw [fileByte_of_none ho, fileByte_of_none ((hslots _).trans ho)]
    | some c =>
      have hne : c ≠ b := by
        rintro rfl
        exact hpos (blockSlot_injective (hlayout.slot_unique hinum htype ho hb))
      rw [fileByte_of_block ho, fileByte_of_block ((hslots _).trans ho), update_of_ne hne]

end

/-! ## Reading blocks that are there -/

theorem eq_of_pointer {value : BitVec 32}
    (hpointer : pointer value = some b) : value ≠ 0 ∧ value.toNat = b := by
  rw [pointer] at hpointer
  split at hpointer
  · cases hpointer
  · exact ⟨by assumption, Option.some.inj hpointer⟩

theorem bmapAddr_present (sb : Superblock) (hpointer : pointer (addr ip index) = some b) :
    bmapAddr sb disk ip index = .ok (b, disk, ip) := by
  obtain ⟨hne, hvalue⟩ := eq_of_pointer hpointer
  rw [bmapAddr, if_neg hne, hvalue]
  rfl

theorem bmap_present (sb : Superblock)
    (hb : fileBlock disk ip bn = some b) : bmap sb disk ip bn = .ok (b, disk, ip) := by
  rw [fileBlock, blockSlot] at hb
  by_cases hdirect : bn < NDIRECT
  · rw [if_pos hdirect, inodeSlot_addr disk ip (Nat.lt_succ_of_lt hdirect)] at hb
    rw [bmap, if_pos hdirect]
    exact bmapAddr_present sb hb
  · rw [if_neg hdirect, inodeSlot, if_neg (by omega)] at hb
    split at hb
    · cases hb
    · rename_i hrange
      rw [not_or] at hrange
      have hi : bn + 1 - (NDIRECT + 1) = bn - NDIRECT := by omega
      rw [hi] at hb
      obtain ⟨hne, hvalue⟩ := eq_of_pointer hb
      rw [bmap, if_neg hdirect, if_pos (by omega),
        bmapAddr_present sb (pointer_of_ne hrange.1), ok_bind]
      dsimp only
      rw [if_neg hne, hvalue]
      rfl

def fileBytes (disk : Disk) (ip : Dinode) (off count : ℕ) : List Byte :=
  (List.range count).map fun index => fileByte disk ip (off + index)

theorem fileBytes_append (disk : Disk) (ip : Dinode) (off first second : ℕ) :
    fileBytes disk ip off (first + second) = fileBytes disk ip off first ++
        fileBytes disk ip (off + first) second := by
  simp only [fileBytes, List.range_add, List.map_append, List.map_map,
    Function.comp_def, Nat.add_assoc]

theorem slice_eq_fileBytes {off count : ℕ}
    (hb : fileBlock disk ip (off / BSIZE) = some b) (hcount : count ≤ BSIZE - off % BSIZE) :
    slice (disk b) (off % BSIZE) count = fileBytes disk ip off count := by
  rw [slice, fileBytes]
  refine List.map_congr_left fun index hi => ?_
  rw [List.mem_range] at hi
  have hdiv : (off + index) / BSIZE = off / BSIZE := by
    simp only [BSIZE_eq] at hcount ⊢
    omega
  have hmod : (off + index) % BSIZE = off % BSIZE + index := by
    simp only [BSIZE_eq] at hcount ⊢
    omega
  rw [fileByte_of_block (hdiv ▸ hb), hmod]

end Xv6.FileContent
