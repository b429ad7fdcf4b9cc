import Xv6.Fs.Directory
import Xv6.Fs.ReadWrite
import Xv6.Fs.Truncate

/-!
# The invariant of the file system

`Intact` is what holds of the disk between operations: the bitmap is exact,
every file has the blocks that its size needs, and directory entries name inodes
of the file system.  An operation changes one inode and calls `iupdate`;
`Intact.replace` reduces its correctness to facts about that inode.
-/

namespace Xv6.FileSystem

open LittleEndian DiskLog DiskFormat InodeContent BlockOwnership FileContent ReadWrite Truncate
open Directory Function

variable {ip' : Dinode}
variable {disk disk' : Disk} {ip copy : Dinode} {off tot n : ℕ} {source : ℕ → ℕ → Bool × List Byte}

/-- Every block below the size of the file is allocated. -/
def Covered (disk : Disk) (ip : Dinode) : Prop :=
  ∀ position < ip.size.toNat, (fileBlock disk ip (position / BSIZE)).isSome

/-- Every entry of a directory names an inode of the file system. -/
def EntriesInRange (sb : Superblock) (disk : Disk) (ip : Dinode) : Prop :=
  ∀ off, off % sizeofDirent = 0 → off + sizeofDirent ≤ ip.size.toNat →
    direntInum (fileBytes disk ip off sizeofDirent) < sb.ninodes

/-- The entries of every directory name inodes of the file system. -/
def Walkable (sb : Superblock) (disk : Disk) : Prop :=
  ∀ inum < sb.ninodes, (readDinode sb disk inum).type = T_DIR →
    EntriesInRange sb disk (readDinode sb disk inum)

/-- The blocks are accounted for, and if paths are followed (`walk`) then the directories
are in order. -/
structure Intact (walk : Prop) (sb : Superblock) (disk : Disk) : Prop where
  layout : Layout sb disk (readDinode sb disk)
  covered : ∀ inum < sb.ninodes, (readDinode sb disk inum).type ≠ 0 →
    Covered disk (readDinode sb disk inum)
  entries : walk → Walkable sb disk

theorem fileBytes_congr {ip' : Dinode} {count : ℕ}
    (hbytes : ∀ position, off ≤ position → position < off + count →
      fileByte disk' ip' position = fileByte disk ip position) :
    fileBytes disk' ip' off count = fileBytes disk ip off count := by
  rw [fileBytes, fileBytes]
  refine List.map_congr_left fun index hi => ?_
  rw [List.mem_range] at hi
  exact hbytes _ (by omega) (by omega)

theorem file_congr {disk disk' : Disk} {ip : Dinode}
    (hkept : ∀ slot b, inodeSlot disk ip slot = some b → disk' b = disk b) :
    (∀ bn, fileBlock disk' ip bn = fileBlock disk ip bn) ∧
      ∀ position, fileByte disk' ip position = fileByte disk ip position := by
  have hblocks : ∀ bn, fileBlock disk' ip bn = fileBlock disk ip bn :=
    fun bn => inodeSlot_congr (hkept NDIRECT) (blockSlot bn)
  refine ⟨hblocks, fun position => ?_⟩
  cases hb : fileBlock disk ip (position / BSIZE) with
  | none => rw [fileByte_of_none hb, fileByte_of_none ((hblocks _).trans hb)]
  | some b => rw [fileByte_of_block hb, fileByte_of_block ((hblocks _).trans hb), hkept _ b hb]

theorem Covered.congr (hcovered : Covered disk ip)
    (hblocks : ∀ bn, fileBlock disk' ip bn = fileBlock disk ip bn) : Covered disk' ip := by
  intro position hpos
  rw [hblocks]
  exact hcovered position hpos

theorem EntriesInRange.congr {sb : Superblock} (hentries : EntriesInRange sb disk ip)
    (hbytes : ∀ position, fileByte disk' ip position =
      fileByte disk ip position) : EntriesInRange sb disk' ip := by
  intro off halign hfits
  rw [fileBytes_congr fun position _ _ => hbytes position]
  exact hentries off halign hfits

section
variable {walk : Prop} {sb : Superblock} {cur cur' : ℕ → Dinode} {inum : ℕ}
  {disk disk' : Disk} {ip : Dinode}

theorem layout_agree (hlay : Layout sb disk cur) (hkept : ∀ c, sb.bmapstart ≤ c → disk' c = disk c)
    (hcur : ∀ inum < sb.ninodes, cur' inum = cur inum) : Layout sb disk' cur' := by
  have hbits : ∀ b, bitSet sb disk' b = bitSet sb disk b :=
    fun b => bitSet_congr (hkept _ (bmapstart_le_BBLOCK sb b))
  refine ⟨hlay.owners.congr (fun b => ?_) fun position => ?_, fun b hb => ?_⟩
  · rw [Used, Used, hbits]
  · by_cases halloc : position.1 < sb.ninodes ∧ (cur position.1).type ≠ 0
    · have hallocated' : position.1 < sb.ninodes ∧ (cur' position.1).type ≠ 0 := by
        rw [hcur _ halloc.1]
        exact halloc
      rw [held, held, if_pos halloc, if_pos hallocated', hcur _ halloc.1]
      refine inodeSlot_congr (fun b hb => hkept b ?_) _
      have hused := hlay.owners.marked (position.1, NDIRECT) b (by
        rw [held, if_pos halloc]
        exact hb)
      exact (bmapstart_lt_dataStart sb).le.trans hused.1
    · have hfree : ¬ (position.1 < sb.ninodes ∧ (cur' position.1).type ≠ 0) := by
        intro hallocated'
        rw [hcur _ hallocated'.1] at hallocated'
        exact halloc hallocated'
      rw [held, held, if_neg halloc, if_neg hfree]
  · rw [hbits]
    exact hlay.metadata b hb

theorem othersKept_file {other : ℕ}
    (hothers : OthersKept sb cur inum disk disk') (hne : other ≠ inum)
    (ho : other < sb.ninodes) (htype : (cur other).type ≠ 0) :
    (∀ bn, fileBlock disk' (cur other) bn = fileBlock disk (cur other) bn) ∧
      ∀ position, fileByte disk' (cur other) position = fileByte disk (cur other) position := by
  refine file_congr fun slot b hslot => hothers (other, slot) b hne ?_
  rw [held, if_pos ⟨ho, htype⟩]
  exact hslot

theorem readDinode_iupdate {other : ℕ} {ip' : Dinode}
    (hinodes : ∀ c < sb.bmapstart, disk' c = disk c) (ho : other < sb.ninodes) :
    readDinode sb (iupdate sb disk' inum ip') other =
      update (readDinode sb disk) inum ip' other := by
  rw [iupdate, readDinode_writeDinode]
  by_cases heq : other = inum
  · rw [if_pos heq, heq, update_self]
  · rw [if_neg heq, update_of_ne heq, readDinode_congr ho hinodes]

theorem iupdate_above (hinum : inum < sb.ninodes) (ip' : Dinode) {c : ℕ}
    (hc : sb.bmapstart ≤ c) : iupdate sb disk inum ip' c = disk c := by
  have hb := IBLOCK_lt_bmapstart sb hinum
  exact update_of_ne (by omega) _ _

/-- An operation changed inode `inum` to `ip'`, kept the blocks of the others,
and called `iupdate`. -/
theorem Intact.replace (hintact : Intact walk sb disk) (hinum : inum < sb.ninodes)
    (hlay : Layout sb disk' (update (readDinode sb disk) inum ip'))
    (hothers : OthersKept sb (readDinode sb disk) inum disk disk')
    (hinodes : ∀ c < sb.bmapstart, disk' c = disk c) (hcovered : ip'.type ≠ 0 → Covered disk' ip')
    (hentries : walk → ip'.type = T_DIR → EntriesInRange sb disk' ip') :
    Intact walk sb (iupdate sb disk' inum ip') := by
  have habove := fun c (hc : sb.bmapstart ≤ c) => @iupdate_above sb inum disk' hinum ip' c hc
  have hdinode := fun other (ho : other < sb.ninodes) =>
    @readDinode_iupdate sb inum disk disk' other ip' hinodes ho
  have hfinal := layout_agree hlay habove hdinode
  -- After the operation the files are read from blocks above the inodes.
  have hfile := fun other (ho : other < sb.ninodes)
      (htype : (update (readDinode sb disk) inum ip' other).type ≠ 0) =>
    @file_congr disk' (iupdate sb disk' inum ip') (update (readDinode sb disk) inum ip' other)
      fun slot b hslot => habove b ((bmapstart_lt_dataStart sb).le.trans
        (hlay.owners.marked (other, slot) b (by
          rw [held, if_pos ⟨ho, htype⟩]
          exact hslot)).1)
  constructor
  case layout => exact hfinal
  case covered =>
    intro other ho htype
    rw [hdinode other ho] at htype ⊢
    refine Covered.congr ?_ (hfile other ho htype).1
    by_cases heq : other = inum
    · subst heq
      rw [update_self] at htype ⊢
      exact hcovered htype
    · rw [update_of_ne heq] at htype ⊢
      exact (hintact.covered other ho htype).congr (othersKept_file hothers heq ho htype).1
  case entries =>
    intro hwalk other ho htype
    rw [hdinode other ho] at htype ⊢
    have halloc : (update (readDinode sb disk) inum ip' other).type ≠ 0 := by
      rw [htype]
      decide
    refine EntriesInRange.congr ?_ (hfile other ho halloc).2
    by_cases heq : other = inum
    · subst heq
      rw [update_self] at htype ⊢
      exact hentries hwalk htype
    · rw [update_of_ne heq] at htype halloc ⊢
      exact (hintact.entries hwalk other ho htype).congr (othersKept_file hothers heq ho halloc).2

/-! ## The operations on one inode -/

theorem inodeSlot_addrs (haddrs : ip'.addrs = ip.addrs)
    (slot : ℕ) : inodeSlot disk ip' slot = inodeSlot disk ip slot := by
  have haddr : ∀ index, addr ip' index = addr ip index := by
    intro index
    rw [addr, addr, haddrs]
  simp only [inodeSlot, haddr]

theorem file_addrs {ip' : Dinode} (haddrs : ip'.addrs = ip.addrs) :
    (∀ bn, fileBlock disk ip' bn = fileBlock disk ip bn) ∧
      ∀ position, fileByte disk ip' position = fileByte disk ip position := by
  have hblocks : ∀ bn, fileBlock disk ip' bn = fileBlock disk ip bn :=
    fun bn => inodeSlot_addrs haddrs (blockSlot bn)
  refine ⟨hblocks, fun position => ?_⟩
  simp only [fileByte, hblocks]

theorem layout_fields (hlay : Layout sb disk (update cur inum ip))
    (htype : ip'.type = 0 ↔ ip.type = 0) (haddrs : ip'.addrs = ip.addrs) :
    Layout sb disk (update cur inum ip') := by
  refine ⟨hlay.owners.congr (fun _ => Iff.rfl) fun position => ?_, hlay.metadata⟩
  obtain ⟨owner, slot⟩ := position
  by_cases howner : owner = inum
  · subst howner
    simp only [held, update_self, ne_eq, htype, inodeSlot_addrs haddrs]
  · rw [held_update_of_ne sb _ cur _ howner, held_update_of_ne sb _ cur _ howner]

theorem Intact.layout_self (hintact : Intact walk sb disk) (inum : ℕ) :
    Layout sb disk (update (readDinode sb disk) inum (readDinode sb disk inum)) := by
  rw [update_eq_self]
  exact hintact.layout

theorem Intact.setFields (hintact : Intact walk sb disk) (hinum : inum < sb.ninodes)
    (htype : ip'.type = (readDinode sb disk inum).type)
    (hsize : ip'.size = (readDinode sb disk inum).size)
    (haddrs : ip'.addrs = (readDinode sb disk inum).addrs) :
    Intact walk sb (iupdate sb disk inum ip') := by
  have hfile := @file_addrs disk (readDinode sb disk inum) ip' haddrs
  refine hintact.replace hinum (layout_fields (hintact.layout_self inum) (by rw [htype]) haddrs)
    (OthersKept.refl sb _ inum disk) (fun _ _ => rfl) ?_ ?_
  · intro halloc position hpos
    rw [hfile.1]
    rw [htype] at halloc
    rw [hsize] at hpos
    exact hintact.covered inum hinum halloc position hpos
  · intro hwalk hdir off halign hfits
    rw [htype] at hdir
    rw [hsize] at hfits
    rw [fileBytes_congr fun position _ _ => hfile.2 position]
    exact hintact.entries hwalk inum hinum hdir off halign hfits

theorem layout_free (hlay : Layout sb disk cur)
    (hheld : ∀ slot, held sb disk cur (inum, slot) = none)
    (hslots : ip'.type ≠ 0 → ∀ slot, inodeSlot disk ip' slot = none) :
    Layout sb disk (update cur inum ip') := by
  refine ⟨hlay.owners.congr (fun _ => Iff.rfl) fun position => ?_, hlay.metadata⟩
  obtain ⟨owner, slot⟩ := position
  by_cases howner : owner = inum
  · subst howner
    rw [hheld, held, update_self]
    split
    · rename_i halloc
      exact hslots halloc.2 slot
    · rfl
  · rw [held_update_of_ne sb _ cur _ howner]

theorem inodeSlot_zero (hzero : ip.addrs = fun _ => 0) (slot : ℕ) :
    inodeSlot disk ip slot = none := by
  have haddr : ∀ index, addr ip index = 0 := by
    intro index
    rw [addr, hzero]
    split <;> rfl
  simp [inodeSlot, haddr, pointer]

theorem Intact.replaceEmpty (hintact : Intact walk sb disk) (hinum : inum < sb.ninodes)
    (hheld : ∀ slot, held sb disk (readDinode sb disk) (inum, slot) = none)
    (hzero : ip'.addrs = fun _ => 0) (hsize : ip'.size = 0) :
    Intact walk sb (iupdate sb disk inum ip') := by
  refine hintact.replace hinum (layout_free hintact.layout hheld fun _ => inodeSlot_zero hzero)
    (OthersKept.refl sb _ inum disk) (fun _ _ => rfl) ?_ ?_
  · intro _ position hpos
    rw [hsize] at hpos
    exact absurd hpos (Nat.not_lt_zero _)
  · intro _ _ off _ hfits
    rw [hsize] at hfits
    exact absurd hfits (by simp [sizeofDirent])

theorem Intact.itrunc (hintact : Intact walk sb disk) (hinum : inum < sb.ninodes)
    (halloc : (readDinode sb disk inum).type ≠ 0) :
    ∃ disk', itrunc sb disk inum (readDinode sb disk inum) =
        .ok (disk', truncated (readDinode sb disk inum)) ∧ Intact walk sb disk' ∧
      ∀ other < sb.ninodes, readDinode sb disk' other = update (readDinode sb disk) inum
          (truncated (readDinode sb disk inum)) other := by
  have hlay := hintact.layout_self inum
  obtain ⟨disk₁, htrunc, hlayout₁, hblocks⟩ := itrunc_spec hinum halloc hlay
  refine ⟨_, htrunc, ?_, fun other ho => readDinode_iupdate hblocks.inodes ho⟩
  refine hintact.replace hinum hlayout₁ (hblocks.others hlay) hblocks.inodes ?_ ?_
  · intro _ position hpos
    exact absurd hpos (Nat.not_lt_zero _)
  · intro _ _ off _ hfits
    exact absurd hfits (by simp [truncated, sizeofDirent])

/-- The source delivers one directory entry that names an inode of the file
system, and it is written at the place of an entry. -/
structure WholeEntry (sb : Superblock) (source : ℕ → ℕ → Bool × List Byte)
    (off n : ℕ) : Prop where
  aligned : off % sizeofDirent = 0
  length : n = sizeofDirent
  entry : ∃ stream, Delivers source n stream ∧
    direntInum ((List.range sizeofDirent).map stream) < sb.ninodes

theorem extended_size (hfits : off + tot ≤ MAXFILE * BSIZE) :
    (extended ip (off + tot)).size.toNat = max ip.size.toNat (off + tot) := by
  have hlt : off + tot < 2 ^ 32 := by
    simp only [MAXFILE_eq, BSIZE_eq] at hfits
    omega
  rw [extended]
  split
  · rw [BitVec.toNat_ofNat, Nat.mod_eq_of_lt hlt]
    omega
  · omega

theorem extended_type (ip : Dinode) (off : ℕ) : (extended ip off).type = ip.type := by
  rw [extended]
  split <;> rfl

theorem extended_addrs (ip : Dinode) (off : ℕ) : (extended ip off).addrs = ip.addrs := by
  rw [extended]
  split <;> rfl

theorem entries_written (hentries : EntriesInRange sb disk ip) (hwhole : WholeEntry sb source off n)
    (hwrote : WroteTo sb source n cur inum disk ip 0 off (tot, off + tot, disk', copy))
    (hoff : off ≤ ip.size.toNat) (hfits : off + n ≤ MAXFILE * BSIZE) :
    EntriesInRange sb disk' (extended copy (off + tot)) := by
  obtain ⟨halign, rfl, stream, hdelivers, hinum⟩ := hwhole
  obtain ⟨hall, hbytes⟩ := hwrote.delivered stream hdelivers
  dsimp only at hall hbytes
  subst hall
  have hfile := @file_addrs disk' copy _ (extended_addrs copy (off + sizeofDirent))
  intro place hplace hend
  rw [extended_size hfits, hwrote.written.size_eq] at hend
  rw [fileBytes_congr fun position _ _ => hfile.2 position]
  by_cases heq : place = off
  · subst heq
    have he : fileBytes disk' copy place sizeofDirent =
        (List.range sizeofDirent).map stream := by
      rw [fileBytes]
      refine List.map_congr_left fun index hi => ?_
      rw [List.mem_range] at hi
      rw [hbytes _ (by omega) (by omega)]
      congr 1
      omega
    rw [he]
    exact hinum
  · have hdisjoint : place + sizeofDirent ≤ off ∨ off + sizeofDirent ≤ place := by
      simp only [sizeofDirent] at halign hplace ⊢
      omega
    rw [fileBytes_congr fun position _ _ => hwrote.written.content position (by omega)]
    exact hentries place hplace (by omega)

theorem covered_written (hcovered : Covered disk ip)
    (hwrote : WroteTo sb source n cur inum disk ip 0 off (tot, off + tot, disk', copy))
    (hoff : off ≤ ip.size.toNat) (hfits : off + n ≤ MAXFILE * BSIZE) :
    Covered disk' (extended copy (off + tot)) := by
  have htot : tot ≤ n := hwrote.bounded
  have hfile := @file_addrs disk' copy _ (extended_addrs copy (off + tot))
  intro position hpos
  rw [extended_size (by omega), hwrote.written.size_eq] at hpos
  rw [hfile.1]
  by_cases hold : position < ip.size.toNat
  · obtain ⟨b, hb⟩ := Option.isSome_iff_exists.mp (hcovered position hold)
    rw [hwrote.written.blocks _ b hb]
    rfl
  · exact hwrote.written.mapped position (by omega) (show position < off + tot by omega)

theorem Intact.writei
    {result : ℤ} {final : Disk} (hintact : Intact walk sb disk) (hinum : inum < sb.ninodes)
    (halloc : (readDinode sb disk inum).type ≠ 0) (hbounded : Bounded source) (hn : n < 2 ^ 32)
    (hdir : walk → (readDinode sb disk inum).type = T_DIR → WholeEntry sb source off n)
    (hwritei : writei sb source disk inum (readDinode sb disk inum) off n =
      .ok (result, final, ip')) : Intact walk sb final ∧ ip'.type = (readDinode sb disk inum).type ∧
      ∀ other < sb.ninodes, readDinode sb final other =
        update (readDinode sb disk) inum ip' other := by
  rcases writei_spec hbounded (hintact.layout_self inum) hinum halloc hn
    hwritei with ⟨-, rfl, rfl⟩ | ⟨disk', copy, tot, hwrote, -, rfl, rfl, hoff, hfits⟩
  · refine ⟨hintact, rfl, fun other _ => ?_⟩
    rw [update_eq_self]
  · have hwritten := hwrote.written
    have htype : (extended copy (off + tot)).type = (readDinode sb disk inum).type := by
      rw [extended_type, hwritten.type_eq]
    refine ⟨hintact.replace hinum ?_ hwritten.others hwritten.inodes ?_ ?_,
      htype, fun other ho => readDinode_iupdate hwritten.inodes ho⟩
    · exact layout_fields hwritten.layout (by rw [extended_type]) (extended_addrs copy _)
    · intro _
      exact covered_written (hintact.covered inum hinum halloc) hwrote hoff hfits
    · intro hwalk htype'
      rw [htype] at htype'
      exact entries_written (hintact.entries hwalk inum hinum htype') (hdir hwalk htype') hwrote
        hoff hfits

end

end Xv6.FileSystem
