import Xv6.Mkfs.Append

/-!
# The image between the steps of `mkfs`

`Building` is the invariant of `main`: the inodes below `freeinode` hold the bytes that
were appended to them, and the blocks below `freeblock` are the metadata and the blocks
of these inodes.  Every step writes one inode; `Building.replace` reduces it to facts
about that inode.
-/

namespace Xv6.MkfsBuild

open Function LittleEndian DiskLog DiskFormat BlockOwnership FileContent FileSystem Directory
open Outcome Mkfs MkfsAppend
open InodeContent (addr)

variable {fixed : Bool} {inum : ℕ}

def kindOf (inum : ℕ) : BitVec 16 := if inum = ROOTINO then T_DIR else T_FILE

theorem kindOf_ne (inum : ℕ) : kindOf inum ≠ 0 := by
  rw [kindOf]
  split <;> decide

/-- The size of an inode with `length` bytes; `fixed` is set once the size of the root
has been rounded. -/
def recordedSize (fixed : Bool) (inum length : ℕ) : ℕ :=
  if fixed = true ∧ inum = ROOTINO then (length / BSIZE + 1) * BSIZE else length

/-- The copy `ip` of inode `inum` holds `bytes`. -/
structure Built (disk : Disk) (fixed : Bool) (inum : ℕ) (ip : Dinode)
    (bytes : List Byte) : Prop where
  type : ip.type = kindOf inum
  nlink : ip.nlink = 1
  size : ip.size = BitVec.ofNat 32 (recordedSize fixed inum bytes.length)
  limit : bytes.length ≤ MAXFILE * BSIZE
  extent : Extent disk ip bytes.length
  content : ∀ position, fileByte disk ip position = bytes.getD position 0

structure Building (image : Image) (fixed : Bool) (content : ℕ → List Byte) :
    Prop where
  free : Free image
  layout : Layout sb (marked image) (readDinode sb image.disk)
  positive : 0 < image.freeinode
  limit : image.freeinode ≤ NINODES
  unused : ∀ inum < NINODES, inum = 0 ∨ image.freeinode ≤ inum →
    (readDinode sb image.disk inum).type = 0
  built : ∀ inum, 0 < inum → inum < image.freeinode →
    Built (marked image) fixed inum (readDinode sb image.disk inum) (content inum)

theorem Building.congr {image : Image} {content content' : ℕ → List Byte}
    (hbuild : Building image fixed content) (hsame : ∀ inum, 0 < inum → inum < image.freeinode →
      content' inum = content inum) : Building image fixed content' :=
  { hbuild with
    built := fun inum hpos hinum => by
      rw [hsame inum hpos hinum]
      exact hbuild.built inum hpos hinum }

theorem Built.congr {disk disk' : Disk} {fixed' : Bool} {ip : Dinode}
    {bytes : List Byte} (hbuilt : Built disk fixed inum ip bytes)
    (hsize : recordedSize fixed' inum bytes.length = recordedSize fixed inum bytes.length)
    (hkept : ∀ slot b, inodeSlot disk ip slot = some b → disk' b = disk b) :
    Built disk' fixed' inum ip bytes where
  type := hbuilt.type
  nlink := hbuilt.nlink
  size := by rw [hsize, hbuilt.size]
  limit := hbuilt.limit
  extent := hbuilt.extent.congr (inodeSlot_congr (hkept NDIRECT))
  content position := ((file_congr hkept).2 position).trans (hbuilt.content position)

/-! ## Writing an inode -/

def setDinode (image : Image) (inum : ℕ) (ip : Dinode) : Image :=
  { image with disk := writeDinode sb image.disk inum ip }

theorem IBLOCK_lt (hinum : inum < NINODES) : IBLOCK sb inum < sb.bmapstart :=
  IBLOCK_lt_bmapstart sb hinum

theorem rsect_inode (image : Image) (hinum : inum < NINODES) :
    rsect image (IBLOCK sb inum) = .ok (image.disk (IBLOCK sb inum)) := by
  have hb := IBLOCK_lt hinum
  simp only [bmapstart_eq] at hb
  rw [rsect, if_pos (by rw [FSSIZE_eq]; omega)]

theorem rinode_ok (image : Image) (hinum : inum < NINODES) :
    rinode image inum = .ok (readDinode sb image.disk inum) := by
  rw [rinode, rsect_inode image hinum]
  rfl

theorem winode_ok (image : Image) (hinum : inum < NINODES) (ip : Dinode) :
    winode image inum ip = .ok (setDinode image inum ip) := by
  rw [winode, rsect_inode image hinum]
  rfl

theorem marked_setDinode (image : Image) (hinum : inum < NINODES)
    (ip : Dinode) {c : ℕ} (hc : sb.bmapstart ≤ c) :
    marked (setDinode image inum ip) c = marked image c := by
  have hb := IBLOCK_lt hinum
  by_cases hbitmap : c = sb.bmapstart
  · subst hbitmap
    rw [marked, update_self, marked, update_self]
    rfl
  · rw [marked_of_ne _ hbitmap, marked_of_ne _ hbitmap]
    exact update_of_ne (by omega) _ _

section
variable {image after : Image} {fixed fixed' : Bool} {content : ℕ → List Byte}
  {inum : ℕ} {ip : Dinode} {bytes : List Byte}

/-- A step that changes the blocks of inode `inum` and then writes the inode. -/
theorem Building.replace (hbuild : Building image fixed content)
    (hpos : 0 < inum) (hnext : inum < after.freeinode) (hlimit : after.freeinode ≤ NINODES)
    (hcount : ∀ other, other ≠ inum → (other < after.freeinode ↔ other < image.freeinode))
    (hsizes : ∀ other, other ≠ inum → ∀ length,
      recordedSize fixed' other length = recordedSize fixed other length) (hfree : Free after)
    (hlay : Layout sb (marked after) (update (readDinode sb image.disk) inum ip))
    (hothers : OthersKept sb (readDinode sb image.disk) inum (marked image) (marked after))
    (hinodes : ∀ c < sb.bmapstart, after.disk c = image.disk c)
    (hbuilt : Built (marked after) fixed' inum ip bytes) :
    Building (setDinode after inum ip) fixed' (update content inum bytes) := by
  have hinum : inum < NINODES := lt_of_lt_of_le hnext hlimit
  have hdinode : ∀ other < sb.ninodes, readDinode sb (setDinode after inum ip).disk other =
      update (readDinode sb image.disk) inum ip other :=
    fun other ho => readDinode_iupdate hinodes ho
  have habove := fun c (hc : sb.bmapstart ≤ c) => marked_setDinode after hinum ip hc
  have hdata := (bmapstart_lt_dataStart sb).le
  constructor
  case free =>
    have hb := IBLOCK_lt hinum
    have hlow := hfree.low
    exact hfree.wsect (by omega) _
  case layout => exact layout_agree hlay habove hdinode
  case positive => exact lt_trans hpos hnext
  case limit => exact hlimit
  case unused =>
    intro other ho hunused
    have hne : other ≠ inum := by
      rintro rfl
      have hnext' : other < (setDinode after other ip).freeinode := hnext
      omega
    rw [hdinode other ho, update_of_ne hne]
    refine hbuild.unused other ho (hunused.imp_right fun hbeyond => ?_)
    exact Nat.le_of_not_lt fun h => Nat.not_lt_of_le hbeyond ((hcount other hne).mpr h)
  case built =>
    intro other hpos' ho
    have hsmall : other < sb.ninodes := lt_of_lt_of_le ho hlimit
    rw [hdinode other hsmall]
    by_cases hne : other = inum
    · subst hne
      rw [update_self, update_self]
      refine hbuilt.congr rfl fun slot b hslot => habove b (hdata.trans ?_)
      refine (hlay.used_slot hsmall ?_ hslot).1
      rw [hbuilt.type]
      exact kindOf_ne other
    · rw [update_of_ne hne, update_of_ne hne]
      have hold := hbuild.built other hpos' ((hcount other hne).mp ho)
      refine hold.congr (hsizes other hne _) fun slot b hslot => ?_
      have hheld : held sb (marked image) (readDinode sb image.disk) (other, slot) =
          some b := by
        rw [held, if_pos ⟨hsmall, by rw [hold.type]; exact kindOf_ne other⟩]
        exact hslot
      have hused := hbuild.layout.owners.marked (other, slot) b hheld
      rw [habove b (hdata.trans hused.1)]
      exact hothers (other, slot) b hne hheld

theorem ialloc_spec (hbuild : Building image false content) (hroom : image.freeinode < NINODES) :
    ∃ after, Mkfs.ialloc image (kindOf image.freeinode) = .ok (image.freeinode, after) ∧
      Building after false (update content image.freeinode []) ∧
      after.freeinode = image.freeinode + 1 ∧ after.freeblock = image.freeblock := by
  have hzero : ∀ slot, inodeSlot (marked image) (newDinode (kindOf image.freeinode)) slot =
      none := by
    intro slot
    have haddr : ∀ index, addr (newDinode (kindOf image.freeinode)) index = 0 := by
      intro index
      rw [addr]
      split <;> rfl
    simp [inodeSlot, haddr, pointer]
  refine ⟨setDinode { image with freeinode := image.freeinode + 1 } image.freeinode
    (newDinode (kindOf image.freeinode)), ?_, ?_, rfl, rfl⟩
  · rw [Mkfs.ialloc, winode_ok _ hroom]
    rfl
  · refine hbuild.replace hbuild.positive (Nat.lt_succ_self _) hroom ?_
      (fun _ _ _ => rfl) ⟨hbuild.free.low, hbuild.free.high, hbuild.free.zero⟩ ?_
      (OthersKept.refl sb _ _ _) (fun _ _ => rfl) ?_
    · intro other hne
      constructor
      · intro ho
        have hother' : other < image.freeinode + 1 := ho
        omega
      · intro ho
        exact Nat.lt_succ_of_lt ho
    · -- The inode was free, and the new one has no blocks.
      refine ⟨hbuild.layout.owners.congr (fun _ => Iff.rfl) ?_, hbuild.layout.metadata⟩
      rintro ⟨owner, slot⟩
      by_cases howner : owner = image.freeinode
      · subst howner
        have htype := hbuild.unused image.freeinode hroom (.inr le_rfl)
        rw [held_update_self _ _ hroom (kindOf_ne _), held, if_neg (by simp [htype])]
        exact hzero slot
      · exact held_update_of_ne sb _ _ _ howner
    · refine ⟨rfl, rfl, ?_, Nat.zero_le _, ⟨fun bn _ => ?_, ?_⟩, fun position => ?_⟩
      · simp [newDinode, recordedSize]
      · rw [fileBlock]
        simp [show inodeSlot (marked { image with freeinode := image.freeinode + 1 })
          (newDinode (kindOf image.freeinode)) (blockSlot bn) = none from hzero _]
      · simp [show inodeSlot (marked { image with freeinode := image.freeinode + 1 })
          (newDinode (kindOf image.freeinode)) NDIRECT = none from hzero _]
      · exact fileByte_of_none (hzero _)

theorem iappend_spec (hbuild : Building image false content) (hpos : 0 < inum)
    (hinum : inum < image.freeinode) (p : List Byte)
    (hsize : (content inum ++ p).length ≤ MAXFILE * BSIZE) (hroom : image.freeblock +
      (blocksFor (content inum ++ p).length - blocksFor (content inum).length) ≤ FSSIZE) :
    ∃ after, iappend image inum p = .ok after ∧
      Building after false (update content inum (content inum ++ p)) ∧
      after.freeinode = image.freeinode ∧ after.freeblock = image.freeblock +
        (blocksFor (content inum ++ p).length - blocksFor (content inum).length) := by
  have hsmall : inum < NINODES := lt_of_lt_of_le hinum hbuild.limit
  have hbuilt := hbuild.built inum hpos hinum
  have hoff : (readDinode sb image.disk inum).size.toNat = (content inum).length := by
    have hlimit := hbuilt.limit
    simp only [MAXFILE_eq, BSIZE_eq] at hlimit
    rw [hbuilt.size, BitVec.toNat_ofNat]
    simp only [recordedSize, Bool.false_eq_true, false_and, if_false]
    omega
  have happending : Appending (readDinode sb image.disk) inum image
      (readDinode sb image.disk inum) (content inum) := by
    refine ⟨hbuild.free, ?_, by rw [hbuilt.type]; exact kindOf_ne inum, hbuilt.extent,
      hbuilt.content⟩
    rw [update_eq_self]
    exact hbuild.layout
  obtain ⟨after, din, hloop, happ, hkept, hcount⟩ :=
    iappendLoop_spec hsmall p.length image _ (content inum) p happending le_rfl hsize hroom
  obtain ⟨addrs, hfields⟩ := hkept.fields
  have hinode := hkept.freeinode
  refine ⟨setDinode after inum
    { din with size := BitVec.ofNat 32 (content inum ++ p).length }, ?_, ?_, hinode, hcount⟩
  · rw [iappend, rinode_ok image hsmall, ok_bind, hoff, hloop, ok_bind]
    exact winode_ok after hsmall _
  · have hbuilding' := hbuild.limit
    refine hbuild.replace hpos (by omega) (by omega)
      (fun other _ => by rw [hinode]) (fun _ _ _ => rfl) happ.free
      (layout_fields happ.layout Iff.rfl rfl) hkept.others hkept.inodes
      ⟨?_, ?_, rfl, hsize, happ.extent.congr (inodeSlot_addrs rfl), fun position => ?_⟩
    · rw [← hbuilt.type, hfields]
    · rw [← hbuilt.nlink, hfields]
    · exact ((file_addrs rfl).2 position).trans (happ.content position)

end

theorem blocksFor_zero : blocksFor 0 = 0 := rfl

theorem copyLoop_spec (hpos : 0 < inum) (fuel : ℕ) :
    ∀ (image : Image) (content : ℕ → List Byte) (rest : List Byte),
      Building image false content → inum < image.freeinode → rest.length ≤ fuel →
      (content inum ++ rest).length ≤ MAXFILE * BSIZE →
      image.freeblock + (blocksFor (content inum ++ rest).length -
        blocksFor (content inum).length) ≤ FSSIZE →
      ∃ after, copyLoop fuel image inum rest = .ok after ∧
        Building after false (update content inum (content inum ++ rest)) ∧
        after.freeinode = image.freeinode ∧ after.freeblock = image.freeblock +
          (blocksFor (content inum ++ rest).length - blocksFor (content inum).length) := by
  induction fuel with
  | zero =>
    intro image content rest hbuild hinum hfuel hsize hroom
    obtain rfl := List.length_eq_zero_iff.mp (Nat.le_zero.mp hfuel)
    refine ⟨image, rfl, ?_, rfl, by simp⟩
    rw [List.append_nil, update_eq_self]
    exact hbuild
  | succ fuel ih =>
    intro image content rest hbuild hinum hfuel hsize hroom
    rw [copyLoop]
    by_cases hmore : 0 < (rest.take BSIZE).length
    · rw [if_pos hmore]
      have hlen : (content inum ++ rest.take BSIZE).length ≤ (content inum ++ rest).length := by
        simp only [List.length_append, List.length_take]
        omega
      have hmono := blocksFor_mono hlen
      have hmono' : blocksFor (content inum).length ≤
          blocksFor (content inum ++ rest.take BSIZE).length :=
        blocksFor_mono (by rw [List.length_append]; omega)
      obtain ⟨middle, happend, hbuilding₁, hinode₁, hcount₁⟩ :=
        iappend_spec hbuild hpos hinum (rest.take BSIZE) (hlen.trans hsize) (by omega)
      have hrest : content inum ++ rest.take BSIZE ++ rest.drop BSIZE = content inum ++ rest := by
        rw [List.append_assoc, List.take_append_drop]
      have hself : update content inum (content inum ++ rest.take BSIZE) inum =
          content inum ++ rest.take BSIZE := update_self _ _ _
      have hshort : (rest.drop BSIZE).length ≤ fuel := by
        rw [List.length_take] at hmore
        rw [List.length_drop]
        omega
      obtain ⟨after, hloop, hbuilding₂, hinode₂, hcount₂⟩ :=
        ih middle _ (rest.drop BSIZE) hbuilding₁ (by rw [hinode₁]; exact hinum) hshort
          (by rw [hself, hrest]; exact hsize)
          (by rw [hself, hrest, hcount₁]; omega)
      rw [hself, hrest, update_idem] at hbuilding₂
      rw [hself, hrest] at hcount₂
      refine ⟨after, ?_, hbuilding₂, hinode₂.trans hinode₁, by omega⟩
      rw [happend, ok_bind, hloop]
    · obtain rfl : rest = [] := by
        rw [List.length_take] at hmore
        simp only [BSIZE_eq] at hmore
        exact List.length_eq_zero_iff.mp (by omega)
      rw [if_neg hmore]
      refine ⟨image, rfl, ?_, rfl, by simp⟩
      rw [List.append_nil, update_eq_self]
      exact hbuild

end Xv6.MkfsBuild
