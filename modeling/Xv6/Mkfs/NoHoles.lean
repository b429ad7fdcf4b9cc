import Xv6.Mkfs.Build

/-!
# The image that `mkfs` makes

When the files fit, `mkfs` makes an image with the invariant of the file system, the
entries of the root directory in order, and the bytes of every file.  `main` rounds the
size of the root up to the next multiple of `BSIZE`, also when it is one already: then
the last block below the size is not there, and reading it allocates a block.
-/

namespace Xv6.MkfsNoHoles

open Function BitVec List Option LittleEndian DiskLog DiskFormat BlockOwnership FileContent
open ReadWrite FileSystem Directory Outcome Mkfs MkfsAppend MkfsBuild
open InodeContent (addr bmap readi copyToKernel)

/-! ## The contents of the inodes -/

def entries (files : List InputFile) : List (ℕ × List Byte) :=
  (ROOTINO, [dot]) :: (ROOTINO, [dot, dot]) ::
    files.zipIdx.map fun (file, index) => (index + 2, file.shortname)

def rootBytes (files : List InputFile) : List Byte :=
  (entries files).flatMap fun entry => encodeDirent entry.1 entry.2

/-- The bytes of each inode after the files have been added. -/
def contentOf (files : List InputFile) (inum : ℕ) : List Byte :=
  if inum = ROOTINO then rootBytes files
  else (files[inum - 2]?).elim [] InputFile.content

def totalBlocks (files : List InputFile) : ℕ :=
  blocksFor (sizeofDirent * (files.length + 2)) +
    (files.map fun file => blocksFor file.content.length).sum

/-- The files are accepted, and they fit on the disk. -/
structure Fits (files : List InputFile) : Prop where
  names : ∀ file ∈ files, slash ∉ dropUser file.path
  sizes : ∀ file ∈ files, file.content.length ≤ MAXFILE * BSIZE
  inodes : files.length + 1 < NINODES
  blocks : nmeta + totalBlocks files ≤ FSSIZE

theorem length_entries (files : List InputFile) : (entries files).length = files.length + 2 := by
  simp [entries]

theorem length_flatMap_dirents (items : List (ℕ × List Byte)) :
    (items.flatMap fun entry => encodeDirent entry.1 entry.2).length =
      sizeofDirent * items.length := by
  induction items with
  | nil => rfl
  | cons item items ih =>
    rw [flatMap_cons, length_append, ih, length_encodeDirent,
      length_cons, Nat.mul_succ, Nat.add_comm]

theorem length_rootBytes (files : List InputFile) :
    (rootBytes files).length = sizeofDirent * (files.length + 2) := by
  rw [rootBytes, length_flatMap_dirents, length_entries]

theorem rootBytes_append (files : List InputFile) (file : InputFile) : rootBytes (files ++ [file]) =
    rootBytes files ++ encodeDirent (files.length + 2) file.shortname := by
  simp [rootBytes, entries, zipIdx_append]

theorem totalBlocks_append (files : List InputFile) (file : InputFile) :
    totalBlocks (files ++ [file]) = blocksFor (sizeofDirent * (files.length + 3)) +
        (files.map fun file => blocksFor file.content.length).sum +
        blocksFor file.content.length := by
  simp [totalBlocks, Nat.add_assoc]

theorem totalBlocks_le (done rest : List InputFile) :
    totalBlocks done ≤ totalBlocks (done ++ rest) := by
  have hroot : blocksFor (sizeofDirent * (done.length + 2)) ≤
      blocksFor (sizeofDirent * ((done ++ rest).length + 2)) :=
    blocksFor_mono (Nat.mul_le_mul_left _ (by rw [length_append]; omega))
  simp only [totalBlocks, map_append, sum_append]
  omega

/-! ## Adding the files -/

/-- The files in `done` have been added. -/
structure Progress (done : List InputFile) (image : Image) : Prop where
  building : Building image false (contentOf done)
  freeinode : image.freeinode = done.length + 2
  freeblock : image.freeblock = nmeta + totalBlocks done

theorem contentOf_root (files : List InputFile) : contentOf files ROOTINO = rootBytes files :=
  if_pos rfl

theorem contentOf_file (files : List InputFile) (index : ℕ) :
    contentOf files (index + 2) = (files[index]?).elim [] InputFile.content := by
  have hne : index + 2 ≠ ROOTINO := by
    rw [ROOTINO]
    omega
  rw [contentOf, if_neg hne, Nat.add_sub_cancel]

theorem root_fits {count : ℕ} (hcount : count < NINODES) :
    sizeofDirent * (count + 2) ≤ MAXFILE * BSIZE := by
  simp only [sizeofDirent, MAXFILE_eq, BSIZE_eq, NINODES_eq] at *
  omega

theorem addFile_spec {done : List InputFile} {image : Image} {file : InputFile}
    (hprog : Progress done image) (hname : slash ∉ dropUser file.path)
    (hsize : file.content.length ≤ MAXFILE * BSIZE)
    (hinodes : (done ++ [file]).length + 1 < NINODES)
    (hblocks : nmeta + totalBlocks (done ++ [file]) ≤ FSSIZE) :
    ∃ after, addFile ROOTINO image file = .ok after ∧ Progress (done ++ [file]) after := by
  obtain ⟨hbuild, hinode, hb⟩ := hprog
  rw [length_append, length_singleton] at hinodes
  have htotal := totalBlocks_append done file
  have hkind : kindOf image.freeinode = T_FILE := if_neg (by rw [hinode, ROOTINO]; omega)
  obtain ⟨image₁, hialloc, hbuilding₁, hinode₁, hblock₁⟩ :=
    ialloc_spec hbuild (by rw [hinode]; omega)
  rw [hkind] at hialloc
  set content₁ := update (contentOf done) image.freeinode [] with hcontent₁
  have hroot₁ : content₁ ROOTINO = rootBytes done := by
    rw [hcontent₁, update_of_ne (by rw [hinode, ROOTINO]; omega), contentOf_root]
  have hlen : (rootBytes done ++ encodeDirent image.freeinode file.shortname).length =
      sizeofDirent * (done.length + 3) := by
    rw [length_append, length_rootBytes, length_encodeDirent]
    ring
  have hgrow : blocksFor (sizeofDirent * (done.length + 2)) ≤
      blocksFor (sizeofDirent * (done.length + 3)) :=
    blocksFor_mono (Nat.mul_le_mul_left _ (by omega))
  rw [totalBlocks] at hb
  obtain ⟨image₂, happend, hbuilding₂, hinode₂, hblock₂⟩ :=
    iappend_spec hbuilding₁ (by decide : 0 < ROOTINO) (by rw [hinode₁, ROOTINO]; omega)
      (encodeDirent image.freeinode file.shortname)
      (by
        rw [hroot₁, hlen]
        exact root_fits (by omega : done.length + 1 < NINODES))
      (by
        rw [hroot₁, hlen, length_rootBytes, hblock₁, hb]
        omega)
  rw [hroot₁, hlen, length_rootBytes] at hblock₂
  rw [hroot₁] at hbuilding₂
  set content₂ := update content₁ ROOTINO
    (rootBytes done ++ encodeDirent image.freeinode file.shortname) with hcontent₂
  have hfile₂ : content₂ image.freeinode = [] := by
    rw [hcontent₂, update_of_ne (by rw [hinode, ROOTINO]; omega), hcontent₁, update_self]
  obtain ⟨image₃, hcopy, hbuilding₃, hinode₃, hblock₃⟩ :=
    copyLoop_spec (by omega : 0 < image.freeinode) file.content.length image₂ content₂
      file.content hbuilding₂ (by omega) le_rfl
      (by rw [hfile₂, nil_append]; exact hsize)
      (by
        rw [hfile₂, nil_append, length_nil, blocksFor_zero, hblock₂, hblock₁, hb]
        omega)
  rw [hfile₂, nil_append, length_nil, blocksFor_zero] at hblock₃
  rw [hfile₂, nil_append] at hbuilding₃
  refine ⟨image₃, ?_, hbuilding₃.congr ?_, ?_, ?_⟩
  · rw [addFile, if_neg hname, hialloc, ok_bind]
    dsimp only
    rw [happend, ok_bind, hcopy]
  · intro inum hpos hsmall
    by_cases hnew : inum = image.freeinode
    · subst hnew
      rw [update_self, hinode, contentOf_file]
      simp
    · rw [update_of_ne hnew]
      by_cases hroot : inum = ROOTINO
      · subst hroot
        rw [contentOf_root, hcontent₂, update_self, rootBytes_append, hinode]
      · have hone : inum ≠ 1 := hroot
        rw [hcontent₂, update_of_ne hroot, hcontent₁, update_of_ne hnew,
          contentOf, contentOf, if_neg hroot, if_neg hroot,
          List.getElem?_append_left (by omega)]
  · rw [length_append, length_singleton]
    omega
  · rw [hblock₃, hblock₂, hblock₁, hb, htotal]
    omega

theorem addFiles_spec (rest : List InputFile) : ∀ (done : List InputFile) (image : Image),
    Progress done image → Fits (done ++ rest) →
    ∃ after, rest.foldlM (addFile ROOTINO) image = .ok after ∧ Progress (done ++ rest) after := by
  induction rest with
  | nil =>
    intro done image hprog _
    rw [append_nil]
    exact ⟨image, rfl, hprog⟩
  | cons file rest ih =>
    intro done image hprog hfits
    have hsplit : done ++ file :: rest = done ++ [file] ++ rest := by simp
    rw [hsplit] at hfits ⊢
    have hmem : file ∈ done ++ [file] ++ rest := by simp
    have hinodes := hfits.inodes
    rw [length_append] at hinodes
    obtain ⟨middle, hadd, hprogress₁⟩ := addFile_spec hprog
      (hfits.names file hmem) (hfits.sizes file hmem) (by omega)
      ((Nat.add_le_add_left (totalBlocks_le _ rest) nmeta).trans hfits.blocks)
    obtain ⟨after, hfold, hprogress₂⟩ := ih (done ++ [file]) middle hprogress₁ hfits
    refine ⟨after, ?_, hprogress₂⟩
    rw [foldlM_cons, hadd]
    exact hfold

/-! ## The start and the end of `main` -/

theorem blank_disk {c : ℕ} (hc : c ≠ 1) : blank.disk c = fun _ => 0 := by
  simp [blank, update_of_ne hc]

theorem readDinode_blank (inum : ℕ) : (readDinode sb blank.disk inum).type = 0 := by
  have hne : IBLOCK sb inum ≠ 1 := by
    have hlow : sb.inodestart ≤ IBLOCK sb inum := Nat.le_add_left _ _
    have hstart : sb.inodestart = 32 := rfl
    omega
  rw [readDinode, blank_disk hne]
  exact readWord_zero 2 BSIZE _

theorem blank_building : Building blank false fun _ => [] := by
  have hfree : Free blank := by
    refine ⟨le_rfl, by decide, fun b hb => blank_disk ?_⟩
    have hb' : 46 ≤ b := hb
    omega
  have hnone : ∀ position, held sb (marked blank) (readDinode sb blank.disk) position =
      none := by
    rintro ⟨owner, slot⟩
    rw [held]
    refine if_neg fun halloc => halloc.2 (readDinode_blank owner)
  constructor
  case free => exact hfree
  case layout =>
    refine ⟨⟨?_, ?_, ?_⟩, ?_⟩
    · intro position b hheld
      rw [hnone] at hheld
      cases hheld
    · rintro b ⟨hlow, hhigh, hset⟩
      rw [hfree.bits (by simp only [size_eq, BPB_eq] at *; omega)] at hset
      have hsmall : b < 46 := of_decide_eq_true hset
      simp only [dataStart_eq] at hlow
      omega
    · intro left right b hheld
      rw [hnone] at hheld
      cases hheld
    · intro b hb
      have hsmall : b < 46 := hb
      rw [hfree.bits (by rw [BPB_eq]; omega)]
      exact decide_eq_true hsmall
  case positive => decide
  case limit => decide
  case unused => exact fun inum _ _ => readDinode_blank inum
  case built =>
    intro inum hpos hinum
    have hinum' : inum < 1 := hinum
    omega

/-- The image that `mkfs` leaves. -/
structure Made (files : List InputFile) (image : Image) : Prop where
  layout : Layout sb image.disk (readDinode sb image.disk)
  low : sb.dataStart ≤ image.freeblock
  high : image.freeblock ≤ sb.size
  freeblock : image.freeblock = nmeta + totalBlocks files
  bits : ∀ b < BPB, bitSet sb image.disk b = decide (b < image.freeblock)
  free : ∀ inum < NINODES, inum = 0 ∨ files.length + 2 ≤ inum →
    (readDinode sb image.disk inum).type = 0
  built : ∀ inum, 0 < inum → inum < files.length + 2 →
    Built image.disk true inum (readDinode sb image.disk inum) (contentOf files inum)

theorem Progress.finish {files : List InputFile} {image : Image}
    (hprog : Progress files image) :
    ∃ after, (do
      let din ← rinode image ROOTINO
      let image ← winode image ROOTINO (fixSize din)
      Mkfs.balloc image image.freeblock) = .ok after ∧ Made files after := by
  obtain ⟨hbuild, hinode, hblock⟩ := hprog
  have hroot : ROOTINO < NINODES := by decide
  have hrootInode : ROOTINO < image.freeinode := by
    rw [hinode, ROOTINO]
    omega
  have hbuilt := hbuild.built ROOTINO (by decide) hrootInode
  have hlimit := hbuilt.limit
  have hoff : (readDinode sb image.disk ROOTINO).size.toNat = (contentOf files ROOTINO).length := by
    simp only [MAXFILE_eq, BSIZE_eq] at hlimit
    rw [hbuilt.size, toNat_ofNat]
    simp only [recordedSize, Bool.false_eq_true, false_and, if_false]
    omega
  set ip := fixSize (readDinode sb image.disk ROOTINO) with hip
  have hbuilding' : Building (setDinode image ROOTINO ip) true
      (update (contentOf files) ROOTINO (contentOf files ROOTINO)) := by
    have hself : Layout sb (marked image) (update (readDinode sb image.disk)
        ROOTINO (readDinode sb image.disk ROOTINO)) := by
      rw [update_eq_self]
      exact hbuild.layout
    refine hbuild.replace (by decide) hrootInode hbuild.limit (fun _ _ => Iff.rfl) ?_
      hbuild.free (layout_fields hself Iff.rfl rfl) (OthersKept.refl sb _ _ _)
      (fun _ _ => rfl) ⟨hbuilt.type, hbuilt.nlink, ?_, hbuilt.limit,
        hbuilt.extent.congr (inodeSlot_addrs rfl), fun position => ?_⟩
    · intro other hne length
      simp [recordedSize, hne]
    · rw [hip, fixSize, hoff, recordedSize, if_pos ⟨rfl, rfl⟩]
    · exact ((file_addrs rfl).2 position).trans (hbuilt.content position)
  rw [update_eq_self] at hbuilding'
  have hused : (setDinode image ROOTINO ip).freeblock < BSIZE * 8 := by
    have hhigh := hbuilding'.free.high
    simp only [size_eq, BSIZE_eq] at *
    omega
  refine ⟨wsect (setDinode image ROOTINO ip) sb.bmapstart
    (bitmap (setDinode image ROOTINO ip).freeblock), ?_, ?_⟩
  · rw [rinode_ok image hroot, ok_bind, winode_ok image hroot, ok_bind, Mkfs.balloc, if_pos hused]
  · have hdinode : ∀ inum < sb.ninodes, readDinode sb (marked (setDinode image ROOTINO ip)) inum =
          readDinode sb (setDinode image ROOTINO ip).disk inum :=
      fun inum hinum => readDinode_congr hinum fun c hc => marked_below _ hc
    have hcount : (setDinode image ROOTINO ip).freeinode = files.length + 2 := hinode
    constructor
    case layout => exact layout_agree hbuilding'.layout (fun _ _ => rfl) hdinode
    case low => exact hbuilding'.free.low
    case high => exact hbuilding'.free.high
    case freeblock => exact hblock
    case bits => exact fun b hb => hbuilding'.free.bits hb
    case free =>
      intro inum hinum hfree
      refine (congrArg Dinode.type (hdinode inum hinum)).trans ?_
      exact hbuilding'.unused inum hinum (by rw [hcount]; exact hfree)
    case built =>
      intro inum hpos hinum
      have hsmall : inum < (setDinode image ROOTINO ip).freeinode := by
        rw [hcount]
        exact hinum
      have hbuilt' := hbuilding'.built inum hpos hsmall
      rw [← hdinode inum (lt_of_lt_of_le hsmall hbuilding'.limit)] at hbuilt'
      exact hbuilt'

theorem mkfs_spec {files : List InputFile} (hfits : Fits files) :
    ∃ image, mkfs files = .ok image ∧ Made files image := by
  obtain ⟨image₁, hialloc, hbuilding₁, hinode₁, hblock₁⟩ :=
    ialloc_spec blank_building (by decide : blank.freeinode < NINODES)
  have hone : blank.freeinode = ROOTINO := rfl
  rw [hone] at hialloc hbuilding₁
  have hkind : kindOf ROOTINO = T_DIR := rfl
  rw [hkind] at hialloc
  have hself₁ : update (fun _ => ([] : List Byte)) ROOTINO [] ROOTINO = [] := update_self _ _ _
  obtain ⟨image₂, happend₂, hbuilding₂, hinode₂, hblock₂⟩ :=
    iappend_spec hbuilding₁ (by decide : 0 < ROOTINO) (by rw [hinode₁]; decide)
      (encodeDirent ROOTINO [dot]) (by rw [hself₁]; decide)
      (by rw [hself₁, hblock₁]; decide)
  rw [hself₁, nil_append] at hbuilding₂ hblock₂
  have hself₂ : update (update (fun _ => ([] : List Byte)) ROOTINO [])
      ROOTINO (encodeDirent ROOTINO [dot]) ROOTINO = encodeDirent ROOTINO [dot] :=
    update_self _ _ _
  obtain ⟨image₃, happend₃, hbuilding₃, hinode₃, hblock₃⟩ :=
    iappend_spec hbuilding₂ (by decide : 0 < ROOTINO) (by rw [hinode₂, hinode₁]; decide)
      (encodeDirent ROOTINO [dot, dot]) (by rw [hself₂]; decide)
      (by rw [hself₂, hblock₂, hblock₁]; decide)
  rw [hself₂] at hbuilding₃ hblock₃
  have hprog : Progress [] image₃ := by
    refine ⟨hbuilding₃.congr ?_, ?_, ?_⟩
    · intro inum hpos hinum
      rw [hinode₃, hinode₂, hinode₁] at hinum
      have hroot : inum = ROOTINO := by
        have hinum' : inum < 2 := hinum
        rw [ROOTINO]
        omega
      subst hroot
      rw [update_self]
      rfl
    · rw [hinode₃, hinode₂, hinode₁]
      rfl
    · rw [hblock₃, hblock₂, hblock₁]
      rfl
  obtain ⟨image₄, hfold, hprogress₄⟩ := addFiles_spec files [] image₃ hprog hfits
  obtain ⟨image, hfinish, hmade⟩ := hprogress₄.finish
  refine ⟨image, ?_, hmade⟩
  rw [mkfs, hialloc, ok_bind]
  dsimp only
  rw [if_neg (by simp), happend₂, ok_bind, happend₃, ok_bind, hfold, ok_bind]
  exact hfinish

/-! ## Holes -/

/-- The number of blocks of a file with `size` bytes. -/
def blockCount (size : ℕ) : ℕ := (size + BSIZE - 1) / BSIZE

section
variable {files : List InputFile} {image : Image} {inum : ℕ}

theorem Made.used (hmade : Made files image) (hinum : inum < NINODES)
    (htype : (readDinode sb image.disk inum).type ≠ 0) : 0 < inum ∧ inum < files.length + 2 := by
  by_contra hnot
  exact htype (hmade.free inum hinum (by omega))

theorem Made.size_toNat (hmade : Made files image) (hpos : 0 < inum)
    (hinum : inum < files.length + 2) : (readDinode sb image.disk inum).size.toNat =
      recordedSize true inum (contentOf files inum).length := by
  have hbuilt := hmade.built inum hpos hinum
  have hlimit := hbuilt.limit
  rw [hbuilt.size, toNat_ofNat]
  refine Nat.mod_eq_of_lt ?_
  simp only [MAXFILE_eq, BSIZE_eq] at hlimit
  rw [recordedSize, BSIZE_eq]
  split <;> omega

/-- The blocks below the size are those below the length, unless the root ends at a
block boundary. -/
theorem Made.blocks (hmade : Made files image) (hboundary : (files.length + 2) % 64 ≠ 0)
    (hinodes : files.length + 1 < NINODES) (hpos : 0 < inum)
    (hinum : inum < files.length + 2) {bn : ℕ}
    (hbn : bn < blockCount (readDinode sb image.disk inum).size.toNat) :
    (fileBlock image.disk (readDinode sb image.disk inum) bn).isSome := by
  have hbuilt := hmade.built inum hpos hinum
  have hlimit := hbuilt.limit
  rw [hmade.size_toNat hpos hinum, blockCount, recordedSize] at hbn
  have hin : bn * BSIZE < (contentOf files inum).length ∧ bn < MAXFILE := by
    by_cases hroot : inum = ROOTINO
    · rw [if_pos ⟨rfl, hroot⟩] at hbn
      rw [hroot, contentOf_root, length_rootBytes] at hbn ⊢
      simp only [BSIZE_eq, sizeofDirent, MAXFILE_eq, NINODES_eq] at *
      omega
    · rw [if_neg (by simp [hroot])] at hbn
      simp only [BSIZE_eq, MAXFILE_eq] at *
      omega
  exact (hbuilt.extent.blocks bn hin.2).mpr hin.1

/-- When the entries of the root end at a block boundary, the rounded size has a block more
than the root. -/
theorem Made.hole (hmade : Made files image) (hboundary : (files.length + 2) % 64 = 0)
    (hinodes : files.length + 1 < NINODES) :
    ∃ bn < blockCount (readDinode sb image.disk ROOTINO).size.toNat,
      fileBlock image.disk (readDinode sb image.disk ROOTINO) bn = none := by
  have hinum : ROOTINO < files.length + 2 := by simp [ROOTINO]
  have hlength : (contentOf files ROOTINO).length = sizeofDirent * (files.length + 2) := by
    rw [contentOf_root, length_rootBytes]
  refine ⟨(files.length + 2) / 64, ?_, ?_⟩
  · rw [hmade.size_toNat (by decide) hinum, blockCount, recordedSize, if_pos ⟨rfl, rfl⟩, hlength]
    simp only [BSIZE_eq, sizeofDirent]
    omega
  · have hblock := (hmade.built ROOTINO (by decide) hinum).extent.blocks ((files.length + 2) / 64)
    rw [hlength] at hblock
    rw [← not_isSome_iff_eq_none, hblock]
    all_goals
      simp only [BSIZE_eq, sizeofDirent, MAXFILE_eq, NINODES_eq] at *
      omega

end

/-- Every block below the size of an inode in use is there, so that `bmap` finds it, and the
kernel reads any part of a file without changing the disk. -/
def NoHoles (image : Image) : Prop :=
  ∀ inum < NINODES, (readDinode sb image.disk inum).type ≠ 0 →
    (∀ bn < blockCount (readDinode sb image.disk inum).size.toNat, ∃ b,
      fileBlock image.disk (readDinode sb image.disk inum) bn = some b ∧
      bmap sb image.disk (readDinode sb image.disk inum) bn =
        .ok (b, image.disk, readDinode sb image.disk inum)) ∧
    ∀ (σ : Type) (copy : σ → ℕ → List Byte → Bool × σ) (dst : σ) (off n : ℕ),
      n < 2 ^ 32 → ∃ result dst',
        readi sb copy image.disk (readDinode sb image.disk inum) dst off n =
          .ok (result, image.disk, readDinode sb image.disk inum, dst')

/-- The image has no holes exactly if the root does not end at a block boundary. -/
theorem image_has_no_holes_iff (files : List InputFile) (hfits : Fits files) :
    ∃ image, mkfs files = .ok image ∧ (NoHoles image ↔ (files.length + 2) % 64 ≠ 0) := by
  obtain ⟨image, hmkfs, hmade⟩ := mkfs_spec hfits
  refine ⟨image, hmkfs, fun hholes hboundary => ?_, fun hboundary inum hinum htype => ?_⟩
  · obtain ⟨bn, hbn, hnone⟩ := hmade.hole hboundary hfits.inodes
    have htype : (readDinode sb image.disk ROOTINO).type ≠ 0 := by
      rw [(hmade.built ROOTINO (by decide) (by simp [ROOTINO])).type]
      decide
    obtain ⟨b, hb, -⟩ := (hholes ROOTINO (by decide) htype).1 bn hbn
    rw [hnone] at hb
    cases hb
  obtain ⟨hpos, hcount⟩ := hmade.used hinum htype
  have hblocks := fun bn hbn => @Made.blocks files image inum hmade hboundary hfits.inodes
    hpos hcount bn hbn
  constructor
  · intro bn hbn
    obtain ⟨b, hb⟩ := isSome_iff_exists.mp (hblocks bn hbn)
    exact ⟨b, hb, bmap_present sb hb⟩
  · intro σ copy dst off n hn
    have hcovered : Covered image.disk (readDinode sb image.disk inum) := by
      intro position hposition
      refine hblocks (position / BSIZE) ?_
      rw [blockCount]
      simp only [BSIZE_eq]
      omega
    obtain ⟨result, dst', hread, -⟩ := @readi_rule sb image.disk
      (readDinode sb image.disk inum) σ copy (fun _ _ => True) (fun _ => True) dst off n hn
      hcovered trivial (fun tot dst m _ _ => by split <;> trivial)
    exact ⟨result, dst', hread⟩

/-- `mkfs fs.img user/_cat` with a file of three bytes. -/
def oneFile : List InputFile := [⟨userDir ++ [0x5f, 0x63, 0x61, 0x74], [1, 2, 3], by decide⟩]

theorem oneFile_fits : Fits oneFile := by
  refine ⟨?_, ?_, by decide, by decide⟩ <;>
  · intro file hfile
    rw [oneFile, mem_singleton] at hfile
    subst hfile
    decide

theorem image_has_no_holes_iff_oneFile : Fits oneFile ∧
    ∃ image, mkfs oneFile = .ok image ∧ NoHoles image := by
  obtain ⟨image, hmkfs, hholes⟩ := image_has_no_holes_iff oneFile oneFile_fits
  exact ⟨oneFile_fits, image, hmkfs, hholes.mpr (by decide)⟩

/-- Sixty-two empty files: with `.` and `..` the entries fill one block. -/
def fullRoot : List InputFile := List.replicate 62 ⟨[0x61], [], by decide⟩

theorem fullRoot_fits : Fits fullRoot := by
  refine ⟨?_, ?_, by decide, by decide⟩ <;>
  · intro file hfile
    rw [eq_of_mem_replicate hfile]
    decide

/-- The size of the root is two blocks, but it has one: when the kernel reads the
second one, `bmap` allocates a block. -/
theorem full_root_has_a_hole : Fits fullRoot ∧ ∃ image, mkfs fullRoot = .ok image ∧
    blockCount (readDinode sb image.disk ROOTINO).size.toNat = 2 ∧
    fileBlock image.disk (readDinode sb image.disk ROOTINO) 1 = none ∧
    ∃ b disk' ip', bmap sb image.disk (readDinode sb image.disk ROOTINO) 1 = .ok (b, disk', ip') ∧
      bitSet sb image.disk b = false ∧ bitSet sb disk' b = true := by
  obtain ⟨image, hmkfs, hmade⟩ := mkfs_spec fullRoot_fits
  have hlength : (contentOf fullRoot ROOTINO).length = 1024 := by
    rw [contentOf_root, length_rootBytes]
    rfl
  have hbuilt := hmade.built ROOTINO (by decide) (by decide)
  have hnone : fileBlock image.disk (readDinode sb image.disk ROOTINO) 1 = none := by
    rw [← not_isSome_iff_eq_none, hbuilt.extent.blocks 1 (by decide), hlength]
    decide
  refine ⟨fullRoot_fits, image, hmkfs, ?_, hnone, ?_⟩
  · rw [hmade.size_toNat (by decide) (by decide), hlength]
    decide
  · have hfree : image.freeblock = 47 := hmade.freeblock.trans (by decide)
    have hempty : addr (readDinode sb image.disk ROOTINO) 1 = 0 := by
      rw [fileBlock, blockSlot, if_pos (by decide), inodeSlot_addr _ _ (by decide)] at hnone
      exact pointer_eq_none.mp hnone
    have hclear : bitSet sb image.disk 47 = false := by
      rw [hmade.bits 47 (by decide), hfree]
      rfl
    have hfind : ((List.range sb.size).find? fun b => !bitSet sb image.disk b) =
        some 47 := by
      rw [List.find?_range_eq_some]
      refine ⟨by rw [hclear]; rfl, mem_range.mpr (by decide), ?_⟩
      intro b hb
      rw [hmade.bits b (by rw [BPB_eq]; omega), hfree]
      simpa using hb
    have hballoc : InodeContent.balloc sb image.disk = .ok (47,
        InodeContent.bzero (markUsed sb image.disk 47) 47) := by
      rw [InodeContent.balloc, hfind]
    have halloc := balloc_spec hmade.layout.metadata hballoc
    refine ⟨47, InodeContent.bzero (markUsed sb image.disk 47) 47,
      InodeContent.setAddr (readDinode sb image.disk ROOTINO) 1 (BitVec.ofNat 32 47), ?_,
      hclear, ?_⟩
    · rw [bmap, if_pos (by decide), InodeContent.bmapAddr, if_pos hempty, hballoc]
      rfl
    · rw [halloc.bits 47 (by decide)]
      simp

end Xv6.MkfsNoHoles
