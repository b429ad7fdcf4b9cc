import Xv6.Fs.InodeSession
import Xv6.Mkfs.NoHoles

/-!
# Reading back the image

The kernel on the image that `mkfs` makes: `dirlookup` in the root finds the inode of
every file, `readi` returns its bytes, and the bitmap marks the metadata and the blocks
that the inodes reach.
-/

namespace Xv6.MkfsReadBack

open LittleEndian DiskLog DiskFormat InodeTable BlockOwnership FileContent ReadWrite Directory
open Outcome MkfsBuild MkfsNoHoles
open InodeContent (readi readiLoop copyToKernel)
open InodeSession (setContent_same)
open Mkfs (InputFile Image NINODES sb mkfs nmeta dropUser dropUnderscore)

variable {name : List Byte} {inum k index : ℕ} {disk : Disk} {fixed : Bool} {ip : Dinode}
  {entry found : ℕ × List Byte} {files : List InputFile} {image : Image} {fs : FsState}
  {file : InputFile}

/-! ## Names -/

theorem namecmpEqual_name {other : List Byte} (hname : 0 ∉ name.take DIRSIZ) (ho : 0 ∉ other) :
    namecmpEqual name (strncpyName other) = true ↔ name.take DIRSIZ = other.take DIRSIZ := by
  rw [namecmpEqual_iff, clip_strncpyName, clip_eq_take hname,
    clip_eq_take fun h => ho (List.mem_of_mem_take h)]

theorem shortname_noNull (file : InputFile) : 0 ∉ file.shortname := by
  have huser : 0 ∉ dropUser file.path := by
    rw [dropUser]
    split
    · exact fun h => file.noNull (List.mem_of_mem_drop h)
    · exact file.noNull
  rw [InputFile.shortname, dropUnderscore]
  split
  · exact fun h => huser (List.mem_of_mem_drop h)
  · exact huser

theorem direntInum_encodeDirent (hinum : inum < 2 ^ 16) (name : List Byte) :
    direntInum (encodeDirent inum name) = inum := by
  simp only [direntInum, encodeDirent, List.cons_append, List.getD_cons_zero,
    List.getD_cons_succ, BitVec.toNat_ofNat]
  omega

theorem direntName_encodeDirent (inum : ℕ) (name : List Byte) :
    direntName (encodeDirent inum name) = strncpyName name := rfl

/-! ## Reading a range that is there -/

section
variable {fs : FsState} {dp : InodePtr}

theorem readInode_range {off n : ℕ} (hsize : off + n ≤ (fs.inode dp).dinode.size.toNat)
    (hmapped : ∀ position, off ≤ position → position < off + n →
      (fileBlock fs.disk (fs.inode dp).dinode (position / BSIZE)).isSome) :
    readInode sb fs dp off n = .ok ((n : ℤ), fileBytes fs.disk (fs.inode dp).dinode off n, fs) := by
  have hbound := (fs.inode dp).dinode.size.isLt
  have hwrap : (off + n) % 2 ^ 32 = off + n := Nat.mod_eq_of_lt (by omega)
  obtain ⟨result, bytes, hloop, hres⟩ :=
    @readiLoop_rule sb fs.disk (fs.inode dp).dinode (List Byte) copyToKernel
      (fun tot dst => dst = fileBytes fs.disk (fs.inode dp).dinode off tot)
      (fun _ => False) n off
      (by
        rintro tot dst m rfl -
        exact (fileBytes_append fs.disk _ off tot m).symm)
      hmapped n [] 0 rfl (Nat.zero_le _) (Nat.sub_le _ _)
  rcases hres with ⟨rfl, rfl⟩ | ⟨-, hfalse⟩
  · have hread : readi sb copyToKernel fs.disk (fs.inode dp).dinode [] off n =
        .ok ((n : ℤ), fs.disk, (fs.inode dp).dinode,
          fileBytes fs.disk (fs.inode dp).dinode off n) := by
      rw [readi, hwrap, if_neg (by omega), if_neg (by omega)]
      exact hloop
    rw [readInode, hread, ok_bind]
    dsimp only
    rw [setContent_same]
    rfl
  · exact hfalse.elim

end

theorem built_fileBytes {bytes : List Byte} (hbuilt : Built disk fixed inum ip bytes) :
    fileBytes disk ip 0 bytes.length = bytes := by
  rw [fileBytes]
  simp only [Nat.zero_add, hbuilt.content]
  exact map_getD_range bytes

theorem getD_flatMap_dirents : ∀ (items : List (ℕ × List Byte)) (k index : ℕ)
    (entry : ℕ × List Byte), items[k]? = some entry → index < sizeofDirent →
    (items.flatMap fun entry => encodeDirent entry.1 entry.2).getD
      (sizeofDirent * k + index) 0 = (encodeDirent entry.1 entry.2).getD index 0 := by
  intro items
  induction items with
  | nil =>
    intro k index entry he
    cases he
  | cons item items ih =>
    intro k index entry he hi
    have hlen := length_encodeDirent item.1 item.2
    rw [List.flatMap_cons]
    cases k with
    | zero =>
      rw [List.getElem?_cons_zero, Option.some.injEq] at he
      subst he
      rw [Nat.mul_zero, Nat.zero_add, List.getD_append _ _ _ _ (by omega)]
    | succ k =>
      rw [List.getElem?_cons_succ] at he
      rw [List.getD_append_right _ _ _ _ (by rw [hlen, Nat.mul_succ]; omega),
        hlen, show sizeofDirent * (k + 1) + index - sizeofDirent =
          sizeofDirent * k + index by rw [Nat.mul_succ]; omega]
      exact ih k index entry he hi

theorem built_entry {items : List (ℕ × List Byte)}
    (hbuilt : Built disk fixed inum ip (items.flatMap fun entry => encodeDirent entry.1 entry.2))
    (he : items[k]? = some entry) :
    fileBytes disk ip (sizeofDirent * k) sizeofDirent = encodeDirent entry.1 entry.2 := by
  have hlen := length_encodeDirent entry.1 entry.2
  rw [← map_getD_range (encodeDirent entry.1 entry.2), hlen, fileBytes]
  refine List.map_congr_left fun index hi => ?_
  rw [hbuilt.content]
  exact getD_flatMap_dirents items k index entry he (List.mem_range.mp hi)

/-! ## Looking up a name -/

theorem built_root (hmade : Made files image) :
    Built image.disk true ROOTINO (readDinode sb image.disk ROOTINO)
    (rootBytes files) := by
  have hbuilt := hmade.built ROOTINO (by decide) (by rw [ROOTINO]; omega)
  rwa [contentOf_root] at hbuilt

theorem size_root (hmade : Made files image) :
    (readDinode sb image.disk ROOTINO).size.toNat =
    (sizeofDirent * (files.length + 2) / BSIZE + 1) * BSIZE := by
  rw [hmade.size_toNat (by decide) (by rw [ROOTINO]; omega), recordedSize,
    if_pos ⟨rfl, rfl⟩, contentOf_root, length_rootBytes]

/-- The kernel runs on the disk of the image, and `dp` is the root, locked.  The valid
inodes in memory are copies of those on the disk, and one slot of the table is free:
without one `iget` panics. -/
structure Mounted (image : Image) (fs : FsState) (dp : InodePtr) : Prop where
  disk : fs.disk = image.disk
  inum : (fs.inode dp).inum = ROOTINO
  ref : 0 < (fs.inode dp).ref
  valid : (fs.inode dp).valid = true
  copies : ∀ ip, 0 < (fs.inode ip).ref → (fs.inode ip).valid = true →
    (fs.inode ip).dinode = readDinode sb image.disk (fs.inode ip).inum
  room : ∃ ip, (fs.inode ip).ref = 0

/-- `ip` refers to inode `inum` of the image. -/
structure Refers (image : Image) (fs : FsState) (ip : InodePtr) (inum : ℕ) : Prop where
  disk : fs.disk = image.disk
  number : (fs.inode ip).inum = inum
  ref : 0 < (fs.inode ip).ref
  copy : (fs.inode ip).valid = true → (fs.inode ip).dinode = readDinode sb image.disk inum

theorem iget_spec {dp : InodePtr} (hmounted : Mounted image fs dp) (inum : ℕ) :
    ∃ ip fs', iget fs inum = .ok (ip, fs') ∧ Refers image fs' ip inum := by
  unfold iget
  split
  case h_1 ip hfind =>
    have hf := List.find?_some hfind
    rw [decide_eq_true_eq] at hf
    refine ⟨ip, _, rfl, hmounted.disk, ?_, ?_, ?_⟩
    · simpa [setRef, setInode] using hf.2
    · simp [setRef, setInode]
    · intro hval
      have hvalid' : (fs.inode ip).valid = true := by simpa [setRef, setInode] using hval
      have hcopy := hmounted.copies ip hf.1 hvalid'
      rw [hf.2] at hcopy
      simpa [setRef, setInode] using hcopy
  case h_2 =>
    split
    case h_1 hnone =>
      obtain ⟨ip, hip⟩ := hmounted.room
      have hall := List.find?_eq_none.mp hnone ip (List.mem_finRange ip)
      simp [hip] at hall
    case h_2 empty hnil =>
      refine ⟨empty, _, rfl, hmounted.disk, ?_, ?_, ?_⟩
      · simp [setInode]
      · simp [setInode]
      · intro hval
        simp [setInode] at hval

theorem ilock_spec {ip : InodePtr}
    (hrefers : Refers image fs ip inum) (htype : (readDinode sb image.disk inum).type ≠ 0) :
    ∃ fs', ilock sb fs ip = .ok fs' ∧ fs'.disk = image.disk ∧
      (fs'.inode ip).dinode = readDinode sb image.disk inum := by
  have href := hrefers.ref
  rw [ilock, if_neg (by omega)]
  by_cases hval : (fs.inode ip).valid = true
  · rw [if_pos hval]
    exact ⟨fs, rfl, hrefers.disk, hrefers.copy hval⟩
  · rw [if_neg hval, hrefers.number, hrefers.disk]
    dsimp only
    rw [if_neg htype]
    refine ⟨_, rfl, hrefers.disk, ?_⟩
    simp [setInode]

section
variable {files : List InputFile} {image : Image} {fs : FsState} {dp : InodePtr}
  (hmade : Made files image) (hmounted : Mounted image fs dp)
include hmade hmounted

omit hmade in
theorem root_copy : (fs.inode dp).dinode = readDinode sb image.disk ROOTINO := by
  have hcopy := hmounted.copies dp hmounted.ref hmounted.valid
  rw [hmounted.inum] at hcopy
  exact hcopy

theorem root_built : Built fs.disk true ROOTINO (fs.inode dp).dinode (rootBytes files) := by
  rw [hmounted.disk, root_copy hmounted]
  exact built_root hmade

theorem root_size : (fs.inode dp).dinode.size.toNat =
    (sizeofDirent * (files.length + 2) / BSIZE + 1) * BSIZE := by
  rw [root_copy hmounted, size_root hmade]

theorem readInode_entry (he : (entries files)[k]? = some entry) :
    readInode sb fs dp (sizeofDirent * k) sizeofDirent =
      .ok ((sizeofDirent : ℤ), encodeDirent entry.1 entry.2, fs) := by
  have hbuilt := root_built hmade hmounted
  have hk : k < files.length + 2 := by
    rw [← length_entries]
    exact (List.getElem?_eq_some_iff.mp he).1
  have hlimit := hbuilt.limit
  rw [length_rootBytes] at hlimit
  have hextent := hbuilt.extent
  rw [length_rootBytes] at hextent
  rw [readInode_range, built_entry hbuilt he]
  · rw [root_size hmade hmounted]
    simp only [sizeofDirent, BSIZE_eq]
    omega
  · intro position hlow hhigh
    refine (hextent.blocks _ ?_).mpr ?_ <;>
    · simp only [sizeofDirent, BSIZE_eq, MAXFILE_eq] at *
      omega

/-- The loop of `dirlookup` from entry `k` on, if entry `k + ahead` is the first one
with the name. -/
theorem dirlookupLoop_finds (hname : 0 ∉ name.take DIRSIZ)
    (hinums : ∀ entry ∈ entries files, 0 < entry.1 ∧ entry.1 < 2 ^ 16 ∧ 0 ∉ entry.2)
    (hmatch : name.take DIRSIZ = found.2.take DIRSIZ)
    (ahead : ℕ) : ∀ k steps, (entries files)[k + ahead]? = some found → ahead < steps →
    (∀ j, k ≤ j → j < k + ahead → ∀ entry, (entries files)[j]? = some entry →
      name.take DIRSIZ ≠ entry.2.take DIRSIZ) →
    dirlookupLoop sb dp name steps fs (sizeofDirent * k) = (iget fs found.1).bind fun (ip, fs) =>
        .ok (some (ip, sizeofDirent * (k + ahead)), fs) := by
  induction ahead with
  | zero =>
    intro k steps hf hsteps hbefore
    obtain ⟨steps, rfl⟩ := Nat.exists_eq_succ_of_ne_zero (by omega : steps ≠ 0)
    rw [Nat.add_zero] at hf ⊢
    obtain ⟨hpos, hsmall, hnull⟩ := hinums found (List.mem_of_getElem? hf)
    rw [dirlookupLoop, readInode_entry hmade hmounted hf, ok_bind]
    dsimp only
    rw [if_neg (by simp), direntInum_encodeDirent hsmall, direntName_encodeDirent,
      if_pos ⟨by omega, (namecmpEqual_name hname hnull).mpr hmatch⟩]
    rfl
  | succ ahead ih =>
    intro k steps hf hsteps hbefore
    obtain ⟨steps, rfl⟩ := Nat.exists_eq_succ_of_ne_zero (by omega : steps ≠ 0)
    have hin : k + (ahead + 1) < (entries files).length := (List.getElem?_eq_some_iff.mp hf).1
    obtain ⟨entry, he⟩ : ∃ entry, (entries files)[k]? = some entry :=
      ⟨_, List.getElem?_eq_getElem (by omega)⟩
    obtain ⟨hpos, hsmall, hnull⟩ := hinums entry (List.mem_of_getElem? he)
    have hdiffer := hbefore k le_rfl (by omega) entry he
    rw [dirlookupLoop, readInode_entry hmade hmounted he, ok_bind]
    dsimp only
    rw [if_neg (by simp), direntInum_encodeDirent hsmall, direntName_encodeDirent,
      if_neg fun h => hdiffer ((namecmpEqual_name hname hnull).mp h.2)]
    have hshift : k + (ahead + 1) = k + 1 + ahead := by omega
    have hnext : sizeofDirent * k + sizeofDirent = sizeofDirent * (k + 1) := by rw [Nat.mul_succ]
    rw [hnext, hshift]
    rw [hshift] at hf
    exact ih (k + 1) steps hf (by omega) fun j hlow hhigh => hbefore j (by omega) (by omega)

theorem dirlookup_finds (hname : 0 ∉ name.take DIRSIZ)
    (hinums : ∀ entry ∈ entries files, 0 < entry.1 ∧ entry.1 < 2 ^ 16 ∧ 0 ∉ entry.2)
    (hmatch : name.take DIRSIZ = found.2.take DIRSIZ) (hf : (entries files)[index]? = some found)
    (hfst : ∀ j < index, ∀ entry, (entries files)[j]? = some entry →
      name.take DIRSIZ ≠ entry.2.take DIRSIZ) :
    ∃ ip off fs', dirlookup sb fs dp name = .ok (some (ip, off), fs') ∧
      Refers image fs' ip found.1 := by
  have htype : (fs.inode dp).dinode.type = T_DIR := (root_built hmade hmounted).type
  have hi : index < files.length + 2 := by
    rw [← length_entries]
    exact (List.getElem?_eq_some_iff.mp hf).1
  have hsteps : index < direntSteps 0 (fs.inode dp).dinode.size.toNat := by
    rw [root_size hmade hmounted, direntSteps]
    simp only [sizeofDirent, BSIZE_eq]
    omega
  have hloop := dirlookupLoop_finds hmade hmounted hname hinums hmatch index 0 _
    (by rw [Nat.zero_add]; exact hf) hsteps
    (fun j _ hj => hfst j (by omega))
  obtain ⟨ip, fs', higet, hrefers⟩ := iget_spec hmounted found.1
  refine ⟨ip, sizeofDirent * (0 + index), fs', ?_, hrefers⟩
  rw [dirlookup]
  dsimp only
  rw [if_neg (by simp [htype])]
  rw [Nat.mul_zero] at hloop
  rw [hloop, higet]
  rfl

end

/-! ## The whole image -/

/-- The names are other than `.` and `..`, and differ in their first `DIRSIZ` bytes. -/
structure Names (files : List InputFile) : Prop where
  nonempty : ∀ file ∈ files, file.shortname ≠ []
  dots : ∀ file ∈ files, file.shortname ≠ [dot] ∧ file.shortname ≠ [dot, dot]
  distinct : (files.map fun file => file.shortname.take DIRSIZ).Nodup

theorem entries_file (hfile : files[index]? = some file) :
    (entries files)[index + 2]? = some (index + 2, file.shortname) := by
  simp [entries, hfile]

theorem entries_valid : ∀ entry ∈ entries files,
    0 < entry.1 ∧ entry.1 < files.length + 2 ∧ 0 ∉ entry.2 := by
  intro entry he
  rw [entries, List.mem_cons, List.mem_cons, List.mem_map] at he
  rcases he with rfl | rfl | ⟨⟨file, index⟩, hmem, rfl⟩
  · exact ⟨by decide, by simp [ROOTINO], by decide⟩
  · exact ⟨by decide, by simp [ROOTINO], by decide⟩
  · have hi := List.snd_lt_of_mem_zipIdx hmem
    refine ⟨Nat.succ_pos _, ?_, shortname_noNull file⟩
    dsimp only at hi ⊢
    omega

theorem entries_small (hinodes : files.length + 1 < NINODES) :
    ∀ entry ∈ entries files, 0 < entry.1 ∧ entry.1 < 2 ^ 16 ∧ 0 ∉ entry.2 := by
  intro entry he
  obtain ⟨hpos, hlt, hnull⟩ := entries_valid entry he
  simp only [Mkfs.NINODES_eq] at hinodes
  exact ⟨hpos, by omega, hnull⟩

theorem take_ne_dots {short : List Byte} (hshort : short.length < DIRSIZ)
    (hne : name ≠ short) : name.take DIRSIZ ≠ short.take DIRSIZ := by
  intro heq
  rw [List.take_of_length_le hshort.le] at heq
  have hlen := congrArg List.length heq
  rw [List.length_take] at hlen
  rw [List.take_of_length_le (by omega)] at heq
  exact hne heq

theorem entries_before (hnames : Names files) (hfile : files[index]? = some file)
    (hname : name.take DIRSIZ = file.shortname.take DIRSIZ) :
    ∀ j < index + 2, ∀ entry, (entries files)[j]? = some entry →
      name.take DIRSIZ ≠ entry.2.take DIRSIZ := by
  intro j hj entry he
  rw [hname]
  have hdots := hnames.dots file (List.mem_of_getElem? hfile)
  match j, he with
  | 0, he =>
    simp only [entries, List.getElem?_cons_zero, Option.some.injEq] at he
    subst he
    exact take_ne_dots (by decide) hdots.1
  | 1, he =>
    simp only [entries, List.getElem?_cons_succ, List.getElem?_cons_zero, Option.some.injEq] at he
    subst he
    exact take_ne_dots (by decide) hdots.2
  | j + 2, he =>
    have hi := (List.getElem?_eq_some_iff.mp hfile).1
    obtain ⟨other, ho⟩ : ∃ other, files[j]? = some other := ⟨_, List.getElem?_eq_getElem (by omega)⟩
    rw [entries_file ho, Option.some.injEq] at he
    subst he
    intro heq
    have hleft : (files.map fun file => file.shortname.take DIRSIZ)[index]? =
        some (file.shortname.take DIRSIZ) := by simp [hfile]
    have hright : (files.map fun file => file.shortname.take DIRSIZ)[j]? =
        some (other.shortname.take DIRSIZ) := by simp [ho]
    rw [heq, ← hright] at hleft
    have hsame := (List.getElem?_inj (by simpa using hi) hnames.distinct).mp hleft
    omega

/-- On the image that `mkfs` makes, `dirlookup` of the name of each file finds an inode
with the size of the file, from which `readi` returns its bytes; `.` and `..` are the
root; the bitmap marks the metadata and the blocks that the inodes reach, and each of
these is reached once. -/
theorem kernel_reads_image_back (files : List InputFile) (hfits : Fits files)
    (hnames : Names files) :
    ∃ image, mkfs files = .ok image ∧ (∀ fs dp, Mounted image fs dp →
        (∀ (index : ℕ) (file : InputFile), files[index]? = some file →
          ∀ name : List Byte, name.take DIRSIZ = file.shortname.take DIRSIZ →
          ∃ ip off fs' locked, dirlookup sb fs dp name = .ok (some (ip, off), fs') ∧
            ilock sb fs' ip = .ok locked ∧
            (locked.inode ip).dinode.size.toNat = file.content.length ∧
            readInode sb locked ip 0 file.content.length =
              .ok ((file.content.length : ℤ), file.content, locked)) ∧
        ∀ name ∈ [[dot], [dot, dot]], ∃ ip off fs',
          dirlookup sb fs dp name = .ok (some (ip, off), fs') ∧ (fs'.inode ip).inum = ROOTINO) ∧
      (∀ b < BPB, bitSet sb image.disk b = true ↔ b < nmeta ∨ ∃ position,
          held sb image.disk (readDinode sb image.disk) position = some b) ∧
      ∀ left right b, held sb image.disk (readDinode sb image.disk) left = some b →
        held sb image.disk (readDinode sb image.disk) right = some b →
        nmeta ≤ b ∧ left = right := by
  obtain ⟨image, hmkfs, hmade⟩ := mkfs_spec hfits
  have hvalid := entries_small hfits.inodes
  have howners := hmade.layout.owners
  refine ⟨image, hmkfs, fun fs dp hmounted => ⟨?_, ?_⟩, ?_, ?_⟩
  · intro index file hfile name hname
    have hindex := (List.getElem?_eq_some_iff.mp hfile).1
    have hnull : 0 ∉ name.take DIRSIZ := by
      rw [hname]
      exact fun h => shortname_noNull file (List.mem_of_mem_take h)
    obtain ⟨ip, off, fs', hlookup, hrefers⟩ := dirlookup_finds hmade hmounted hnull hvalid
      hname (entries_file hfile) (entries_before hnames hfile hname)
    have hbuilt := hmade.built (index + 2) (by omega) (by omega)
    have hsize := hmade.size_toNat (by omega : 0 < index + 2) (by omega)
    have hnotRoot : index + 2 ≠ ROOTINO := by
      rw [ROOTINO]
      omega
    rw [contentOf_file, hfile, Option.elim_some] at hbuilt hsize
    rw [recordedSize, if_neg (by simp [hnotRoot])] at hsize
    obtain ⟨locked, hlock, hdisk, hdinode⟩ := ilock_spec hrefers (by
      rw [hbuilt.type]
      exact kindOf_ne _)
    dsimp only at hdinode
    refine ⟨ip, off, fs', locked, hlookup, hlock, by rw [hdinode, hsize], ?_⟩
    have hlimit := hbuilt.limit
    rw [readInode_range, hdisk, hdinode, built_fileBytes hbuilt]
    · rw [hdinode, hsize, Nat.zero_add]
    · intro position _ hhigh
      rw [hdisk, hdinode]
      refine (hbuilt.extent.blocks _ ?_).mpr ?_ <;>
      · simp only [BSIZE_eq, MAXFILE_eq] at *
        omega
  · intro name hname
    have hcases : ∃ index < 2, (entries files)[index]? = some (ROOTINO, name) ∧
        0 ∉ name.take DIRSIZ ∧ ∀ j < index, ∀ entry, (entries files)[j]? = some entry →
          name.take DIRSIZ ≠ entry.2.take DIRSIZ := by
      simp only [List.mem_cons, List.not_mem_nil, or_false] at hname
      rcases hname with rfl | rfl
      · exact ⟨0, by decide, rfl, by decide, fun j hj => absurd hj (Nat.not_lt_zero j)⟩
      · refine ⟨1, by decide, rfl, by decide, fun j hj entry hentry => ?_⟩
        obtain rfl : j = 0 := by omega
        simp only [entries, List.getElem?_cons_zero, Option.some.injEq] at hentry
        subst hentry
        decide
    obtain ⟨index, -, hfound, hnull, hfirst⟩ := hcases
    obtain ⟨ip, off, fs', hlookup, hrefers⟩ := dirlookup_finds hmade hmounted hnull hvalid
      rfl hfound hfirst
    exact ⟨ip, off, fs', hlookup, hrefers.number⟩
  · intro b hb
    constructor
    · intro hset
      by_cases hmeta : b < nmeta
      · exact .inl hmeta
      · have hfree := of_decide_eq_true ((hmade.bits b hb).symm.trans hset)
        exact .inr (howners.found b ⟨Nat.le_of_not_lt hmeta, lt_of_lt_of_le hfree hmade.high, hset⟩)
    · rintro (hmeta | ⟨position, hheld⟩)
      · exact hmade.layout.metadata b hmeta
      · exact (howners.marked position b hheld).2.2
  · intro left right b hleft hright
    exact ⟨(howners.marked left b hleft).1, howners.unique left right b hleft hright⟩

theorem zero_lt_NINODE : 0 < NINODE := by decide

def rootSlot : InodePtr := ⟨0, zero_lt_NINODE⟩

/-- The kernel on an image, with the root in the first slot of the table. -/
def mountedAt (image : Image) : FsState where
  disk := image.disk
  inode := fun ip => if ip = rootSlot then ⟨ROOTINO, 1, true, readDinode sb image.disk ROOTINO⟩
    else ⟨0, 0, false, readDinode sb image.disk 0⟩

theorem mountedAt_mounted (image : Image) : Mounted image (mountedAt image) rootSlot := by
  refine ⟨rfl, rfl, Nat.one_pos, rfl, fun ip href _ => ?_, ⟨1, by decide⟩, rfl⟩
  by_cases hip : ip = rootSlot
  · subst hip
    rfl
  · simp [mountedAt, hip] at href

theorem oneFile_names : Names oneFile := by
  refine ⟨?_, ?_, by decide⟩ <;>
  · intro file hfile
    rw [oneFile, List.mem_singleton] at hfile
    subst hfile
    decide

/-- `cat` is read back from the image of one file. -/
theorem kernel_reads_image_back_oneFile : Fits oneFile ∧ Names oneFile ∧
    ∃ image, mkfs oneFile = .ok image ∧ ∃ ip off fs' locked,
      dirlookup sb (mountedAt image) rootSlot [0x63, 0x61, 0x74] = .ok (some (ip, off), fs') ∧
      ilock sb fs' ip = .ok locked ∧
      readInode sb locked ip 0 3 = .ok (3, [1, 2, 3], locked) := by
  obtain ⟨image, hmkfs, hread, -⟩ :=
    kernel_reads_image_back oneFile oneFile_fits oneFile_names
  obtain ⟨ip, off, fs', locked, hlookup, hlock, -, hbytes⟩ :=
    (hread (mountedAt image) rootSlot (mountedAt_mounted image)).1 0 _ rfl
      [0x63, 0x61, 0x74] (by decide)
  exact ⟨oneFile_fits, oneFile_names, image, hmkfs, ip, off, fs', locked, hlookup, hlock, hbytes⟩

end Xv6.MkfsReadBack
