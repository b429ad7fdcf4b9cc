import Xv6.Core.Interleaving
import Xv6.Fs.ByteArrays
import Xv6.Fs.InodeSession
import Xv6.Mkfs.NoHoles

/-!
# Block ownership in every run

The functions on directories and the calls `create` and `sys_unlink` keep the invariant
of the file system, and so does every sequence of operations on inodes: the bitmap is
exact, every block is owned once, no file has a hole, and no free block is freed.
-/

namespace Xv6.BlockRuns

open LittleEndian DiskLog DiskFormat InodeContent BlockOwnership FileContent ReadWrite BitVec
open Multiset FileSystem InodeTable InodeSession Directory Outcome Interleaving
open ByteArrays (supplies_copyFromKernel)

variable {off inum : ℕ} {cwd : InodePtr}

section
variable {walk : Prop} {sb : Superblock} {fs : FsState} {pins : Multiset InodePtr}
  {locked : Set InodePtr} {ip dp : InodePtr}

theorem ialloc_spec (hsess : Session walk sb fs pins locked) (type : BitVec 16) :
    Avoids FreesFree (ialloc sb fs type) fun result =>
      Session walk sb result.2 (result.1 ::ₘ pins) locked := by
  unfold ialloc
  split
  case h_1 => exact Avoids.error (by intro h; cases h)
  case h_2 inum hfind =>
    have hfree := List.find?_some hfind
    rw [decide_eq_true_eq] at hfree
    have hrange : inum < sb.ninodes := by
      have hmem := List.mem_of_find?_eq_some hfind
      rw [List.mem_range'_1] at hmem
      omega
    exact iget_spec (hsess.writeFree hrange hfree rfl rfl) hrange

/-! ## Directories -/

def Found (sb : Superblock) (pins : Multiset InodePtr) (locked : Set InodePtr) :
    Option (InodePtr × ℕ) × FsState → Prop
  | (none, fs) => Session True sb fs pins locked
  | (some (ip, off), fs) => Session True sb fs (ip ::ₘ pins) locked ∧ off % sizeofDirent = 0

theorem dirlookupLoop_spec (hsess : Session True sb fs pins locked) (hdp : dp ∈ locked)
    (htype : (fs.inode dp).dinode.type = T_DIR) (name : List Byte) (steps : ℕ) :
    ∀ off, off % sizeofDirent = 0 →
      Avoids FreesFree (dirlookupLoop sb dp name steps fs off) (Found sb pins locked) := by
  obtain ⟨hrange, hcopy, -⟩ := hsess.locked_inode hdp
  induction steps with
  | zero => exact fun off _ => Avoids.ok hsess
  | succ steps ih =>
    intro off halign
    rw [dirlookupLoop, readInode_eq hsess hdp (by decide), ok_bind]
    dsimp only
    split
    · exact Avoids.error (by intro h; cases h)
    case isFalse hwhole =>
      have hcount : readCount (fs.inode dp).dinode off sizeofDirent = sizeofDirent := by
        have heq := not_not.mp hwhole
        exact_mod_cast heq
      have hfits : off + sizeofDirent ≤ (fs.inode dp).dinode.size.toNat := by
        have hle := @readCount_le (fs.inode dp).dinode off sizeofDirent (by decide)
        rw [hcount] at hle
        exact hle.resolve_left (by decide)
      rw [hcount]
      split
      · have he : direntInum (fileBytes fs.disk (fs.inode dp).dinode off
            sizeofDirent) < sb.ninodes := by
          rw [hcopy] at htype hfits ⊢
          exact hsess.intact.entries trivial _ hrange htype off halign hfits
        refine (iget_spec hsess he).bind fun result hres => ?_
        exact Avoids.ok ⟨hres, halign⟩
      · refine ih (off + sizeofDirent) ?_
        rw [Nat.add_mod_right]
        exact halign

theorem dirlookup_spec (hsess : Session True sb fs pins locked) (hdp : dp ∈ locked)
    (name : List Byte) : Avoids FreesFree (dirlookup sb fs dp name) (Found sb pins locked) := by
  unfold dirlookup
  dsimp only
  split
  · exact Avoids.error (by intro h; cases h)
  case isFalse htype => exact dirlookupLoop_spec hsess hdp (not_not.mp htype) name _ 0 rfl

theorem dirlinkLoop_spec (hsess : Session True sb fs pins locked) (hdp : dp ∈ locked)
    (steps : ℕ) : ∀ off, off % sizeofDirent = 0 →
      Avoids FreesFree (dirlinkLoop sb dp steps fs off) fun result =>
        result.2 = fs ∧ result.1 % sizeofDirent = 0 := by
  induction steps with
  | zero => exact fun off halign => Avoids.ok ⟨rfl, halign⟩
  | succ steps ih =>
    intro off halign
    rw [dirlinkLoop, readInode_eq hsess hdp (by decide), ok_bind]
    dsimp only
    split
    · exact Avoids.error (by intro h; cases h)
    · split
      · exact Avoids.ok ⟨rfl, halign⟩
      · refine ih (off + sizeofDirent) ?_
        rw [Nat.add_mod_right]
        exact halign

theorem wholeEntry_kernel {bytes : List Byte} (hlen : bytes.length = sizeofDirent)
    (hinum : direntInum bytes < sb.ninodes) (halign : off % sizeofDirent = 0) :
    WholeEntry sb (copyFromKernel bytes) off sizeofDirent := by
  refine ⟨halign, rfl, fun index => bytes.getD index 0, ?_, ?_⟩
  · rw [← hlen]
    exact (supplies_copyFromKernel bytes).2
  · rw [← hlen, map_getD_range]
    exact hinum

theorem direntInum_encode_le (inum : ℕ) (name : List Byte) :
    direntInum (encodeDirent inum name) ≤ inum := by
  simp only [direntInum, encodeDirent, List.cons_append, List.getD_cons_zero,
    List.getD_cons_succ, toNat_ofNat]
  omega

theorem dirlink_spec (hsess : Session True sb fs pins locked) (hdp : dp ∈ locked)
    (name : List Byte) (hinum : inum < sb.ninodes) :
    Avoids FreesFree (dirlink sb fs dp name inum) fun result =>
      Session True sb result.2 pins locked := by
  unfold dirlink
  refine (dirlookup_spec hsess hdp name).bind fun result hres => ?_
  obtain ⟨_ | ⟨ip, off⟩, fs'⟩ := result
  · have hsession' : Session True sb fs' pins locked := hres
    dsimp only
    refine (dirlinkLoop_spec hsession' hdp _ 0 rfl).bind fun result hloop => ?_
    obtain ⟨off, fs''⟩ := result
    obtain ⟨hsame, halign⟩ := hloop
    dsimp only at hsame halign ⊢
    subst hsame
    have he := wholeEntry_kernel (length_encodeDirent inum name)
      ((direntInum_encode_le inum name).trans_lt hinum) halign
    refine (writeInode_spec hsession' hdp (supplies_copyFromKernel _).1 (by decide)
      fun _ _ => he).bind fun result hwrote => ?_
    split
    · exact Avoids.error (by intro h; cases h)
    · exact Avoids.ok hwrote
  · obtain ⟨hsession', -⟩ := hres
    refine (iput_spec hsession' (mem_cons_self ip pins)
      fun other ho => ⟨ho, ?_⟩).bind fun fs'' hput => ?_
    · rw [erase_cons_head]
      exact (hsess.valid other ho).1
    · rw [erase_cons_head] at hput
      exact Avoids.ok hput

/-! ## Paths -/

def Looked (sb : Superblock) (pins : Multiset InodePtr) :
    Option (InodePtr × List Byte) × FsState → Prop
  | (none, fs) => Session True sb fs pins ∅
  | (some (ip, _), fs) => Session True sb fs (ip ::ₘ pins) ∅

theorem iput_head (hsess : Session walk sb fs (ip ::ₘ pins) locked) :
    Avoids FreesFree (iput sb fs ip) fun fs' => Session walk sb fs' pins ∅ := by
  have hput := @iput_spec _ sb fs (ip ::ₘ pins) locked ip hsess
    (mem_cons_self ip pins) ∅ fun other ho => ho.elim
  rw [erase_cons_head] at hput
  exact hput

theorem iput_second (hsess : Session walk sb fs (ip ::ₘ dp ::ₘ pins) locked) :
    Avoids FreesFree (iput sb fs dp) fun fs' => Session walk sb fs' (ip ::ₘ pins) ∅ := by
  rw [cons_swap] at hsess
  exact iput_head hsess

theorem namexLoop_spec (parent : Bool) (fuel : ℕ) :
    ∀ (fs : FsState) (ip : InodePtr) (path name : List Byte), Session True sb fs (ip ::ₘ pins) ∅ →
      Avoids FreesFree (namexLoop sb parent fuel fs ip path name) (Looked sb pins) := by
  induction fuel with
  | zero => exact fun fs ip path name hsess => Avoids.ok hsess
  | succ fuel ih =>
    intro fs ip path name hsess
    rw [namexLoop]
    split
    · split
      · exact (iput_head hsess).bind fun fs' hput => Avoids.ok hput
      · exact Avoids.ok hsess
    · refine (ilock_spec hsess (mem_cons_self ip pins)).bind fun fs' hlock => ?_
      split
      · exact (iput_head hlock).bind fun fs'' hput => Avoids.ok hput
      · split
        · exact Avoids.ok (hlock.mono le_rfl fun _ h => h.elim)
        · refine (dirlookup_spec hlock (Set.mem_insert ip ∅) _).bind fun result hres => ?_
          obtain ⟨_ | ⟨next, off⟩, fs''⟩ := result
          · have hf : Session True sb fs'' (ip ::ₘ pins) (insert ip ∅) := hres
            exact (iput_head hf).bind fun fs'' hput => Avoids.ok hput
          · obtain ⟨hf, -⟩ := hres
            exact (iput_second hf).bind fun fs'' hput => ih fs'' next _ _ hput

theorem namex_spec (hsess : Session True sb fs pins ∅) (hroot : ROOTINO < sb.ninodes)
    (hcwd : 0 < (fs.inode cwd).ref) (path : List Byte) (parent : Bool) :
    Avoids FreesFree (namex sb fs cwd path parent) (Looked sb pins) := by
  unfold namex
  dsimp only
  split
  · exact (iget_spec hsess hroot).bind fun result hres => namexLoop_spec parent _ _ _ _ _ hres
  · exact namexLoop_spec parent _ _ _ _ _ (idup_spec hsess hcwd)

/-! ## `create` -/

theorem pinned_inum (hsess : Session True sb fs pins locked) (hip : ip ∈ locked) :
    (fs.inode ip).inum < sb.ninodes :=
  (hsess.locked_inode hip).1

theorem createDots_spec (hsess : Session True sb fs pins locked) (hdp : dp ∈ locked)
    (hip : ip ∈ locked) :
    Avoids FreesFree (createDots sb fs dp ip) fun fs' => Session True sb fs' pins locked := by
  unfold createDots
  dsimp only
  have hpar := @updateInode_spec _ sb fs pins locked dp hsess hdp
    { (fs.inode dp).dinode with nlink := (fs.inode dp).dinode.nlink + 1 } rfl rfl rfl
  refine (dirlink_spec hpar hip [dot] (pinned_inum hpar hip)).bind fun result hdot => ?_
  obtain ⟨_ | _, fs₁⟩ := result
  · exact Avoids.error (by intro h; cases h)
  · refine (dirlink_spec hdot hip [dot, dot] (pinned_inum hdot hdp)).bind fun result hdots => ?_
    obtain ⟨_ | _, fs₂⟩ := result
    · exact Avoids.error (by intro h; cases h)
    · exact Avoids.ok hdots

theorem linkCreated_spec (hsess : Session True sb fs (ip ::ₘ dp ::ₘ 0) (insert ip (insert dp ∅)))
    (name : List Byte) :
    Avoids FreesFree (do
      match ← dirlink sb fs dp name (fs.inode ip).inum with
      | (false, _) => throw Panic.createDirlink
      | (true, fs) =>
        let fs ← iput sb fs dp
        return (some ip, fs)) fun result => Consistent True sb result.2 := by
  have hip : ip ∈ insert ip (insert dp (∅ : Set InodePtr)) := Set.mem_insert ip _
  have hdp : dp ∈ insert ip (insert dp (∅ : Set InodePtr)) :=
    Set.mem_insert_of_mem ip (Set.mem_insert dp ∅)
  refine (dirlink_spec hsess hdp name (pinned_inum hsess hip)).bind fun result hlink => ?_
  obtain ⟨_ | _, fs'⟩ := result
  · exact Avoids.error (by intro h; cases h)
  · exact (iput_second hlink).bind fun fs' hput => Avoids.ok hput.toConsistent

theorem create_spec (hcons : Consistent True sb fs) (hroot : ROOTINO < sb.ninodes)
    (hcwd : 0 < (fs.inode cwd).ref) (path : List Byte)
    (type major minor : BitVec 16) :
    Avoids FreesFree (create sb fs cwd path type major minor) fun result =>
      Consistent True sb result.2 := by
  unfold create
  refine (namex_spec hcons.session hroot hcwd path true).bind fun result hres => ?_
  obtain ⟨_ | ⟨dp, name⟩, fs₁⟩ := result
  · exact Avoids.ok (Session.toConsistent hres)
  have hlooked : Session True sb fs₁ (dp ::ₘ 0) ∅ := hres
  refine (ilock_spec hlooked (mem_cons_self dp 0)).bind fun fs₂ hlock => ?_
  refine (dirlookup_spec hlock (Set.mem_insert dp ∅) name).bind fun result hf => ?_
  obtain ⟨_ | ⟨ip, off⟩, fs₃⟩ := result
  · have hnone : Session True sb fs₃ (dp ::ₘ 0) (insert dp ∅) := hf
    dsimp only
    refine (ialloc_spec hnone type).bind fun result halloc => ?_
    obtain ⟨ip, fs₄⟩ := result
    refine (ilock_spec halloc (mem_cons_self ip _)).bind fun fs₅ hboth => ?_
    dsimp only at hboth ⊢
    have hip : ip ∈ insert ip (insert dp (∅ : Set InodePtr)) := Set.mem_insert ip _
    have hdp : dp ∈ insert ip (insert dp (∅ : Set InodePtr)) :=
      Set.mem_insert_of_mem ip (Set.mem_insert dp ∅)
    have hfields := @updateInode_spec _ sb fs₅ _ _ ip hboth hip
      { (fs₅.inode ip).dinode with major := major, minor := minor, nlink := 1 }
      rfl rfl rfl
    split
    · exact (createDots_spec hfields hdp hip).bind fun fs₆ hdots => linkCreated_spec hdots name
    · exact linkCreated_spec hfields name
  · obtain ⟨hsome, -⟩ := hf
    dsimp only
    refine (iput_second hsome).bind fun fs₄ hput => ?_
    refine (ilock_spec hput (mem_cons_self ip 0)).bind fun fs₅ hip => ?_
    split
    · exact Avoids.ok hip.toConsistent
    · exact (iput_head hip).bind fun fs₆ hput => Avoids.ok hput.toConsistent

/-! ## `sys_unlink` -/

theorem isdiremptyLoop_spec (hsess : Session True sb fs pins locked) (hip : ip ∈ locked)
    (steps : ℕ) : ∀ off, Avoids FreesFree (isdiremptyLoop sb ip steps fs off)
      fun result => result.2 = fs := by
  induction steps with
  | zero => exact fun off => Avoids.ok rfl
  | succ steps ih =>
    intro off
    rw [isdiremptyLoop, readInode_eq hsess hip (by decide), ok_bind]
    dsimp only
    split
    · exact Avoids.error (by intro h; cases h)
    · split
      · exact Avoids.ok rfl
      · exact ih _

theorem removable_spec (hsess : Session True sb fs pins locked) (hip : ip ∈ locked) :
    Avoids FreesFree (removable sb fs ip) fun result => result.2 = fs := by
  unfold removable
  split
  · exact isdiremptyLoop_spec hsess hip _ _
  · exact Avoids.ok rfl

theorem eraseEntry_spec (hsess : Session True sb fs (ip ::ₘ dp ::ₘ pins) (insert ip (insert dp ∅)))
    (halign : off % sizeofDirent = 0) :
    Avoids FreesFree (eraseEntry sb fs dp ip off) fun fs' => Session True sb fs' pins ∅ := by
  have hdp : dp ∈ insert ip (insert dp (∅ : Set InodePtr)) :=
    Set.mem_insert_of_mem ip (Set.mem_insert dp ∅)
  have hinum := pinned_inum hsess hdp
  have he : WholeEntry sb (copyFromKernel (List.replicate sizeofDirent 0)) off
      sizeofDirent :=
    wholeEntry_kernel (List.length_replicate) (by
      have hzero : direntInum (List.replicate sizeofDirent (0 : Byte)) = 0 := by decide
      rw [hzero]
      omega) halign
  unfold eraseEntry
  refine (writeInode_spec hsess hdp (supplies_copyFromKernel _).1 (by decide)
    fun _ _ => he).bind fun result hwrote => ?_
  obtain ⟨tot, fs₁⟩ := result
  dsimp only at hwrote ⊢
  split
  · exact Avoids.error (by intro h; cases h)
  have hpar : Session True sb (if (fs₁.inode ip).dinode.type = T_DIR then
      updateInode sb fs₁ dp { (fs₁.inode dp).dinode with
        nlink := (fs₁.inode dp).dinode.nlink - 1 } else fs₁) (ip ::ₘ dp ::ₘ pins)
      (insert ip (insert dp ∅)) := by
    split
    · exact updateInode_spec hwrote hdp rfl rfl rfl
    · exact hwrote
  have hput := @iput_spec _ sb _ _ _ dp hpar
    (mem_cons_of_mem (mem_cons_self dp pins)) {ip} (by
      intro other ho
      rw [Set.mem_singleton_iff] at ho
      subst ho
      refine ⟨Set.mem_insert other _, ?_⟩
      rw [cons_swap, erase_cons_head]
      exact mem_cons_self other pins)
  refine hput.bind fun fs₂ hdropped => ?_
  rw [cons_swap, erase_cons_head] at hdropped
  exact iput_head (updateInode_spec hdropped (Set.mem_singleton ip) rfl rfl rfl)

theorem unlink_spec (hcons : Consistent True sb fs) (hroot : ROOTINO < sb.ninodes)
    (hcwd : 0 < (fs.inode cwd).ref) (path : List Byte) :
    Avoids FreesFree (unlink sb fs cwd path) fun result => Consistent True sb result.2 := by
  unfold unlink
  refine (namex_spec hcons.session hroot hcwd path true).bind fun result hres => ?_
  obtain ⟨_ | ⟨dp, name⟩, fs₁⟩ := result
  · exact Avoids.ok (Session.toConsistent hres)
  have hlooked : Session True sb fs₁ (dp ::ₘ 0) ∅ := hres
  refine (ilock_spec hlooked (mem_cons_self dp 0)).bind fun fs₂ hlock => ?_
  dsimp only
  split
  · exact (iput_head hlock).bind fun fs₃ hput => Avoids.ok hput.toConsistent
  refine (dirlookup_spec hlock (Set.mem_insert dp ∅) name).bind fun result hf => ?_
  obtain ⟨_ | ⟨ip, off⟩, fs₃⟩ := result
  · have hnone : Session True sb fs₃ (dp ::ₘ 0) (insert dp ∅) := hf
    exact (iput_head hnone).bind fun fs₄ hput => Avoids.ok hput.toConsistent
  obtain ⟨hsome, halign⟩ := hf
  dsimp only
  refine (ilock_spec hsome (mem_cons_self ip _)).bind fun fs₄ hboth => ?_
  split
  · exact Avoids.error (by intro h; cases h)
  refine (removable_spec hboth (Set.mem_insert ip _)).bind fun result hsame => ?_
  obtain ⟨empty, fs₅⟩ := result
  dsimp only at hsame ⊢
  subst hsame
  split
  · exact (eraseEntry_spec hboth halign).bind fun fs₆ herased => Avoids.ok herased.toConsistent
  · refine (iput_head hboth).bind fun fs₆ hput => ?_
    exact (iput_head hput).bind fun fs₇ hput => Avoids.ok hput.toConsistent

/-! ## Runs -/

/-- The operations on inodes. -/
inductive Operation where
  | iget (inum : ℕ)
  | ilock (ip : InodePtr)
  | iput (ip : InodePtr)
  | ialloc (type : BitVec 16)
  | bmap (ip : InodePtr) (bn : ℕ)
  | writei (ip : InodePtr) (source : ℕ → ℕ → Bool × List Byte) (off n : ℕ)
  | itrunc (ip : InodePtr)
  | create (cwd : InodePtr) (path : List Byte) (type major minor : BitVec 16)
  | unlink (cwd : InodePtr) (path : List Byte)

/-- One operation. -/
def perform (sb : Superblock) (fs : FsState) : Operation → Except Panic FsState
  | .iget inum => do
    let (_, fs) ← iget fs inum
    return fs
  | .ilock ip => ilock sb fs ip
  | .iput ip => iput sb fs ip
  | .ialloc type => do
    let (_, fs) ← ialloc sb fs type
    return fs
  | .bmap ip bn => do
    let (_, disk, dinode) ← bmap sb fs.disk (fs.inode ip).dinode bn
    return setContent fs ip disk dinode
  | .writei ip source off n => do
    let (_, fs) ← writeInode sb source fs ip off n
    return fs
  | .itrunc ip => do
    let (disk, dinode) ← itrunc sb fs.disk (fs.inode ip).inum (fs.inode ip).dinode
    return setContent fs ip disk dinode
  | .create cwd path type major minor => do
    let (_, fs) ← create sb fs cwd path type major minor
    return fs
  | .unlink cwd path => do
    let (_, fs) ← unlink sb fs cwd path
    return fs

def Locked (fs : FsState) (ip : InodePtr) : Prop :=
  0 < (fs.inode ip).ref ∧ (fs.inode ip).valid = true

instance (fs : FsState) (ip : InodePtr) : Decidable (Locked fs ip) :=
  inferInstanceAs (Decidable (_ ∧ _))

/-- The caller has a reference to the inode, and has read the inode where the function
is called with the inode locked.  `bmap` without a write is for a block of the file, as
`readi` calls it, and paths are followed while the directories are in order. -/
def Allowed (sb : Superblock) (fs : FsState) : Operation → Prop
  | .iget inum => inum < sb.ninodes
  | .ilock ip => 0 < (fs.inode ip).ref
  | .iput ip => 0 < (fs.inode ip).ref
  | .ialloc _ => True
  | .bmap ip bn => Locked fs ip ∧ bn * BSIZE < (fs.inode ip).dinode.size.toNat
  | .writei ip source _ n => Locked fs ip ∧ Bounded source ∧ n < 2 ^ 32
  | .itrunc ip => Locked fs ip
  | .create cwd _ _ _ _ => 0 < (fs.inode cwd).ref ∧ Walkable sb fs.disk
  | .unlink cwd _ => 0 < (fs.inode cwd).ref ∧ Walkable sb fs.disk

/-- What is written to a directory is one entry, as `dirlink` and `sys_unlink` do. -/
def WritesEntries (sb : Superblock) (fs : FsState) : Operation → Prop
  | .writei ip source off n => (fs.inode ip).dinode.type = T_DIR → WholeEntry sb source off n
  | _ => True

/-- A block of the file is there, so that `bmap` changes nothing. -/
theorem bmap_session (hsess : Session walk sb fs pins locked) (hip : ip ∈ locked) {bn : ℕ}
    (hbn : bn * BSIZE < (fs.inode ip).dinode.size.toNat) :
    perform sb fs (.bmap ip bn) = .ok fs := by
  obtain ⟨hrange, hcopy, halloc⟩ := hsess.locked_inode hip
  rw [hcopy] at hbn halloc
  have hcovered := hsess.intact.covered _ hrange halloc (bn * BSIZE) hbn
  rw [Nat.mul_div_cancel bn (by decide), ← hcopy] at hcovered
  obtain ⟨b, hb⟩ := Option.isSome_iff_exists.mp hcovered
  unfold perform
  dsimp only
  rw [bmap_present sb hb, ok_bind]
  dsimp only
  rw [setContent_same]
  rfl

theorem itrunc_session (hsess : Session walk sb fs pins locked) (hip : ip ∈ locked) :
    Avoids FreesFree (perform sb fs (.itrunc ip)) fun fs' =>
      Session walk sb fs' pins locked := by
  obtain ⟨hrange, hcopy, halloc⟩ := hsess.locked_inode hip
  rw [hcopy] at halloc
  obtain ⟨disk, htrunc, hintact, hread⟩ := hsess.intact.itrunc hrange halloc
  unfold perform
  dsimp only
  rw [hcopy, htrunc]
  exact Avoids.ok (hsess.setContent hip hintact halloc hread)

theorem perform_spec (hcons : Consistent walk sb fs) (hroot : ROOTINO < sb.ninodes)
    {operation : Operation} (hallow : Allowed sb fs operation)
    (hwrites : walk → WritesEntries sb fs operation) :
    Avoids FreesFree (perform sb fs operation) (Consistent walk sb) := by
  cases operation with
  | iget inum =>
    exact (iget_spec hcons.session hallow).bind fun result hres => Avoids.ok hres.toConsistent
  | ilock ip =>
    exact (ilock_spec (hcons.pin hallow) (mem_cons_self ip 0)).mono
      fun fs' hfs' => hfs'.toConsistent
  | iput ip =>
    exact (iput_head (hcons.pin hallow)).mono fun fs' hfs' => hfs'.toConsistent
  | ialloc type =>
    exact (ialloc_spec hcons.session type).bind fun result hres => Avoids.ok hres.toConsistent
  | bmap ip bn =>
    rw [bmap_session (hcons.lock hallow.1) (Set.mem_singleton ip) hallow.2]
    exact Avoids.ok hcons
  | writei ip source off n =>
    obtain ⟨hip, hbounded, hn⟩ := hallow
    exact (writeInode_spec (hcons.lock hip) (Set.mem_singleton ip)
      hbounded hn hwrites).bind fun result hres => Avoids.ok hres.toConsistent
  | itrunc ip =>
    exact (itrunc_session (hcons.lock hallow)
      (Set.mem_singleton ip)).mono fun fs' hfs' => hfs'.toConsistent
  | create cwd path type major minor =>
    exact (create_spec (hcons.walkable hallow.2) hroot hallow.1 path type major
      minor).bind fun result hres => Avoids.ok (hres.mono)
  | unlink cwd path =>
    exact (unlink_spec (hcons.walkable hallow.2) hroot hallow.1 path).bind
      fun result hres => Avoids.ok (hres.mono)

/-- The states of the runs from a consistent file system. -/
def Runs (sb : Superblock) : FsState → Prop :=
  Reachable (fun fs operation => some (perform sb fs operation)) (Allowed sb)
    (Consistent False sb)

theorem Runs.consistent (hroot : ROOTINO < sb.ninodes) (hruns : Runs sb fs) :
    Consistent False sb fs := by
  refine Reachable.invariant hruns (fun _ hstart => hstart) ?_
  intro state operation after hstate hallow hperf
  have hspec := perform_spec hstate hroot hallow False.elim
  rw [Option.some.inj hperf] at hspec
  exact hspec

theorem Runs.next (hroot : ROOTINO < sb.ninodes) (hruns : Runs sb fs)
    (hwalkable : Walkable sb fs.disk) {operation : Operation} (hallow : Allowed sb fs operation)
    (hwrites : WritesEntries sb fs operation) {after : FsState}
    (hafter : perform sb fs operation = .ok after) :
    Runs sb after ∧ Walkable sb after.disk := by
  have hspec := perform_spec ((hruns.consistent hroot).walkable hwalkable) hroot hallow
    fun _ => hwrites
  rw [hafter] at hspec
  exact ⟨Reachable.next hruns hallow (congrArg some hafter), hspec.intact.entries trivial⟩

/-- The block that a slot of an allocated inode owns. -/
def owned (sb : Superblock) (fs : FsState) (position : ℕ × ℕ) : Option ℕ :=
  held sb fs.disk (readDinode sb fs.disk) position

/-- In every run the bitmap is exact, an owned block is in the data area and has one
owner, files have no holes, `balloc` returns a block that nobody owns, and no operation
frees a free block.  The directories stay in order as long as only entries are written to
them. -/
theorem block_ownership (hroot : ROOTINO < sb.ninodes) (hruns : Runs sb fs) :
    (∀ b < sb.size, bitSet sb fs.disk b = true ↔
      b < sb.dataStart ∨ ∃ position, owned sb fs position = some b) ∧
    (∀ position b, owned sb fs position = some b → sb.dataStart ≤ b ∧ b < sb.size) ∧
    (∀ left right b, owned sb fs left = some b → owned sb fs right = some b →
      left = right) ∧
    (∀ inum < sb.ninodes, (readDinode sb fs.disk inum).type ≠ 0 →
      ∀ bn, bn * BSIZE < (readDinode sb fs.disk inum).size.toNat →
        (fileBlock fs.disk (readDinode sb fs.disk inum) bn).isSome) ∧
    (∀ b disk, balloc sb fs.disk = .ok (b, disk) → ∀ position, owned sb fs position ≠ some b) ∧
    ∀ operation, Allowed sb fs operation →
      perform sb fs operation ≠ .error .freeingFreeBlock ∧
      (Walkable sb fs.disk → WritesEntries sb fs operation → ∀ after,
        perform sb fs operation = .ok after → Walkable sb after.disk) := by
  have hconsistent := hruns.consistent hroot
  have hlayout := hconsistent.intact.layout
  refine ⟨fun b hb => ⟨fun hbit => ?_, ?_⟩, fun position b hheld => ?_,
    hlayout.owners.unique, fun inum hinum htype bn hbn => ?_,
    fun b disk hballoc position hheld => ?_,
    fun operation hallowed => ⟨fun hpanic => ?_, fun hwalkable hwrites after hafter => ?_⟩⟩
  · by_cases hdata : b < sb.dataStart
    · exact Or.inl hdata
    · exact Or.inr (hlayout.owners.found b ⟨not_lt.mp hdata, hb, hbit⟩)
  · rintro (hmetadata | ⟨position, hheld⟩)
    · exact hlayout.metadata b hmetadata
    · exact (hlayout.owners.marked position b hheld).2.2
  · obtain ⟨hlow, hhigh, -⟩ := hlayout.owners.marked position b hheld
    exact ⟨hlow, hhigh⟩
  · have hcovered := hconsistent.intact.covered inum hinum htype (bn * BSIZE) hbn
    rwa [Nat.mul_div_cancel bn (by decide)] at hcovered
  · exact (balloc_spec hlayout.metadata hballoc).fresh (hlayout.owners.marked position b hheld)
  · have hspec := perform_spec hconsistent hroot hallowed False.elim
    rw [hpanic] at hspec
    exact hspec rfl
  · exact (hruns.next hroot hwalkable hallowed hwrites hafter).2

end

/-- A new disk with no inode, and an empty inode table. -/
def newDisk : FsState where
  disk := MkfsAppend.marked Mkfs.blank
  inode _ := ⟨0, 0, false, readDinode Mkfs.sb Mkfs.blank.disk 0⟩

theorem newDisk_free (hinum : inum < Mkfs.sb.ninodes) :
    (readDinode Mkfs.sb newDisk.disk inum).type = 0 := by
  have hread : readDinode Mkfs.sb newDisk.disk inum = readDinode Mkfs.sb Mkfs.blank.disk inum :=
    readDinode_congr hinum fun _ hc => MkfsAppend.marked_below Mkfs.blank hc
  rw [hread]
  exact MkfsNoHoles.readDinode_blank inum

theorem newDisk_consistent : Consistent False Mkfs.sb newDisk := by
  refine ⟨⟨?_, fun inum hinum htype => absurd (newDisk_free hinum) htype, False.elim⟩,
    fun ip href => absurd href (lt_irrefl 0), fun ip href => absurd href (lt_irrefl 0),
    fun ip _ href => absurd href (lt_irrefl 0)⟩
  exact layout_agree MkfsNoHoles.blank_building.layout (fun _ _ => rfl) fun inum hinum =>
    readDinode_congr hinum fun _ hc => MkfsAppend.marked_below Mkfs.blank hc

theorem newDisk_walkable : Walkable Mkfs.sb newDisk.disk := by
  intro inum hinum htype
  rw [newDisk_free hinum] at htype
  exact absurd htype (by decide)

def performAll (sb : Superblock) : FsState → List Operation → Except Panic FsState
  | fs, [] => .ok fs
  | fs, operation :: rest => (perform sb fs operation).bind fun fs => performAll sb fs rest

theorem performAll_append (sb : Superblock) (operations rest : List Operation) :
    ∀ fs, performAll sb fs (operations ++ rest) =
      (performAll sb fs operations).bind fun fs => performAll sb fs rest := by
  induction operations with
  | nil => exact fun fs => rfl
  | cons operation operations ih =>
    intro fs
    rw [List.cons_append, performAll, performAll]
    cases perform sb fs operation with
    | error panic => rfl
    | ok after => exact ih after

/-- The operations return, and the state after them has the property. -/
def returns (start : FsState) (operations : List Operation) (property : FsState → Bool) : Bool :=
  match performAll Mkfs.sb start operations with
  | .ok after => property after
  | .error _ => false

structure Reached (operations : List Operation) (fs : FsState) : Prop where
  result : performAll Mkfs.sb newDisk operations = .ok fs
  runs : Runs Mkfs.sb fs
  walkable : Walkable Mkfs.sb fs.disk

theorem Reached.next {operations : List Operation} {fs : FsState}
    (hreached : Reached operations fs) {operation : Operation}
    (hallow : Allowed Mkfs.sb fs operation) (hwrites : WritesEntries Mkfs.sb fs operation)
    {property : FsState → Bool}
    (hreturns : returns newDisk (operations ++ [operation]) property = true) :
    ∃ after, Reached (operations ++ [operation]) after ∧ property after = true := by
  have happend : performAll Mkfs.sb newDisk (operations ++ [operation]) =
      (perform Mkfs.sb fs operation).bind .ok := by
    rw [performAll_append, hreached.result]
    rfl
  rw [returns, happend] at hreturns
  cases hafter : perform Mkfs.sb fs operation with
  | error panic =>
    rw [hafter] at hreturns
    cases hreturns
  | ok after =>
    rw [hafter] at hreturns happend
    obtain ⟨hruns, hwalkable⟩ := hreached.runs.next (by decide) hreached.walkable hallow hwrites
      hafter
    exact ⟨after, ⟨happend, hruns, hwalkable⟩, hreturns⟩

def directorySlot : InodePtr := ⟨0, by decide⟩

def fileSlot : InodePtr := ⟨1, by decide⟩

/-- A user buffer of which only the first block is mapped. -/
def halfMapped (tot m : ℕ) : Bool × List Byte :=
  if tot = 0 then (true, List.replicate m 7) else (false, [])

/-- A file is made, a write to it fails part way, and it is unlinked while it is open: it
keeps the block that was written and the one that was not. -/
theorem block_ownership_halfMapped :
    ∃ fs, performAll Mkfs.sb newDisk ([] ++ [.ialloc T_DIR] ++ [.ilock directorySlot] ++
        [.create directorySlot [0x61] T_FILE 0 0] ++ [.writei fileSlot halfMapped 0 2000] ++
        [.unlink directorySlot [0x61]]) = .ok fs ∧ Runs Mkfs.sb fs ∧
      (∃ written unwritten, written ≠ unwritten ∧ owned Mkfs.sb fs (2, 0) = some written ∧
        owned Mkfs.sb fs (2, 1) = some unwritten ∧ bitSet Mkfs.sb fs.disk unwritten = true) ∧
      perform Mkfs.sb fs (.iput fileSlot) ≠ .error .freeingFreeBlock := by
  have hstart : Reached [] newDisk := ⟨rfl, .start newDisk_consistent, newDisk_walkable⟩
  obtain ⟨fs₁, hreached₁, href₁⟩ := @Reached.next _ _ hstart (.ialloc T_DIR) trivial trivial
    (fun fs => 0 < (fs.inode directorySlot).ref) (by decide +kernel)
  have hused : 0 < (fs₁.inode directorySlot).ref := of_decide_eq_true href₁
  obtain ⟨fs₂, hreached₂, href₂⟩ := @Reached.next _ _ hreached₁ (.ilock directorySlot) hused
    trivial (fun fs => 0 < (fs.inode directorySlot).ref) (by decide +kernel)
  obtain ⟨fs₃, hreached₃, hmade⟩ := @Reached.next _ _ hreached₂
    (.create directorySlot [0x61] T_FILE 0 0) ⟨of_decide_eq_true href₂, hreached₂.walkable⟩
    trivial (fun fs => Locked fs fileSlot ∧ (fs.inode fileSlot).dinode.type = T_FILE)
    (by decide +kernel)
  obtain ⟨hlocked, htype⟩ := of_decide_eq_true hmade
  have hbounded : Bounded halfMapped := by
    intro tot m
    rw [halfMapped]
    split
    · exact (List.length_replicate).le
    · exact Nat.zero_le m
  obtain ⟨fs₄, hreached₄, href₄⟩ := @Reached.next _ _ hreached₃
    (.writei fileSlot halfMapped 0 2000) ⟨hlocked, hbounded, by decide⟩
    (fun hdir => absurd (hdir.symm.trans htype) (by decide))
    (fun fs => 0 < (fs.inode directorySlot).ref) (by decide +kernel)
  obtain ⟨fs, hreached, hproperty⟩ := @Reached.next _ _ hreached₄
    (.unlink directorySlot [0x61]) ⟨of_decide_eq_true href₄, hreached₄.walkable⟩ trivial
    (fun fs => 0 < (fs.inode fileSlot).ref ∧ (owned Mkfs.sb fs (2, 0)).isSome ∧
      (owned Mkfs.sb fs (2, 1)).isSome) (by decide +kernel)
  obtain ⟨href, hwritten, hunwritten⟩ := of_decide_eq_true hproperty
  obtain ⟨written, hwritten⟩ := Option.isSome_iff_exists.mp hwritten
  obtain ⟨unwritten, hunwritten⟩ := Option.isSome_iff_exists.mp hunwritten
  obtain ⟨hbits, hrange, hunique, -, -, hpanic⟩ := block_ownership (by decide) hreached.runs
  refine ⟨fs, hreached.result, hreached.runs, ⟨written, unwritten, fun hsame => ?_, hwritten,
    hunwritten, ?_⟩, (hpanic (.iput fileSlot) href).1⟩
  · rw [hsame] at hwritten
    exact absurd (hunique _ _ _ hwritten hunwritten) (by decide)
  · exact (hbits unwritten (hrange _ _ hunwritten).2).mpr (.inr ⟨_, hunwritten⟩)

theorem addr_of_inodeSlot {disk : Disk} {ip : Dinode} {slot b : ℕ}
    (hdirect : addr ip NDIRECT = 0) (hslot : inodeSlot disk ip slot = some b) :
    slot < NDIRECT + 1 ∧ (addr ip slot).toNat = b := by
  rw [inodeSlot] at hslot
  split at hslot
  case isTrue hlt =>
    rw [pointer] at hslot
    split at hslot
    case isTrue => cases hslot
    case isFalse => exact ⟨hlt, Option.some.inj hslot⟩
  case isFalse =>
    rw [if_pos (.inl hdirect)] at hslot
    cases hslot

/-- A new disk with an empty file. -/
def oneInode : FsState :=
  { newDisk with disk := writeDinode Mkfs.sb newDisk.disk 1 ⟨T_FILE, 0, 0, 1, 0, fun _ => 0⟩ }

theorem oneInode_consistent : Consistent False Mkfs.sb oneInode :=
  (newDisk_consistent.session.writeFree (by decide) (newDisk_free (by decide)) rfl rfl).toConsistent

/-- The reference to a file is dropped after `bmap`: the block stays marked, and no inode
has it. -/
theorem bmap_leaks_a_block : Consistent False Mkfs.sb oneInode ∧
    ∃ fs, performAll Mkfs.sb oneInode [.iget 1, .ilock directorySlot, .bmap directorySlot 0,
        .iput directorySlot] = .ok fs ∧
      Used Mkfs.sb fs.disk 46 ∧ ∀ position, owned Mkfs.sb fs position ≠ some 46 := by
  have hreturns : returns oneInode [.iget 1, .ilock directorySlot, .bmap directorySlot 0,
      .iput directorySlot] (fun fs => bitSet Mkfs.sb fs.disk 46 &&
        decide (∀ inum < Mkfs.sb.ninodes, (readDinode Mkfs.sb fs.disk inum).type ≠ 0 →
          addr (readDinode Mkfs.sb fs.disk inum) NDIRECT = 0 ∧
          ∀ slot < NDIRECT + 1, (addr (readDinode Mkfs.sb fs.disk inum) slot).toNat ≠ 46)) =
      true := by
    decide +kernel
  rw [returns] at hreturns
  split at hreturns
  case h_2 => cases hreturns
  case h_1 fs hresult =>
    rw [Bool.and_eq_true, decide_eq_true_eq] at hreturns
    obtain ⟨hbit, hnobody⟩ := hreturns
    refine ⟨oneInode_consistent, fs, hresult, ⟨by decide, by decide, hbit⟩,
      fun position howned => ?_⟩
    rw [owned, held] at howned
    split at howned
    case isFalse => cases howned
    case isTrue halloc =>
      obtain ⟨hdirect, hothers⟩ := hnobody _ halloc.1 halloc.2
      obtain ⟨hslot, hsame⟩ := addr_of_inodeSlot hdirect howned
      exact hothers _ hslot hsame

end Xv6.BlockRuns
