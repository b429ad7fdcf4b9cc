import Xv6.Fs.InodeTable

/-!
# Directories and path names

Directory entries, path lookup, and the calls `create` and `sys_unlink` of
`kernel/sysfile.c`.  A C string is the list of its bytes before the
terminating null.
-/

namespace Xv6.Directory

open LittleEndian DiskFormat InodeContent InodeTable List

def DIRSIZ : ℕ := 14
def sizeofDirent : ℕ := 16
def ROOTINO : ℕ := 1

def T_DIR : BitVec 16 := 1
def T_FILE : BitVec 16 := 2
def T_DEVICE : BitVec 16 := 3

def slash : Byte := 0x2f
def dot : Byte := 0x2e

def direntInum (de : List Byte) : ℕ := (de.getD 0 0).toNat + 256 * (de.getD 1 0).toNat

def direntName (de : List Byte) : List Byte := de.drop 2

def strncmpEqual : ℕ → List Byte → List Byte → Bool
  | 0, _, _ => true
  | n + 1, s, t =>
    if s.headD 0 = t.headD 0 then
      if s.headD 0 = 0 then true else strncmpEqual n s.tail t.tail
    else false

def namecmpEqual (s t : List Byte) : Bool := strncmpEqual DIRSIZ s t

/-- The part of a name that directories keep and compare. -/
def clip (name : List Byte) : List Byte := (name.takeWhile (· ≠ 0)).take DIRSIZ

/-- `strncpy(dst, name, DIRSIZ)`: the name, filled up with nulls. -/
def strncpyName (name : List Byte) : List Byte :=
  clip name ++ List.replicate (DIRSIZ - (clip name).length) 0

def encodeDirent (inum : ℕ) (name : List Byte) : List Byte :=
  [BitVec.ofNat 8 inum, BitVec.ofNat 8 (inum / 256)] ++ strncpyName name

theorem length_strncpyName (name : List Byte) : (strncpyName name).length = DIRSIZ := by
  simp only [strncpyName, clip, length_append, length_replicate, length_take]
  omega

theorem length_encodeDirent (inum : ℕ) (name : List Byte) :
    (encodeDirent inum name).length = sizeofDirent := by
  rw [encodeDirent, length_append, length_strncpyName]
  rfl

theorem map_getD_range (bytes : List Byte) :
    ((List.range bytes.length).map fun index => bytes.getD index 0) = bytes := by
  refine ext_getElem (by simp) fun index hleft hright => ?_
  simp [hright]

theorem strncmpEqual_iff (n : ℕ) : ∀ s t : List Byte, strncmpEqual n s t = true ↔
    (s.takeWhile (· ≠ 0)).take n = (t.takeWhile (· ≠ 0)).take n := by
  induction n with
  | zero => simp [strncmpEqual]
  | succ n ih =>
    intro s t
    rw [strncmpEqual]
    cases s with
    | nil =>
      cases t with
      | nil => simp
      | cons y t =>
        by_cases hy : y = 0#8
        · simp [hy]
        · simp [hy, Ne.symm hy]
    | cons x s =>
      cases t with
      | nil => by_cases hx : x = 0#8 <;> simp [hx]
      | cons y t =>
        by_cases hxy : x = y
        · subst hxy
          by_cases hx : x = 0#8
          · simp [hx]
          · simpa [hx] using ih s t
        · by_cases hx : x = 0#8
          · have hy : y ≠ 0#8 := fun hy => hxy (hx.trans hy.symm)
            simp [hx, hy, Ne.symm hy]
          · by_cases hy : y = 0#8 <;> simp [hx, hy, hxy]

theorem namecmpEqual_iff (s t : List Byte) : namecmpEqual s t = true ↔ clip s = clip t :=
  strncmpEqual_iff DIRSIZ s t

theorem takeWhile_append_replicate (head : List Byte) (hhead : ∀ byte ∈ head, byte ≠ 0)
    (count : ℕ) : (head ++ List.replicate count 0).takeWhile (· ≠ 0) = head := by
  rw [takeWhile_append_of_pos fun byte hbyte => by simpa using hhead byte hbyte]
  cases count with
  | zero => simp
  | succ count => simp [replicate_succ]

theorem clip_strncpyName (name : List Byte) : clip (strncpyName name) = clip name := by
  have hhead : ∀ byte ∈ clip name, byte ≠ 0 := by
    intro byte hbyte
    have hne := mem_takeWhile_imp (mem_of_mem_take hbyte)
    simpa using hne
  have hlen : (clip name).length ≤ DIRSIZ := length_take_le _ _
  change ((clip name ++ List.replicate _ 0).takeWhile (· ≠ 0)).take DIRSIZ = clip name
  rw [takeWhile_append_replicate _ hhead, take_of_length_le hlen]

theorem clip_eq_take {name : List Byte} (hname : 0 ∉ name.take DIRSIZ) :
    clip name = name.take DIRSIZ := by
  rw [clip, take_takeWhile, takeWhile_eq_self_iff]
  intro byte hbyte
  simp only [ne_eq, decide_not, Bool.not_eq_eq_eq_not, Bool.not_true, decide_eq_false_iff_not]
  rintro rfl
  exact hname hbyte

/-- The number of entries that a loop over a directory from `off` on visits. -/
def direntSteps (off size : ℕ) : ℕ := (size - off + sizeofDirent - 1) / sizeofDirent

def dirlookupLoop (sb : Superblock) (dp : InodePtr) (name : List Byte) :
    ℕ → FsState → ℕ → Except Panic (Option (InodePtr × ℕ) × FsState)
  | 0, fs, _ => return (none, fs)
  | steps + 1, fs, off => do
    let (tot, de, fs) ← readInode sb fs dp off sizeofDirent
    if tot ≠ sizeofDirent then
      throw .dirlookupRead
    if direntInum de ≠ 0 ∧ namecmpEqual name (direntName de) = true then
      let (ip, fs) ← iget fs (direntInum de)
      return (some (ip, off), fs)
    dirlookupLoop sb dp name steps fs (off + sizeofDirent)

/-- `dirlookup`: the inode and the offset of its entry. -/
def dirlookup (sb : Superblock) (fs : FsState) (dp : InodePtr)
    (name : List Byte) : Except Panic (Option (InodePtr × ℕ) × FsState) := do
  let dinode := (fs.inode dp).dinode
  if dinode.type ≠ T_DIR then
    throw .dirlookupNotDir
  dirlookupLoop sb dp name (direntSteps 0 dinode.size.toNat) fs 0

def dirlinkLoop (sb : Superblock) (dp : InodePtr) : ℕ → FsState → ℕ → Except Panic (ℕ × FsState)
  | 0, fs, off => return (off, fs)
  | steps + 1, fs, off => do
    let (tot, de, fs) ← readInode sb fs dp off sizeofDirent
    if tot ≠ sizeofDirent then
      throw .dirlinkRead
    if direntInum de = 0 then
      return (off, fs)
    dirlinkLoop sb dp steps fs (off + sizeofDirent)

/-- `dirlink`: `true` for the result 0 and `false` for -1. -/
def dirlink (sb : Superblock) (fs : FsState) (dp : InodePtr)
    (name : List Byte) (inum : ℕ) : Except Panic (Bool × FsState) := do
  match ← dirlookup sb fs dp name with
  | (some (ip, _), fs) =>
    let fs ← iput sb fs ip
    return (false, fs)
  | (none, fs) =>
    let steps := direntSteps 0 (fs.inode dp).dinode.size.toNat
    let (off, fs) ← dirlinkLoop sb dp steps fs 0
    let (tot, fs) ← writeInode sb (copyFromKernel (encodeDirent inum name)) fs dp off sizeofDirent
    if tot ≠ sizeofDirent then
      throw .dirlink
    return (true, fs)

/-- `skipelem`: the element and the rest of the path. -/
def skipelem (path : List Byte) : Option (List Byte × List Byte) :=
  match path.dropWhile (· = slash) with
  | [] => none
  | path =>
    some ((path.takeWhile (· ≠ slash)).take DIRSIZ,
      (path.dropWhile (· ≠ slash)).dropWhile (· = slash))

/-- The loop of `namex`; every iteration takes a byte off the path.  The result
is the inode and the contents of `name`. -/
def namexLoop (sb : Superblock) (nameiparent : Bool) :
    ℕ → FsState → InodePtr → List Byte → List Byte →
      Except Panic (Option (InodePtr × List Byte) × FsState)
  | 0, fs, ip, _, name => return (some (ip, name), fs)
  | fuel + 1, fs, ip, path, name => do
    match skipelem path with
    | none =>
      if nameiparent then
        let fs ← iput sb fs ip
        return (none, fs)
      return (some (ip, name), fs)
    | some (name, path) =>
      let fs ← ilock sb fs ip
      if (fs.inode ip).dinode.type ≠ T_DIR then
        let fs ← iput sb fs ip
        return (none, fs)
      if nameiparent = true ∧ path = [] then
        return (some (ip, name), fs)
      match ← dirlookup sb fs ip name with
      | (none, fs) =>
        let fs ← iput sb fs ip
        return (none, fs)
      | (some (next, _), fs) =>
        let fs ← iput sb fs ip
        namexLoop sb nameiparent fuel fs next path name

def namex (sb : Superblock) (fs : FsState) (cwd : InodePtr) (path : List Byte)
    (nameiparent : Bool) :
    Except Panic (Option (InodePtr × List Byte) × FsState) := do
  let (ip, fs) ←
    if path.head? = some slash then iget fs ROOTINO
    else pure (cwd, idup fs cwd)
  namexLoop sb nameiparent (path.length + 1) fs ip path []

def namei (sb : Superblock) (fs : FsState) (cwd : InodePtr)
    (path : List Byte) : Except Panic (Option InodePtr × FsState) := do
  let (found, fs) ← namex sb fs cwd path false
  return (found.map Prod.fst, fs)

def nameiparent (sb : Superblock) (fs : FsState) (cwd : InodePtr) (path : List Byte) :
    Except Panic (Option (InodePtr × List Byte) × FsState) :=
  namex sb fs cwd path true

/-! ## Creating and removing names -/

def createDots (sb : Superblock) (fs : FsState) (dp ip : InodePtr) :
    Except Panic FsState := do
  let parent := (fs.inode dp).dinode
  let fs := updateInode sb fs dp { parent with nlink := parent.nlink + 1 }
  match ← dirlink sb fs ip [dot] (fs.inode ip).inum with
  | (false, _) => throw .createDots
  | (true, fs) =>
    match ← dirlink sb fs ip [dot, dot] (fs.inode dp).inum with
    | (false, _) => throw .createDots
    | (true, fs) => return fs

def create (sb : Superblock) (fs : FsState) (cwd : InodePtr) (path : List Byte)
    (type major minor : BitVec 16) :
    Except Panic (Option InodePtr × FsState) := do
  match ← nameiparent sb fs cwd path with
  | (none, fs) => return (none, fs)
  | (some (dp, name), fs) =>
    let fs ← ilock sb fs dp
    match ← dirlookup sb fs dp name with
    | (some (ip, _), fs) =>
      let fs ← iput sb fs dp
      let fs ← ilock sb fs ip
      let found := (fs.inode ip).dinode.type
      if type = T_FILE ∧ (found = T_FILE ∨ found = T_DEVICE) then
        return (some ip, fs)
      let fs ← iput sb fs ip
      return (none, fs)
    | (none, fs) =>
      let (ip, fs) ← ialloc sb fs type
      let fs ← ilock sb fs ip
      let fs := updateInode sb fs ip { (fs.inode ip).dinode with
          major := major, minor := minor, nlink := 1 }
      let fs ← if type = T_DIR then createDots sb fs dp ip else pure fs
      match ← dirlink sb fs dp name (fs.inode ip).inum with
      | (false, _) => throw .createDirlink
      | (true, fs) =>
        let fs ← iput sb fs dp
        return (some ip, fs)

def isdiremptyLoop (sb : Superblock) (dp : InodePtr) :
    ℕ → FsState → ℕ → Except Panic (Bool × FsState)
  | 0, fs, _ => return (true, fs)
  | steps + 1, fs, off => do
    let (tot, de, fs) ← readInode sb fs dp off sizeofDirent
    if tot ≠ sizeofDirent then
      throw .isdirempty
    if direntInum de ≠ 0 then
      return (false, fs)
    isdiremptyLoop sb dp steps fs (off + sizeofDirent)

def isdirempty (sb : Superblock) (fs : FsState) (dp : InodePtr) : Except Panic (Bool × FsState) :=
  let first := 2 * sizeofDirent
  isdiremptyLoop sb dp (direntSteps first (fs.inode dp).dinode.size.toNat) fs first

def removable (sb : Superblock) (fs : FsState) (ip : InodePtr) : Except Panic (Bool × FsState) :=
  if (fs.inode ip).dinode.type = T_DIR then isdirempty sb fs ip
  else pure (true, fs)

/-- The part of `sys_unlink` that erases the entry of `ip` in `dp`. -/
def eraseEntry (sb : Superblock) (fs : FsState) (dp ip : InodePtr) (off : ℕ) :
    Except Panic FsState := do
  let (tot, fs) ← writeInode sb (copyFromKernel (List.replicate sizeofDirent 0)) fs dp off
      sizeofDirent
  if tot ≠ sizeofDirent then
    throw .unlinkWritei
  let parent := (fs.inode dp).dinode
  let fs :=
    if (fs.inode ip).dinode.type = T_DIR then
      updateInode sb fs dp { parent with nlink := parent.nlink - 1 }
    else fs
  let fs ← iput sb fs dp
  let dinode := (fs.inode ip).dinode
  let fs := updateInode sb fs ip { dinode with nlink := dinode.nlink - 1 }
  iput sb fs ip

/-- `sys_unlink`: `true` for the result 0 and `false` for -1. -/
def unlink (sb : Superblock) (fs : FsState) (cwd : InodePtr)
    (path : List Byte) : Except Panic (Bool × FsState) := do
  match ← nameiparent sb fs cwd path with
  | (none, fs) => return (false, fs)
  | (some (dp, name), fs) =>
    let fs ← ilock sb fs dp
    if namecmpEqual name [dot] ∨ namecmpEqual name [dot, dot] then
      let fs ← iput sb fs dp
      return (false, fs)
    match ← dirlookup sb fs dp name with
    | (none, fs) =>
      let fs ← iput sb fs dp
      return (false, fs)
    | (some (ip, off), fs) =>
      let fs ← ilock sb fs ip
      if (fs.inode ip).dinode.nlink.toInt < 1 then
        throw .unlinkNlink
      let (empty, fs) ← removable sb fs ip
      if empty then
        let fs ← eraseEntry sb fs dp ip off
        return (true, fs)
      else
        let fs ← iput sb fs ip
        let fs ← iput sb fs dp
        return (false, fs)

end Xv6.Directory
