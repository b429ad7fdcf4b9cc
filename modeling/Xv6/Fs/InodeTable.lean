import Xv6.Fs.InodeContent

/-!
# The inode table

The in-memory inodes of `kernel/fs.c`.  A pointer to an inode is its index in
`itable.inode`.  There is one device, so `dev` is left out; calls run one after
the other, so the locks are free whenever a call begins and are left out too.
-/

namespace Xv6.InodeTable

open LittleEndian DiskLog DiskFormat InodeContent

def NINODE : ℕ := 50

/-- `struct inode`; `dinode` is the copy of the disk inode. -/
structure Inode where
  inum : ℕ
  ref : ℕ
  valid : Bool
  dinode : Dinode

/-- The disk as the buffer cache shows it, and `itable.inode`. -/
structure FsState where
  disk : Disk
  inode : Fin NINODE → Inode

abbrev InodePtr := Fin NINODE

def setInode (fs : FsState) (ip : InodePtr) (inode : Inode) : FsState :=
  { fs with inode := Function.update fs.inode ip inode }

def setRef (fs : FsState) (ip : InodePtr) (ref : ℕ) : FsState :=
  setInode fs ip { fs.inode ip with ref := ref }

/-- The result of a function that changes the disk and the copy of `ip`. -/
def setContent (fs : FsState) (ip : InodePtr) (disk : Disk) (dinode : Dinode) :
    FsState :=
  setInode { fs with disk := disk } ip { fs.inode ip with dinode := dinode }

def updateInode (sb : Superblock) (fs : FsState) (ip : InodePtr) (dinode : Dinode) : FsState :=
  setContent fs ip (iupdate sb fs.disk (fs.inode ip).inum dinode) dinode

def iget (fs : FsState) (inum : ℕ) : Except Panic (InodePtr × FsState) :=
  match (List.finRange NINODE).find? fun ip =>
      decide (0 < (fs.inode ip).ref ∧ (fs.inode ip).inum = inum) with
  | some ip => .ok (ip, setRef fs ip ((fs.inode ip).ref + 1))
  | none =>
    match (List.finRange NINODE).find? fun ip =>
        decide ((fs.inode ip).ref = 0) with
    | none => .error .iget
    | some empty =>
      .ok (empty, setInode fs empty { fs.inode empty with inum := inum, ref := 1, valid := false })

def idup (fs : FsState) (ip : InodePtr) : FsState := setRef fs ip ((fs.inode ip).ref + 1)

def ialloc (sb : Superblock) (fs : FsState) (type : BitVec 16) :
    Except Panic (InodePtr × FsState) :=
  match (List.range' 1 (sb.ninodes - 1)).find? fun inum =>
      decide ((readDinode sb fs.disk inum).type = 0) with
  | none => .error .ialloc
  | some inum =>
    let dinode : Dinode :=
      { type := type, major := 0, minor := 0, nlink := 0, size := 0,
        addrs := fun _ => 0 }
    iget { fs with disk := writeDinode sb fs.disk inum dinode } inum

def ilock (sb : Superblock) (fs : FsState) (ip : InodePtr) :
    Except Panic FsState := do
  if (fs.inode ip).ref < 1 then
    throw .ilock
  if (fs.inode ip).valid then
    return fs
  let dinode := readDinode sb fs.disk (fs.inode ip).inum
  if dinode.type = 0 then
    throw .ilockNoType
  return setInode fs ip { fs.inode ip with valid := true, dinode := dinode }

def iput (sb : Superblock) (fs : FsState) (ip : InodePtr) :
    Except Panic FsState := do
  let inode := fs.inode ip
  if inode.ref = 1 ∧ inode.valid = true ∧ inode.dinode.nlink = 0 then
    let (disk, dinode) ← itrunc sb fs.disk inode.inum inode.dinode
    let dinode := { dinode with type := 0 }
    let disk := iupdate sb disk inode.inum dinode
    return setInode { fs with disk := disk } ip
      { inode with dinode := dinode, valid := false, ref := 0 }
  return setRef fs ip (inode.ref - 1)

def readInode (sb : Superblock) (fs : FsState) (ip : InodePtr) (off n : ℕ) :
    Except Panic (ℤ × List Byte × FsState) := do
  let (tot, disk, dinode, bytes) ← readi sb copyToKernel fs.disk (fs.inode ip).dinode [] off n
  return (tot, bytes, setContent fs ip disk dinode)

def writeInode (sb : Superblock) (source : ℕ → ℕ → Bool × List Byte)
    (fs : FsState) (ip : InodePtr) (off n : ℕ) :
    Except Panic (ℤ × FsState) := do
  let inode := fs.inode ip
  let (tot, disk, dinode) ← writei sb source fs.disk inode.inum inode.dinode off n
  return (tot, setContent fs ip disk dinode)

end Xv6.InodeTable
