import Xv6.Fs.Directory

/-!
# Making a file system image

The program `mkfs/mkfs.c`.  The image is the host file with `FSSIZE` sectors that
the first loop of `main` fills with zeros; a read past its end makes `mkfs` exit.
The input files are there and can be read, and the host writes what it is asked to.
-/

namespace Xv6.Mkfs

open LittleEndian Bitmap DiskLog DiskFormat InodeContent Directory

def NINODES : ℕ := 200
def FSSIZE : ℕ := 1000
def FSMAGIC : BitVec 32 := 0x10203040

def nbitmap : ℕ := FSSIZE / (BSIZE * 8) + 1
def ninodeblocks : ℕ := NINODES / IPB + 1
def nlog : ℕ := LOGSIZE

/-- The boot block, the superblock, the log, the inodes and the bitmap. -/
def nmeta : ℕ := 2 + nlog + ninodeblocks + nbitmap

def nblocks : ℕ := FSSIZE - nmeta

def sb : Superblock where
  size := FSSIZE
  ninodes := NINODES
  inodestart := 2 + nlog
  bmapstart := 2 + nlog + ninodeblocks
  inodesFit := by decide
  bitmapFits := by decide
  size_lt := by decide

theorem FSSIZE_eq : FSSIZE = 1000 := rfl
theorem NINODES_eq : NINODES = 200 := rfl
theorem nmeta_eq : nmeta = 46 := rfl
theorem size_eq : sb.size = 1000 := rfl
theorem ninodes_eq : sb.ninodes = 200 := rfl
theorem bmapstart_eq : sb.bmapstart = 45 := rfl
theorem dataStart_eq : sb.dataStart = 46 := rfl

def superblockWords : List (BitVec 32) :=
  [FSMAGIC, BitVec.ofNat 32 FSSIZE, BitVec.ofNat 32 nblocks, BitVec.ofNat 32 NINODES,
    BitVec.ofNat 32 nlog, 2, BitVec.ofNat 32 (2 + nlog),
    BitVec.ofNat 32 (2 + nlog + ninodeblocks)]

def superblock : Block :=
  (superblockWords.zipIdx).foldl (fun buf (word, index) => writeU32 buf (4 * index) word) fun _ => 0

/-- How `mkfs` exits with a failure. -/
inductive Failure where
  /-- `die("read")`. -/
  | read
  /-- `assert(rootino == ROOTINO)`. -/
  | rootino
  /-- `assert(index(shortname, '/') == 0)`. -/
  | slash
  /-- `assert(fbn < MAXFILE)`. -/
  | maxfile
  /-- `assert(used < BSIZE*8)`. -/
  | used
  deriving DecidableEq

/-- The image file and the two counters. -/
structure Image where
  disk : Disk
  freeinode : ℕ
  freeblock : ℕ

def rsect (image : Image) (sec : ℕ) : Except Failure Block :=
  if sec < FSSIZE then .ok (image.disk sec) else .error .read

def wsect (image : Image) (sec : ℕ) (buf : Block) : Image :=
  { image with disk := Function.update image.disk sec buf }

def winode (image : Image) (inum : ℕ) (ip : Dinode) : Except Failure Image := do
  let buf ← rsect image (IBLOCK sb inum)
  return wsect image (IBLOCK sb inum) (storeDinode buf (dinodeOffset inum) ip)

def rinode (image : Image) (inum : ℕ) : Except Failure Dinode := do
  let buf ← rsect image (IBLOCK sb inum)
  return loadDinode buf (dinodeOffset inum)

def newDinode (type : BitVec 16) : Dinode :=
  { type := type, major := 0, minor := 0, nlink := 1, size := 0, addrs := fun _ => 0 }

def ialloc (image : Image) (type : BitVec 16) : Except Failure (ℕ × Image) := do
  let inum := image.freeinode
  let image ← winode { image with freeinode := inum + 1 } inum (newDinode type)
  return (inum, image)

/-- The block of the bitmap whose first `used` bits are set. -/
def bitmap (used : ℕ) : Block := (List.range used).foldl setBit fun _ => 0

def balloc (image : Image) (used : ℕ) : Except Failure Image :=
  if used < BSIZE * 8 then .ok (wsect image sb.bmapstart (bitmap used))
  else .error .used

/-- `if(xint(din.addrs[index]) == 0) din.addrs[index] = xint(freeblock++)`. -/
def allocAddr (image : Image) (din : Dinode) (index : ℕ) : Image × Dinode :=
  if addr din index = 0 then
    ({ image with freeblock := image.freeblock + 1 },
      setAddr din index (BitVec.ofNat 32 image.freeblock))
  else (image, din)

/-- Entry `index` of the indirect block, allocated if it is zero. -/
def allocEntry (image : Image) (sec index : ℕ) : Except Failure (ℕ × Image) := do
  let indirect ← rsect image sec
  if indirectEntry indirect index = 0 then
    let indirect := writeU32 indirect (4 * index) (BitVec.ofNat 32 image.freeblock)
    let image := wsect { image with freeblock := image.freeblock + 1 } sec indirect
    return ((indirectEntry indirect index).toNat, image)
  return ((indirectEntry indirect index).toNat, image)

/-- The part of the loop of `iappend` that finds the block `x`. -/
def appendBlock (image : Image) (din : Dinode) (fbn : ℕ) : Except Failure (ℕ × Image × Dinode) := do
  if fbn < NDIRECT then
    let (image, din) := allocAddr image din fbn
    return ((addr din fbn).toNat, image, din)
  else
    let (image, din) := allocAddr image din NDIRECT
    let (x, image) ← allocEntry image (addr din NDIRECT).toNat (fbn - NDIRECT)
    return (x, image, din)

/-- The loop of `iappend`; `p` holds the `n` bytes that are left, and every iteration
appends at least one of them. -/
def iappendLoop : ℕ → Image → Dinode → ℕ → List Byte → Except Failure (Image × Dinode × ℕ)
  | 0, image, din, off, _ => return (image, din, off)
  | fuel + 1, image, din, off, p => do
    if 0 < p.length then
      let fbn := off / BSIZE
      if ¬ fbn < MAXFILE then
        throw .maxfile
      let (x, image, din) ← appendBlock image din fbn
      let n1 := min p.length ((fbn + 1) * BSIZE - off)
      let buf ← rsect image x
      let image := wsect image x (overwrite buf (off - fbn * BSIZE) (p.take n1))
      iappendLoop fuel image din (off + n1) (p.drop n1)
    else return (image, din, off)

def iappend (image : Image) (inum : ℕ) (p : List Byte) : Except Failure Image := do
  let din ← rinode image inum
  let (image, din, off) ← iappendLoop p.length image din din.size.toNat p
  winode image inum { din with size := BitVec.ofNat 32 off }

/-- An argument of `mkfs` and the file that it names. -/
structure InputFile where
  path : List Byte
  content : List Byte
  /-- The argument is a C string. -/
  noNull : 0 ∉ path

def userDir : List Byte := [0x75, 0x73, 0x65, 0x72, 0x2f]

def dropUser (path : List Byte) : List Byte :=
  if strncmpEqual 5 path userDir = true then path.drop 5 else path

def dropUnderscore (shortname : List Byte) : List Byte :=
  if shortname.headD 0 = 0x5f then shortname.drop 1 else shortname

def InputFile.shortname (file : InputFile) : List Byte := dropUnderscore (dropUser file.path)

/-- `while((cc = read(fd, buf, sizeof(buf))) > 0) iappend(inum, buf, cc)`. -/
def copyLoop : ℕ → Image → ℕ → List Byte → Except Failure Image
  | 0, image, _, _ => return image
  | fuel + 1, image, inum, rest => do
    let buf := rest.take BSIZE
    if 0 < buf.length then
      let image ← iappend image inum buf
      copyLoop fuel image inum (rest.drop BSIZE)
    else return image

/-- The body of the loop of `main` over the arguments. -/
def addFile (rootino : ℕ) (image : Image) (file : InputFile) :
    Except Failure Image := do
  if slash ∈ dropUser file.path then
    throw .slash
  let (inum, image) ← ialloc image T_FILE
  let image ← iappend image rootino (encodeDirent inum file.shortname)
  copyLoop file.content.length image inum file.content

def blank : Image where
  disk := Function.update (fun _ _ => 0) 1 superblock
  freeinode := 1
  freeblock := nmeta

/-- `din.size = xint(off)` after the files have been added. -/
def fixSize (din : Dinode) : Dinode :=
  { din with size := BitVec.ofNat 32 ((din.size.toNat / BSIZE + 1) * BSIZE) }

def mkfs (files : List InputFile) : Except Failure Image := do
  let (rootino, image) ← ialloc blank T_DIR
  if rootino ≠ ROOTINO then
    throw .rootino
  let image ← iappend image rootino (encodeDirent rootino [dot])
  let image ← iappend image rootino (encodeDirent rootino [dot, dot])
  let image ← files.foldlM (addFile rootino) image
  let din ← rinode image rootino
  let image ← winode image rootino (fixSize din)
  balloc image image.freeblock

end Xv6.Mkfs
