import Xv6.Fs.DiskFormat
import Xv6.Panic

/-!
# Blocks and inode contents

The functions of `kernel/fs.c` that allocate and free disk blocks, and those that
read, write and truncate the contents of a locked inode.  The inode is its
number and its in-memory copy `ip`; a function that changes the copy returns the
new one.
-/

namespace Xv6.InodeContent

open LittleEndian DiskLog DiskFormat

def bzero (disk : Disk) (bno : ℕ) : Disk := Function.update disk bno fun _ => 0

/-- `balloc`.  The two loops visit the block numbers below `sb.size` in
order. -/
def balloc (sb : Superblock) (disk : Disk) : Except Panic (ℕ × Disk) :=
  match (List.range sb.size).find? fun b => !bitSet sb disk b with
  | some b => .ok (b, bzero (markUsed sb disk b) b)
  | none => .error .balloc

def bfree (sb : Superblock) (disk : Disk) (b : ℕ) : Except Panic Disk :=
  if bitSet sb disk b then .ok (markFree sb disk b)
  else .error .freeingFreeBlock

def addr (ip : Dinode) (index : ℕ) : BitVec 32 :=
  if h : index < NDIRECT + 1 then ip.addrs ⟨index, h⟩ else 0

def setAddr (ip : Dinode) (index : ℕ) (value : BitVec 32) : Dinode :=
  { ip with addrs := fun i => if i.val = index then value else ip.addrs i }

def indirectEntry (a : Block) (index : ℕ) : BitVec 32 := readU32 a (4 * index)

/-- `if((addr = ip->addrs[index]) == 0) ip->addrs[index] = addr = balloc()`. -/
def bmapAddr (sb : Superblock) (disk : Disk) (ip : Dinode) (index : ℕ) :
    Except Panic (ℕ × Disk × Dinode) := do
  if addr ip index = 0 then
    let (b, disk) ← balloc sb disk
    return (b, disk, setAddr ip index (BitVec.ofNat 32 b))
  return ((addr ip index).toNat, disk, ip)

def bmap (sb : Superblock) (disk : Disk) (ip : Dinode) (bn : ℕ) :
    Except Panic (ℕ × Disk × Dinode) := do
  if bn < NDIRECT then
    bmapAddr sb disk ip bn
  else if bn - NDIRECT < NINDIRECT then
    let (indirect, disk, ip) ← bmapAddr sb disk ip NDIRECT
    let entry := indirectEntry (disk indirect) (bn - NDIRECT)
    if entry = 0 then
      let (b, disk) ← balloc sb disk
      -- `bp` is the buffer of the indirect block as `balloc` left it.
      let a := writeU32 (disk indirect) (4 * (bn - NDIRECT)) (BitVec.ofNat 32 b)
      return (b, Function.update disk indirect a, ip)
    return (entry.toNat, disk, ip)
  else throw .bmap

def iupdate (sb : Superblock) (disk : Disk) (inum : ℕ) (ip : Dinode) : Disk :=
  writeDinode sb disk inum ip

/-- The body of the loop of `itrunc` over the direct blocks. -/
def itruncDirect (sb : Superblock) (state : Disk × Dinode) (index : ℕ) :
    Except Panic (Disk × Dinode) := do
  if addr state.2 index = 0 then
    return state
  let disk ← bfree sb state.1 (addr state.2 index).toNat
  return (disk, setAddr state.2 index 0)

/-- The body of the loop of `itrunc` over the entries of the indirect block. -/
def itruncEntry (sb : Superblock) (indirect : ℕ) (disk : Disk) (index : ℕ) :
    Except Panic Disk := do
  let entry := indirectEntry (disk indirect) index
  if entry = 0 then
    return disk
  bfree sb disk entry.toNat

/-- The part of `itrunc` that frees the indirect block and its entries. -/
def itruncIndirect (sb : Superblock) (disk : Disk) (ip : Dinode) :
    Except Panic (Disk × Dinode) := do
  if addr ip NDIRECT = 0 then
    return (disk, ip)
  let indirect := (addr ip NDIRECT).toNat
  let disk ← (List.range NINDIRECT).foldlM (itruncEntry sb indirect) disk
  let disk ← bfree sb disk indirect
  return (disk, setAddr ip NDIRECT 0)

def itrunc (sb : Superblock) (disk : Disk) (inum : ℕ) (ip : Dinode) :
    Except Panic (Disk × Dinode) := do
  let (disk, ip) ← (List.range NDIRECT).foldlM (itruncDirect sb) (disk, ip)
  let (disk, ip) ← itruncIndirect sb disk ip
  let ip := { ip with size := 0 }
  return (iupdate sb disk inum ip, ip)

/-! ## Reading and writing -/

section Read
variable {σ : Type}

/-- The loop of `readi`.  `copy dst tot bytes` is `either_copyout` to the address
`dst + tot`; every iteration copies at least one byte. -/
def readiLoop (sb : Superblock) (copy : σ → ℕ → List Byte → Bool × σ) (n : ℕ) :
    ℕ → Disk → Dinode → σ → ℕ → ℕ → Except Panic (ℤ × Disk × Dinode × σ)
  | 0, disk, ip, dst, tot, _ => return (tot, disk, ip, dst)
  | fuel + 1, disk, ip, dst, tot, off => do
    if tot < n then
      let (b, disk, ip) ← bmap sb disk ip (off / BSIZE)
      let m := min (n - tot) (BSIZE - off % BSIZE)
      match copy dst tot (slice (disk b) (off % BSIZE) m) with
      | (false, dst) => return (-1, disk, ip, dst)
      | (true, dst) => readiLoop sb copy n fuel disk ip dst (tot + m) (off + m)
    else return (tot, disk, ip, dst)

def readi (sb : Superblock) (copy : σ → ℕ → List Byte → Bool × σ)
    (disk : Disk) (ip : Dinode) (dst : σ) (off n : ℕ) :
    Except Panic (ℤ × Disk × Dinode × σ) := do
  if ip.size.toNat < off ∨ (off + n) % 2 ^ 32 < off then
    return (0, disk, ip, dst)
  let n := if ip.size.toNat < (off + n) % 2 ^ 32 then ip.size.toNat - off else n
  readiLoop sb copy n n disk ip dst 0 off

end Read

/-- `either_copyout` to kernel memory, which collects the bytes. -/
def copyToKernel (dst : List Byte) (_tot : ℕ) (bytes : List Byte) : Bool × List Byte :=
  (true, dst ++ bytes)

/-- The loop of `writei`.  `source tot m` is `either_copyin` from the address
`src + tot`: whether it succeeds, and the bytes that reach the buffer.  A failed
copy is not logged, but its bytes stay in the cached buffer. -/
def writeiLoop (sb : Superblock) (source : ℕ → ℕ → Bool × List Byte) (n : ℕ) :
    ℕ → Disk → Dinode → ℕ → ℕ → Except Panic (ℕ × ℕ × Disk × Dinode)
  | 0, disk, ip, tot, off => return (tot, off, disk, ip)
  | fuel + 1, disk, ip, tot, off => do
    if tot < n then
      let (b, disk, ip) ← bmap sb disk ip (off / BSIZE)
      let m := min (n - tot) (BSIZE - off % BSIZE)
      let (complete, bytes) := source tot m
      let disk := Function.update disk b (overwrite (disk b) (off % BSIZE) bytes)
      if complete then
        writeiLoop sb source n fuel disk ip (tot + m) (off + m)
      else return (tot, off, disk, ip)
    else return (tot, off, disk, ip)

def writei (sb : Superblock) (source : ℕ → ℕ → Bool × List Byte)
    (disk : Disk) (inum : ℕ) (ip : Dinode) (off n : ℕ) :
    Except Panic (ℤ × Disk × Dinode) := do
  if ip.size.toNat < off ∨ (off + n) % 2 ^ 32 < off then
    return (-1, disk, ip)
  if MAXFILE * BSIZE < (off + n) % 2 ^ 32 then
    return (-1, disk, ip)
  let (tot, off, disk, ip) ← writeiLoop sb source n n disk ip 0 off
  let ip := if ip.size.toNat < off then { ip with size := BitVec.ofNat 32 off } else ip
  return (tot, iupdate sb disk inum ip, ip)

def copyFromKernel (bytes : List Byte) (tot m : ℕ) : Bool × List Byte :=
  (true, (bytes.drop tot).take m)

end Xv6.InodeContent
