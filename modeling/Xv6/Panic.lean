import Mathlib.Tactic.TypeStar

/-!
# Kernel panics

The kernel stops by calling `panic` with a text.  A modelled function that can
reach such a call returns in `Except Panic`.
-/

namespace Xv6

/-- The calls of `panic` that the modelled functions can reach. -/
inductive Panic where
  /-- "kfree" -/
  | kfree
  /-- "walk": the address is not below `MAXVA`. -/
  | walk
  /-- "mappages: size" -/
  | mappagesSize
  /-- "mappages: remap" -/
  | mappagesRemap
  /-- "uvmunmap: not aligned" -/
  | uvmunmapNotAligned
  /-- "uvmunmap: walk" -/
  | uvmunmapWalk
  /-- "uvmunmap: not mapped" -/
  | uvmunmapNotMapped
  /-- "uvmunmap: not a leaf" -/
  | uvmunmapNotLeaf
  /-- "inituvm: more than a page" -/
  | inituvm
  /-- "freewalk: leaf" -/
  | freewalkLeaf
  /-- "uvmcopy: pte should exist" -/
  | uvmcopyPte
  /-- "uvmcopy: page not present" -/
  | uvmcopyNotPresent
  /-- "uvmclear" -/
  | uvmclear
  /-- "loadseg: address should exist" -/
  | loadseg
  /-- "balloc: out of blocks" -/
  | balloc
  /-- "freeing free block" -/
  | freeingFreeBlock
  /-- "bmap: out of range" -/
  | bmap
  /-- "ialloc: no inodes" -/
  | ialloc
  /-- "iget: no inodes" -/
  | iget
  /-- "ilock" -/
  | ilock
  /-- "ilock: no type" -/
  | ilockNoType
  /-- "dirlookup not DIR" -/
  | dirlookupNotDir
  /-- "dirlookup read" -/
  | dirlookupRead
  /-- "dirlink read" -/
  | dirlinkRead
  /-- "dirlink" -/
  | dirlink
  /-- "isdirempty: readi" -/
  | isdirempty
  /-- "unlink: nlink < 1" -/
  | unlinkNlink
  /-- "unlink: writei" -/
  | unlinkWritei
  /-- "create dots" -/
  | createDots
  /-- "create: dirlink" -/
  | createDirlink
  /-- "too big a transaction" -/
  | tooBigTransaction
  /-- "log_write outside of trans" -/
  | logWriteOutside
  /-- "log.committing" -/
  | logCommitting
  /-- "bget: no buffers" -/
  | bget
  /-- "bwrite" -/
  | bwrite
  /-- "brelse" -/
  | brelse
  /-- "filedup" -/
  | filedup
  /-- "fileclose" -/
  | fileclose
  /-- "fileread" -/
  | fileread
  /-- "filewrite" -/
  | filewrite
  /-- "iunlock" -/
  | iunlock
  /-- "init exiting" -/
  | initExiting
  /-- "zombie exit" -/
  | zombieExit
  /-- "sched p->lock" -/
  | schedLock
  /-- "sched locks" -/
  | schedLocks
  /-- "sched running" -/
  | schedRunning
  /-- "free_desc 1" -/
  | freeDesc1
  /-- "free_desc 2" -/
  | freeDesc2
  /-- "virtio_disk_intr status" -/
  | virtioStatus
  /-- "kerneltrap": the kernel faulted, on a null pointer or past its stack. -/
  | kerneltrap
  deriving DecidableEq, Repr

end Xv6
