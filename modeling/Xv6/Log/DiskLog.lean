import Xv6.Core.LittleEndian
import Xv6.Core.WriteSequence

/-!
# The on-disk redo log

The model of `kernel/log.c`.  A block is its `BSIZE` bytes, and the disk maps
block numbers to blocks.  `LogState` is what the log functions read and write:
the disk, the contents of the valid buffers of the cache, and the in-memory
header `log.lh`.  It also records every one-block write in issue order, so a
crash is a cut of that record.

The buffer cache appears only through what `bread` returns.  Filling a buffer
from the disk and recycling an unpinned clean one change nothing that `bread`
returns, and pinning changes no contents; both are left out here.
-/

namespace Xv6.DiskLog

open LittleEndian WriteSequence

def BSIZE : ℕ := 1024
def MAXOPBLOCKS : ℕ := 10
def LOGSIZE : ℕ := MAXOPBLOCKS * 3

abbrev Block := Bytes BSIZE
abbrev Disk := ℕ → Block

/-- `struct logheader`, the in-memory copy. -/
structure LogHeader where
  n : BitVec 32
  block : Fin LOGSIZE → BitVec 32

/-- The number of iterations of a loop `for (i = 0; i < lh.n; i++)`. -/
def LogHeader.count (header : LogHeader) : ℕ := header.n.toInt.toNat

def LogHeader.entry (header : LogHeader) (index : ℕ) : BitVec 32 :=
  if h : index < LOGSIZE then header.block ⟨index, h⟩ else 0

/-- The constant fields `start` and `size` of `struct log`.  The header block
is part of the log. -/
structure LogArea where
  start : ℕ
  size : ℕ
  hasHeader : 0 < size

/-- The blocks of the log, the header block included. -/
def LogArea.Contains (area : LogArea) (block : ℕ) : Prop :=
  area.start ≤ block ∧ block < area.start + area.size

/-- The call of `bwrite` that issued a disk write. -/
inductive WriteSite where
  /-- `write_log`: a copy into a log block. -/
  | logCopy
  /-- `write_head` in `commit`: the commit point. -/
  | commitHead
  /-- `install_trans`: a copy to the home location. -/
  | install
  /-- `write_head` with `lh.n = 0`: erasing the transaction. -/
  | clearHead
  deriving DecidableEq, Repr

structure DiskWrite where
  site : WriteSite
  block : ℕ
  data : Block

def DiskWrite.write (diskWrite : DiskWrite) : ℕ × Block := (diskWrite.block, diskWrite.data)

def applyTrace (trace : List DiskWrite) (disk : Disk) : Disk :=
  applyWrites (trace.map DiskWrite.write) disk

structure LogState where
  disk : Disk
  cache : ℕ → Option Block
  lh : LogHeader
  trace : List DiskWrite

/-- The machine after a crash or at boot: nothing is cached. -/
def boot (disk : Disk) : LogState where
  disk := disk
  cache := fun _ => none
  lh := ⟨0, fun _ => 0⟩
  trace := []

def bread (state : LogState) (block : ℕ) : Block := (state.cache block).getD (state.disk block)

def bwrite (state : LogState) (diskWrite : DiskWrite) : LogState :=
  { state with
    disk := Function.update state.disk diskWrite.block diskWrite.data
    cache := Function.update state.cache diskWrite.block (some diskWrite.data)
    trace := state.trace ++ [diskWrite] }

/-- `write_log`: copy modified blocks from cache to log. -/
def writeLog (area : LogArea) (state : LogState) : LogState :=
  (List.range state.lh.count).foldl (fun current tail =>
    bwrite current ⟨.logCopy, area.start + tail + 1,
      bread current (current.lh.entry tail).toNat⟩) state

/-- `install_trans`: copy committed blocks from log to their home location. -/
def installTrans (area : LogArea) (state : LogState) : LogState :=
  (List.range state.lh.count).foldl (fun current tail =>
    bwrite current ⟨.install, (current.lh.entry tail).toNat,
      bread current (area.start + tail + 1)⟩) state

def blockOffset (index : ℕ) : ℕ := 4 + 4 * index

/-- The stores of `write_head` into the header buffer: `n`, then the first `n`
entries of `block`.  Later entries keep their old bytes. -/
def encodeHead (header : LogHeader) (buffer : Block) : Block :=
  (List.range header.count).foldl (fun current index =>
    writeU32 current (blockOffset index) (header.entry index))
    (writeU32 buffer 0 header.n)

/-- `write_head`: write in-memory log header to disk. -/
def writeHead (area : LogArea) (site : WriteSite) (state : LogState) :
    LogState :=
  bwrite state ⟨site, area.start, encodeHead state.lh (bread state area.start)⟩

def headCount (buffer : Block) : BitVec 32 := readU32 buffer 0

/-- `read_head`: read the log header from disk into the in-memory header. -/
def readHead (area : LogArea) (state : LogState) : LogState :=
  let buffer := bread state area.start
  { state with
    lh :=
      { n := headCount buffer
        block := fun index =>
          if index.val < (headCount buffer).toInt.toNat then
            readU32 buffer (blockOffset index)
          else state.lh.block index } }

def resetCount (state : LogState) : LogState := { state with lh := { state.lh with n := 0 } }

def recoverFromLog (area : LogArea) (state : LogState) : LogState :=
  writeHead area .clearHead (resetCount (installTrans area (readHead area state)))

def commit (area : LogArea) (state : LogState) : LogState :=
  if 0 < state.lh.n.toInt then
    writeHead area .clearHead (resetCount (installTrans area
      (writeHead area .commitHead (writeLog area state))))
  else state

/-- The index at which the absorption loop of `log_write` stops. -/
def absorbIndex (header : LogHeader) (block : BitVec 32) : ℕ :=
  ((List.range header.count).find? fun index => header.entry index = block).getD header.count

/-- `log_write` of a buffer holding `data` for block number `block`; `none` is
the panic "too big a transaction".  The bracketing by `begin_op` and `end_op`
is not part of this state. -/
def logWrite (area : LogArea) (state : LogState) (logged : BitVec 32 × Block) : Option LogState :=
  if (LOGSIZE : ℤ) ≤ state.lh.n.toInt ∨ (area.size : ℤ) - 1 ≤ state.lh.n.toInt
  then none
  else
    let index := absorbIndex state.lh logged.1
    some { state with
      cache := Function.update state.cache logged.1.toNat (some logged.2)
      lh :=
        { n := if index = state.lh.count then state.lh.n + 1 else state.lh.n
          block := fun slot => if slot.val = index then logged.1 else state.lh.block slot } }

/-- The blocks one group of file-system calls has logged, with their final
contents, in the order of their first `log_write`. -/
abbrev Transaction := List (BitVec 32 × Block)

/-- Log every block of a transaction, then commit it. -/
def runTransaction (area : LogArea) (state : LogState)
    (transaction : Transaction) : Option LogState :=
  (transaction.foldlM (logWrite area) state).map (commit area)

def runTransactions (area : LogArea) (state : LogState)
    (transactions : List Transaction) : Option LogState :=
  transactions.foldlM (runTransaction area) state

def recoveryTrace (area : LogArea) (disk : Disk) : List DiskWrite :=
  (recoverFromLog area (boot disk)).trace

/-- Restart recovery on a surviving disk, once for each entry of `cuts`, and
crash it after that many of its own writes. -/
def crashedRecoveries (area : LogArea) (cuts : List ℕ) (disk : Disk) : Disk :=
  cuts.foldl (fun current cut => applyTrace ((recoveryTrace area current).take cut) current) disk

def recoveredDisk (area : LogArea) (disk : Disk) : Disk := (recoverFromLog area (boot disk)).disk

end Xv6.DiskLog
