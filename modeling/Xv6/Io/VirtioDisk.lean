import Xv6.Core.Interleaving
import Xv6.Core.RingBuffer
import Xv6.Panic

/-!
# The virtio disk driver

`kernel/virtio_disk.c` with any number of processes in `virtio_disk_rw`, the
interrupt handler, and a device that takes the entries of the available ring in
order and posts each of them once on the used ring, in any order, with status 0.
A process moves by the sections between its lock operations; the store into the
available ring and the increment of its index are two actions, because the device
runs without the lock.
-/

namespace Xv6.VirtioDisk

open RingBuffer Function

def NUM : ℕ := 8

def BSIZE : ℕ := 1024

abbrev Byte := BitVec 8

/-- The address in a descriptor: a command header `ops[i]`, the data of a buffer or
`info[i].status`. -/
inductive Addr (B : Type) where
  | null
  | op (i : ℕ)
  | data (b : B)
  | status (i : ℕ)
  deriving DecidableEq

structure Desc (B : Type) where
  addr : Addr B
  len : ℕ
  flags : BitVec 16
  next : ℕ
  deriving DecidableEq

def VRING_DESC_F_NEXT : BitVec 16 := 1

def VRING_DESC_F_WRITE : BitVec 16 := 2

def VIRTIO_BLK_T_IN : ℕ := 0

def VIRTIO_BLK_T_OUT : ℕ := 1

/-- `struct virtio_blk_req`. -/
structure BlkReq where
  type : ℕ
  reserved : ℕ
  sector : ℕ
  deriving DecidableEq

/-- A request as the device reads it from a chain of descriptors. -/
structure Request (B : Type) where
  head : ℕ
  data : Addr B
  status : Addr B
  deriving DecidableEq

/-- `disk` and the field `disk` of the buffers; then the state of the device. -/
structure Disk (P B : Type) where
  desc : ℕ → Desc B
  availRing : ℕ → ℕ
  availIdx : BitVec 16
  usedRing : ℕ → ℕ
  usedIdx : BitVec 16
  free : ℕ → Bool
  /-- `disk.used_idx`. -/
  seen : BitVec 16
  infoB : ℕ → Option B
  infoStatus : ℕ → Byte
  ops : ℕ → BlkReq
  bufDisk : B → Bool
  /-- The index of the next entry that the device takes. -/
  lastAvail : BitVec 16
  /-- The requests that the device works on. -/
  pending : List (Request B)
  /-- History: the requests on the used ring that the driver has not seen. -/
  posted : List (Request B)
  /-- History: the device has completed the last request for the buffer. -/
  done : B → Bool
  /-- The caller that holds `b->lock`. -/
  owner : B → Option P

/-- Where a process is in `virtio_disk_rw(b, write)`. -/
inductive Pos (B : Type) where
  | idle
  /-- Before `acquire`, at the start or at the end of `sleep(&disk.free[0])`. -/
  | acquire (b : B) (write : Bool)
  /-- Before `alloc3_desc`. -/
  | alloc (b : B) (write : Bool)
  /-- In `sleep(&disk.free[0], &disk.vdisk_lock)`, before `release(lk)`. -/
  | allocSleep (b : B) (write : Bool)
  /-- `SLEEPING` on `&disk.free[0]`. -/
  | allocAsleep (b : B) (write : Bool)
  /-- Before the descriptors are formatted. -/
  | format (b : B) (write : Bool) (idx : List ℕ)
  /-- Before the store into the available ring. -/
  | ring (b : B) (idx : List ℕ)
  /-- Before `disk.avail->idx += 1`. -/
  | publish (b : B) (idx : List ℕ)
  /-- The test of `while(b->disk == 1)`. -/
  | wait (b : B) (idx : List ℕ)
  /-- In `sleep(b, &disk.vdisk_lock)`, before `release(lk)`. -/
  | waitSleep (b : B) (idx : List ℕ)
  /-- `SLEEPING` on `b`. -/
  | waitAsleep (b : B) (idx : List ℕ)
  /-- At the end of `sleep`, before `acquire(lk)`. -/
  | waitAcquire (b : B) (idx : List ℕ)
  deriving DecidableEq

inductive Holder (P : Type) where
  | proc (p : P)
  | intr
  deriving DecidableEq

structure State (P B : Type) where
  disk : Disk P B
  lock : Option (Holder P)
  pos : P → Pos B
  /-- The interrupt handler is in its loop. -/
  handling : Bool
  blockno : B → ℕ

inductive Action (P B : Type) where
  | call (p : P) (b : B) (write : Bool)
  | next (p : P)
  /-- `virtio_disk_intr` acquires the lock or makes the next test of its loop. -/
  | intr
  /-- The device takes the next entry of the available ring. -/
  | consume
  /-- The device completes one of its requests. -/
  | complete (k : ℕ)
  deriving DecidableEq

section
variable {P B : Type} [DecidableEq P] [DecidableEq B]

def zeroDesc : Desc B := ⟨.null, 0, 0, 0⟩

def alloc_desc (d : Disk P B) : Option (ℕ × Disk P B) :=
  ((List.range NUM).find? d.free).map fun i => (i, { d with free := update d.free i false })

/-- `free_desc` without the wakeup, which its callers do. -/
def free_desc (d : Disk P B) (i : ℕ) : Except Panic (Disk P B) :=
  if NUM ≤ i then .error .freeDesc1
  else if d.free i = true then .error .freeDesc2
  else .ok { d with
    desc := update d.desc i zeroDesc
    free := update d.free i true }

/-- The loop of `free_chain`; every round frees a descriptor or panics. -/
def freeChainLoop : ℕ → Disk P B → ℕ → Except Panic (Disk P B)
  | 0, d, _ => .ok d
  | rounds + 1, d, i =>
    match free_desc d i with
    | .error panic => .error panic
    | .ok freed =>
      if (d.desc i).flags &&& VRING_DESC_F_NEXT ≠ 0 then
        freeChainLoop rounds freed (d.desc i).next
      else .ok freed

def free_chain (d : Disk P B) (i : ℕ) : Except Panic (Disk P B) := freeChainLoop (NUM + 1) d i

/-- The loop of `alloc3_desc`; `idx` is what was allocated so far.  The result is
`none` for -1, with the number of descriptors that were freed again. -/
def alloc3Loop : ℕ → List ℕ → Disk P B → Except Panic (Option (List ℕ) × ℕ × Disk P B)
  | 0, idx, d => .ok (some idx, 0, d)
  | count + 1, idx, d =>
    match alloc_desc d with
    | some (i, d) => alloc3Loop count (idx ++ [i]) d
    | none => (idx.foldlM free_desc d).map fun d => (none, idx.length, d)

def alloc3_desc (d : Disk P B) : Except Panic (Option (List ℕ) × ℕ × Disk P B) := alloc3Loop 3 [] d

/-- The descriptors and the bookkeeping of a request. -/
def format (d : Disk P B) (blockno : B → ℕ) (b : B) (write : Bool) (i0 i1 i2 : ℕ) :
    Disk P B :=
  { d with
    ops := update d.ops i0 ⟨if write then VIRTIO_BLK_T_OUT else VIRTIO_BLK_T_IN, 0,
        blockno b * (BSIZE / 512) % 2 ^ 32⟩
    desc := update (update (update d.desc i0 ⟨.op i0, 16, VRING_DESC_F_NEXT, i1⟩) i1
        ⟨.data b, BSIZE, (if write then 0 else VRING_DESC_F_WRITE) ||| VRING_DESC_F_NEXT, i2⟩) i2
        ⟨.status i0, 1, VRING_DESC_F_WRITE, 0⟩
    infoStatus := update d.infoStatus i0 0xff
    bufDisk := update d.bufDisk b true
    infoB := update d.infoB i0 (some b)
    done := update d.done b false }

def storeAvail (d : Disk P B) (head : ℕ) : Disk P B :=
  { d with availRing := update d.availRing (slot NUM d.availIdx) head }

def setPos (t : State P B) (p : P) (pos : Pos B) : State P B := { t with pos := update t.pos p pos }

/-- A process sleeping on `&disk.free[0]` becomes runnable. -/
def wakeAlloc : Pos B → Pos B
  | .allocAsleep b write => .acquire b write
  | pos => pos

def wakeWait (b : B) : Pos B → Pos B
  | .waitAsleep other idx => if other = b then .waitAcquire other idx else .waitAsleep other idx
  | pos => pos

/-- The calls of `wakeup(&disk.free[0])` for `count` freed descriptors. -/
def wakeFree (t : State P B) (count : ℕ) : State P B :=
  if count = 0 then t else { t with pos := fun p => wakeAlloc (t.pos p) }

/-- The section of `virtio_disk_rw` around `alloc3_desc`. -/
def allocate (t : State P B) (p : P) (b : B) (write : Bool) : Except Panic (State P B) :=
  match alloc3_desc t.disk with
  | .error panic => .error panic
  | .ok (some idx, _, d) => .ok (setPos { t with disk := d } p (.format b write idx))
  | .ok (none, count, d) =>
    .ok (setPos (wakeFree { t with disk := d } count) p (.allocSleep b write))

/-- The end of `virtio_disk_rw`: the buffer is released by the caller. -/
def finish (t : State P B) (p : P) (b : B) (idx : List ℕ) : Except Panic (State P B) :=
  match free_chain { t.disk with
      infoB := update t.disk.infoB (idx.headD 0) none } (idx.headD 0) with
  | .error panic => .error panic
  | .ok d =>
    let d := { d with owner := update d.owner b none }
    .ok (setPos (wakeFree { t with disk := d, lock := none } 3) p .idle)

def next (t : State P B) (p : P) : Option (Except Panic (State P B)) :=
  match t.pos p with
  | .idle => none
  | .acquire b write =>
    if t.lock = none then
      some (.ok (setPos { t with lock := some (.proc p) } p (.alloc b write)))
    else none
  | .alloc b write => some (allocate t p b write)
  | .allocSleep b write => some (.ok (setPos { t with lock := none } p (.allocAsleep b write)))
  | .allocAsleep _ _ => none
  | .format b write idx =>
    let d := format t.disk t.blockno b write (idx.getD 0 0) (idx.getD 1 0) (idx.getD 2 0)
    some (.ok (setPos { t with disk := d } p (.ring b idx)))
  | .ring b idx =>
    let d := storeAvail t.disk (idx.headD 0)
    some (.ok (setPos { t with disk := d } p (.publish b idx)))
  | .publish b idx =>
    let d := { t.disk with availIdx := t.disk.availIdx + 1 }
    some (.ok (setPos { t with disk := d } p (.wait b idx)))
  | .wait b idx =>
    if t.disk.bufDisk b = true then some (.ok (setPos t p (.waitSleep b idx)))
    else some (finish t p b idx)
  | .waitSleep b idx => some (.ok (setPos { t with lock := none } p (.waitAsleep b idx)))
  | .waitAsleep _ _ => none
  | .waitAcquire b idx =>
    if t.lock = none then
      some (.ok (setPos { t with lock := some (.proc p) } p (.wait b idx)))
    else none

def virtio_disk_intr (t : State P B) : Except Panic (State P B) :=
  if t.disk.seen = t.disk.usedIdx then
    .ok { t with lock := none, handling := false }
  else
    let id := t.disk.usedRing (slot NUM t.disk.seen)
    if t.disk.infoStatus id ≠ 0 then .error .virtioStatus
    else
      match t.disk.infoB id with
      | none => .error .kerneltrap
      | some b =>
        .ok { t with
          disk := { t.disk with
            bufDisk := update t.disk.bufDisk b false
            seen := t.disk.seen + 1
            posted := t.disk.posted.tail }
          pos := fun p => wakeWait b (t.pos p) }

/-- The chain from a head descriptor, as the device follows it. -/
def readChain (d : Disk P B) (head : ℕ) : Request B :=
  let second := (d.desc head).next
  let third := (d.desc second).next
  ⟨head, (d.desc second).addr, (d.desc third).addr⟩

def consume (d : Disk P B) : Disk P B :=
  { d with
    lastAvail := d.lastAvail + 1
    pending := d.pending ++ [readChain d (d.availRing (slot NUM d.lastAvail))] }

/-- The device completes a request: it writes the status and posts the head. -/
def complete (d : Disk P B) (k : ℕ) (request : Request B) : Disk P B :=
  { d with
    pending := d.pending.eraseIdx k
    posted := d.posted ++ [request]
    infoStatus := match request.status with
      | .status i => update d.infoStatus i 0
      | _ => d.infoStatus
    done := match request.data with
      | .data b => update d.done b true
      | _ => d.done
    usedRing := update d.usedRing (slot NUM d.usedIdx) request.head
    usedIdx := d.usedIdx + 1 }

def exec (t : State P B) : Action P B → Option (Except Panic (State P B))
  | .call p b write =>
    if t.pos p = .idle ∧ t.disk.owner b = none then
      let d := { t.disk with owner := update t.disk.owner b (some p) }
      some (.ok (setPos { t with disk := d } p (.acquire b write)))
    else none
  | .next p => next t p
  | .intr =>
    if t.handling = true then some (virtio_disk_intr t)
    else if t.lock = none then
      some (.ok { t with lock := some .intr, handling := true })
    else none
  | .consume =>
    if t.disk.lastAvail = t.disk.availIdx then none
    else some (.ok { t with disk := consume t.disk })
  | .complete k =>
    (t.disk.pending[k]?).map fun request => .ok { t with disk := complete t.disk k request }

end

/-- As `virtio_disk_init` leaves the disk; the indices have any common values. -/
structure Initial {P B : Type} (t : State P B) : Prop where
  free : ∀ i < NUM, t.disk.free i = true
  availIdx : t.disk.availIdx = t.disk.lastAvail
  usedIdx : t.disk.usedIdx = t.disk.seen
  pending : t.disk.pending = []
  posted : t.disk.posted = []
  lock : t.lock = none
  handling : t.handling = false
  pos : ∀ p, t.pos p = .idle

end Xv6.VirtioDisk
