import Xv6.Core.Interleaving
import Xv6.Log.DiskLog
import Xv6.Panic

/-!
# The buffer cache under the log

`kernel/bio.c` and the parts of `kernel/log.c` that pin, copy and unpin buffers,
for any number of processes.  A section under `bcache.lock`, under `log.lock` or
under the sleep-lock of a buffer is one action.  `bread` is `bget` and `acquire`,
`brelse` is `release` and `drop`; a process may interleave them with everything
else.  The loops of `commit` say which buffers must be held and what is copied.

All blocks are on one device, the only one that the kernel mounts.
-/

namespace Xv6.BufferCache

open Function
open DiskLog (LogArea LOGSIZE MAXOPBLOCKS)

def ROOTDEV : ℕ := 1

/-- `struct buf`, with the holder of its sleep-lock. -/
structure Buf (P D : Type) where
  /-- `dev` and `blockno` -/
  key : ℕ × ℕ
  valid : Bool
  data : D
  refcnt : ℕ
  lock : Option P

/-- The position of the process that is in `commit`. -/
inductive Stage where
  /-- `write_log`, before iteration `tail` of its loop. -/
  | writeLog (tail : ℕ)
  /-- `write_head`: the real commit. -/
  | writeHead
  /-- `install_trans(0)`, before iteration `tail` of its loop. -/
  | installTrans (tail : ℕ)
  /-- `write_head` after `log.lh.n = 0`. -/
  | writeCleared
  /-- Back in `end_op`. -/
  | finish
  deriving DecidableEq

structure Cache (N : ℕ) (P D : Type) where
  disk : ℕ → D
  /-- `bcache.buf` -/
  buf : Fin N → Buf P D
  /-- The list from `head.next` to `head.prev`. -/
  order : List (Fin N)
  outstanding : ℕ
  /-- `log.lh.block[0..n)` -/
  lh : List ℕ
  /-- The process in `commit`, if `log.committing`. -/
  committer : Option (P × Stage)
  /-- History: the references that each process holds, the buffers changed since
  they were last logged, and the last logged contents of each block. -/
  refs : P → Fin N → ℕ
  dirty : Fin N → Bool
  contents : ℕ → D

inductive Action (N : ℕ) (D : Type) where
  | bget (blockno : ℕ)
  | acquire (b : Fin N)
  | modify (b : Fin N) (data : D)
  | logWrite (b : Fin N)
  | release (b : Fin N)
  | drop (b : Fin N)
  | beginOp
  | endOp
  /-- The next iteration or call in `commit`, with the buffers it has read. -/
  | commit (first second : Fin N)

section
variable {N : ℕ} {P D : Type} [DecidableEq P]

def setBuf (t : Cache N P D) (b : Fin N) (buf : Buf P D) : Cache N P D :=
  { t with buf := update t.buf b buf }

def setRefs (t : Cache N P D) (p : P) (b : Fin N) (count : ℕ) : Cache N P D :=
  { t with
    refs := update t.refs p (update (t.refs p) b count) }

def setStage (t : Cache N P D) (p : P) (stage : Stage) : Cache N P D :=
  { t with committer := some (p, stage) }

def take (t : Cache N P D) (p : P) (b : Fin N) : Cache N P D :=
  setRefs (setBuf t b { t.buf b with refcnt := (t.buf b).refcnt + 1 }) p b (t.refs p b + 1)

def recycle (t : Cache N P D) (p : P) (b : Fin N) (blockno : ℕ) : Cache N P D :=
  setRefs (setBuf t b { t.buf b with key := (ROOTDEV, blockno), valid := false, refcnt := 1 }) p b
    (t.refs p b + 1)

def bget (t : Cache N P D) (p : P) (blockno : ℕ) : Except Panic (Cache N P D) :=
  match t.order.find? fun b => decide ((t.buf b).key = (ROOTDEV, blockno)) with
  | some b => .ok (take t p b)
  | none =>
    match t.order.reverse.find? fun b => decide ((t.buf b).refcnt = 0) with
    | some b => .ok (recycle t p b blockno)
    | none => .error .bget

/-- `acquiresleep` in `bget`, and the read in `bread`. -/
def acquire (t : Cache N P D) (p : P) (b : Fin N) : Cache N P D :=
  let buf := t.buf b
  if buf.valid then setBuf t b { buf with lock := some p }
  else setBuf t b { buf with data := t.disk buf.key.2, valid := true, lock := some p }

def modify (t : Cache N P D) (b : Fin N) (data : D) : Cache N P D :=
  { setBuf t b { t.buf b with data := data } with
    dirty := update t.dirty b true }

def pin (t : Cache N P D) (b : Fin N) : Cache N P D :=
  { setBuf t b { t.buf b with refcnt := (t.buf b).refcnt + 1 } with
    lh := t.lh ++ [(t.buf b).key.2] }

def noteLogged (t : Cache N P D) (b : Fin N) : Cache N P D :=
  { t with
    dirty := update t.dirty b false
    contents := update t.contents (t.buf b).key.2 (t.buf b).data }

def logWrite (area : LogArea) (t : Cache N P D) (b : Fin N) : Except Panic (Cache N P D) :=
  if LOGSIZE ≤ t.lh.length ∨ area.size - 1 ≤ t.lh.length then
    .error .tooBigTransaction
  else if t.outstanding < 1 then .error .logWriteOutside
  else if (t.buf b).key.2 ∈ t.lh then .ok (noteLogged t b)
  else .ok (noteLogged (pin t b) b)

def release (t : Cache N P D) (b : Fin N) : Cache N P D := setBuf t b { t.buf b with lock := none }

def drop (t : Cache N P D) (p : P) (b : Fin N) : Cache N P D :=
  let refcnt := (t.buf b).refcnt - 1
  { setRefs (setBuf t b { t.buf b with refcnt := refcnt }) p b (t.refs p b - 1) with
    order := if refcnt = 0 then b :: t.order.erase b else t.order }

/-- The first section of `end_op`, and the test in `commit`. -/
def endOp (t : Cache N P D) (p : P) : Except Panic (Cache N P D) :=
  let outstanding := t.outstanding - 1
  if t.committer ≠ none then .error .logCommitting
  else if outstanding = 0 then
    .ok { t with
      outstanding := outstanding
      committer := some (p, if 0 < t.lh.length then .writeLog 0 else .finish) }
  else .ok { t with outstanding := outstanding }

def bwrite (t : Cache N P D) (b : Fin N) (data : D) : Cache N P D :=
  { setBuf t b { t.buf b with data := data } with
    disk := update t.disk (t.buf b).key.2 data }

def bunpin (t : Cache N P D) (b : Fin N) : Cache N P D :=
  setBuf t b { t.buf b with refcnt := (t.buf b).refcnt - 1 }

def Holds (t : Cache N P D) (p : P) (b : Fin N) (blockno : ℕ) : Prop :=
  (t.buf b).lock = some p ∧ (t.buf b).key = (ROOTDEV, blockno)

instance (t : Cache N P D) (p : P) (b : Fin N) (blockno : ℕ) : Decidable (Holds t p b blockno) :=
  inferInstanceAs (Decidable (_ ∧ _))

/-- The next iteration or call in `commit`; `head` puts the header in a block. -/
def commitStep (area : LogArea) (head : List ℕ → D → D) (t : Cache N P D) (p : P)
    (first second : Fin N) : Stage → Option (Cache N P D)
  | .writeLog tail =>
    match t.lh[tail]? with
    | some blockno =>
      if Holds t p first (area.start + tail + 1) ∧ Holds t p second blockno then
        some (setStage (bwrite t first (t.buf second).data) p (.writeLog (tail + 1)))
      else none
    | none => some (setStage t p .writeHead)
  | .writeHead =>
    if Holds t p first area.start then
      some (setStage (bwrite t first (head t.lh (t.buf first).data)) p (.installTrans 0))
    else none
  | .installTrans tail =>
    match t.lh[tail]? with
    | some blockno =>
      if Holds t p first (area.start + tail + 1) ∧ Holds t p second blockno then
        some (setStage (bunpin (bwrite t second (t.buf first).data) second) p
          (.installTrans (tail + 1)))
      else none
    | none => some (setStage { t with lh := [] } p .writeCleared)
  | .writeCleared =>
    if Holds t p first area.start then
      some (setStage (bwrite t first (head t.lh (t.buf first).data)) p .finish)
    else none
  | .finish => some { t with committer := none }

def exec (area : LogArea) (head : List ℕ → D → D) (t : Cache N P D) :
    P × Action N D → Option (Except Panic (Cache N P D))
  | (p, .bget blockno) => some (bget t p blockno)
  | (p, .acquire b) =>
    if (t.buf b).lock = none ∧ 0 < t.refs p b then some (.ok (acquire t p b))
    else none
  | (p, .modify b data) =>
    -- A process in `commit` changes data only by the steps of `commit`.
    if (t.buf b).lock = some p ∧ t.committer.map Prod.fst ≠ some p then
      some (.ok (modify t b data))
    else none
  | (p, .logWrite b) => if (t.buf b).lock = some p then some (logWrite area t b) else none
  | (p, .release b) =>
    if (t.buf b).lock = some p then some (.ok (release t b))
    else some (.error .brelse)
  | (p, .drop b) =>
    if 0 < t.refs p b ∧ (t.buf b).lock ≠ some p then some (.ok (drop t p b))
    else none
  | (_, .beginOp) =>
    if t.committer = none ∧ t.lh.length + (t.outstanding + 1) * MAXOPBLOCKS ≤ LOGSIZE then
      some (.ok { t with outstanding := t.outstanding + 1 })
    else none
  | (p, .endOp) => if 0 < t.outstanding then some (endOp t p) else none
  | (p, .commit first second) =>
    match t.committer with
    | some (q, stage) =>
      if q = p then (commitStep area head t p first second stage).map .ok
      else none
    | none => none

end

/-- The callers change and log only blocks outside the log, and log every buffer
they have changed before they release it and before they end the operation. -/
def Disciplined {N : ℕ} {P D : Type} (area : LogArea) (t : Cache N P D) : P × Action N D → Prop
  | (_, .modify b _) => ¬ area.Contains (t.buf b).key.2
  | (_, .logWrite b) => ¬ area.Contains (t.buf b).key.2
  | (_, .release b) => t.dirty b = false
  | (p, .endOp) => ∀ b, (t.buf b).lock = some p → t.dirty b = false
  | _ => True

/-- As `initlog` leaves the cache. -/
structure Initial {N : ℕ} {P D : Type} (t : Cache N P D) : Prop where
  order : ∀ b, b ∈ t.order
  distinct : ∀ b c, (t.buf b).key = (t.buf c).key → (t.buf b).key.1 = ROOTDEV → b = c
  refcnt : ∀ b, (t.buf b).refcnt = 0
  lock : ∀ b, (t.buf b).lock = none
  data : ∀ b, (t.buf b).key.1 = ROOTDEV → (t.buf b).valid = true →
    (t.buf b).data = t.disk (t.buf b).key.2
  lh : t.lh = []
  committer : t.committer = none
  refs : ∀ p b, t.refs p b = 0
  dirty : ∀ b, t.dirty b = false
  contents : t.contents = t.disk

end Xv6.BufferCache
