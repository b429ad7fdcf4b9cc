import Xv6.Core.Interleaving
import Xv6.Log.DiskLog
import Xv6.Panic

/-!
# Concurrent transactions

The calls `begin_op`, `log_write` and `end_op` of `kernel/log.c` by any number of
processes.  Every section under `log.lock` is one action; `commit` runs between
the two locked sections of `end_op`, one action for each of its steps.  The
model keeps a history beside the variables of the log: which operation logged
which block, and what each commit wrote.
-/

namespace Xv6.Transactions

open DiskLog Interleaving

/-- The position of a process in `commit`. -/
inductive CommitStage where
  /-- `if (log.lh.n > 0)` -/
  | check
  /-- `write_log`, before iteration `tail` of its loop. -/
  | writeLog (tail : ℕ)
  /-- `write_head`: the real commit. -/
  | writeHead
  /-- `install_trans(0)`, before iteration `tail` of its loop. -/
  | installTrans (tail : ℕ)
  /-- `log.lh.n = 0` -/
  | clearHeader
  /-- `write_head`: erase the transaction from the log. -/
  | writeCleared
  /-- Back in `end_op`, before its second locked section. -/
  | finish
  deriving DecidableEq, Repr

/-- Where a process is. -/
inductive Phase where
  | outside
  /-- Sleeping in `begin_op`. -/
  | asleep
  /-- Woken up in `begin_op`, before the test is made again. -/
  | retry
  /-- Between `begin_op` and `end_op`: the number of the operation and the
  distinct blocks it has logged. -/
  | inside (op : ℕ) (mine : List ℕ)
  | commit (stage : CommitStage)
  deriving DecidableEq, Repr

/-- One call of `log_write`: the operation, the block, and the number of commits
that were complete. -/
structure LogRecord where
  op : ℕ
  block : ℕ
  epoch : ℕ
  deriving DecidableEq, Repr

structure State (P : Type) where
  outstanding : ℤ
  committing : Bool
  /-- `log.lh.block[0..n)`. -/
  lh : List ℕ
  phase : P → Phase
  /-- The number of operations begun so far. -/
  ops : ℕ
  /-- The number of commits completed so far. -/
  epoch : ℕ
  /-- The calls of `log_write` so far. -/
  logged : List LogRecord
  /-- The blocks that each commit has copied to the log. -/
  written : ℕ → List ℕ

inductive Action (P : Type) where
  | beginOp (process : P)
  /-- A process woken in `begin_op` makes its test. -/
  | retest (process : P)
  /-- `kill` makes a sleeping process runnable. -/
  | interrupt (process : P)
  | logWrite (process : P) (block : ℕ)
  | endOp (process : P)
  | commitStep (process : P)
  deriving DecidableEq, Repr

section
variable {P : Type} [DecidableEq P]

def setPhase (state : State P) (process : P) (phase : Phase) : State P :=
  { state with phase := Function.update state.phase process phase }

def wake (phase : Phase) : Phase :=
  match phase with
  | .asleep => .retry
  | other => other

def wakeup (state : State P) : State P :=
  { state with phase := fun process => wake (state.phase process) }

def beginTest (state : State P) (process : P) : State P :=
  if state.committing then
    setPhase state process .asleep
  else if (LOGSIZE : ℤ) < state.lh.length + (state.outstanding + 1) * MAXOPBLOCKS then
    setPhase state process .asleep
  else
    setPhase { state with
      outstanding := state.outstanding + 1, ops := state.ops + 1 }
      process (.inside state.ops [])

/-- `log_write` by an operation that has logged the blocks `mine`; `size` is
`log.size`. -/
def logWrite (size : ℤ) (state : State P) (process : P) (op : ℕ)
    (mine : List ℕ) (block : ℕ) : Except Panic (State P) :=
  if (LOGSIZE : ℤ) ≤ state.lh.length ∨ size - 1 ≤ state.lh.length then
    .error .tooBigTransaction
  else if state.outstanding < 1 then
    .error .logWriteOutside
  else
    -- Absorption: a block that is in the log already is not added.
    let lh := if block ∈ state.lh then state.lh else state.lh ++ [block]
    .ok (setPhase { state with
      lh := lh
      logged := ⟨op, block, state.epoch⟩ :: state.logged }
      process (.inside op (mine.insert block)))

def endOp (state : State P) (process : P) : Except Panic (State P) :=
  let outstanding := state.outstanding - 1
  if state.committing then
    .error .logCommitting
  else if outstanding = 0 then
    .ok (setPhase { state with outstanding := outstanding, committing := true }
      process (.commit .check))
  else
    .ok (setPhase (wakeup { state with outstanding := outstanding }) process .outside)

def copyToLog (state : State P) (tail : ℕ) : State P :=
  { state with
    written := Function.update state.written state.epoch
      (state.written state.epoch ++ [state.lh.getD tail 0]) }

/-- One step of `commit`, or the second locked section of `end_op`. -/
def commitStep (state : State P) (process : P) : CommitStage → State P
  | .check =>
    if state.lh = [] then setPhase state process (.commit .finish)
    else setPhase state process (.commit (.writeLog 0))
  | .writeLog tail =>
    if tail < state.lh.length then
      setPhase (copyToLog state tail) process (.commit (.writeLog (tail + 1)))
    else setPhase state process (.commit .writeHead)
  | .writeHead => setPhase state process (.commit (.installTrans 0))
  | .installTrans tail =>
    if tail < state.lh.length then
      setPhase state process (.commit (.installTrans (tail + 1)))
    else setPhase state process (.commit .clearHeader)
  | .clearHeader => setPhase { state with lh := [] } process (.commit .writeCleared)
  | .writeCleared => setPhase state process (.commit .finish)
  | .finish =>
    setPhase (wakeup { state with
      committing := false, epoch := state.epoch + 1 }) process .outside

def exec (size : ℤ) : System (State P) (Action P) Panic
  | state, .beginOp process =>
    match state.phase process with
    | .outside => some (.ok (beginTest state process))
    | _ => none
  | state, .retest process =>
    match state.phase process with
    | .retry => some (.ok (beginTest state process))
    | _ => none
  | state, .interrupt process =>
    match state.phase process with
    | .asleep => some (.ok (setPhase state process .retry))
    | _ => none
  | state, .logWrite process block =>
    match state.phase process with
    | .inside op mine => some (logWrite size state process op mine block)
    | _ => none
  | state, .endOp process =>
    match state.phase process with
    | .inside _ _ => some (endOp state process)
    | _ => none
  | state, .commitStep process =>
    match state.phase process with
    | .commit stage => some (.ok (commitStep state process stage))
    | _ => none

end

def initial (P : Type) : State P where
  outstanding := 0
  committing := false
  lh := []
  phase _ := .outside
  ops := 0
  epoch := 0
  logged := []
  written _ := []

/-! ## The invariant -/

/-- One for a process between `begin_op` and `end_op`. -/
def insideWeight : Phase → ℕ
  | .inside _ _ => 1
  | _ => 0

def commitWeight : Phase → ℕ
  | .commit _ => 1
  | _ => 0

@[simp]
theorem insideWeight_wake (phase : Phase) : insideWeight (wake phase) = insideWeight phase := by
  cases phase <;> rfl

@[simp]
theorem commitWeight_wake (phase : Phase) : commitWeight (wake phase) = commitWeight phase := by
  cases phase <;> rfl

@[simp]
theorem wake_eq_inside {phase : Phase} {op : ℕ} {mine : List ℕ} :
    wake phase = .inside op mine ↔ phase = .inside op mine := by
  cases phase <;> simp [wake]

@[simp]
theorem wake_eq_commit {phase : Phase} {stage : CommitStage} :
    wake phase = .commit stage ↔ phase = .commit stage := by
  cases phase <;> simp [wake]

/-- What `commit` has written when it reaches a stage. -/
def Progress {P : Type} (state : State P) : CommitStage → Prop
  | .check => state.written state.epoch = []
  | .writeLog tail => tail ≤ state.lh.length ∧ state.written state.epoch = state.lh.take tail
  | .writeHead => state.written state.epoch = state.lh
  | .installTrans _ => state.written state.epoch = state.lh
  | .clearHeader => state.written state.epoch = state.lh
  | .writeCleared => state.lh = []
  | .finish => state.lh = []

/-- The relation between the variables of the log and the places of the
processes. -/
structure Grouped {P : Type} [Fintype P] (state : State P) : Prop where
  counted : state.outstanding = ∑ process, insideWeight (state.phase process)
  commits : ∑ process, commitWeight (state.phase process) =
    if state.committing then 1 else 0
  exclusive : state.committing = true → state.outstanding = 0
  progress : ∀ process stage, state.phase process = .commit stage → Progress state stage
  unwritten : state.committing = false → state.written state.epoch = []
  future : ∀ epoch, state.epoch < epoch → state.written epoch = []
  drained : state.committing = false → state.outstanding = 0 → state.lh = []

/-- The relation between the history and the log. -/
structure Recorded {P : Type} (state : State P) : Prop where
  numbered : ∀ process op mine, state.phase process = .inside op mine → op < state.ops
  begun : ∀ entry ∈ state.logged, entry.op < state.ops
  current : ∀ entry ∈ state.logged, ∀ process mine,
    state.phase process = .inside entry.op mine → entry.epoch = state.epoch
  joined : ∀ left ∈ state.logged, ∀ right ∈ state.logged,
    left.op = right.op → left.epoch = right.epoch
  bounded : ∀ entry ∈ state.logged, entry.epoch ≤ state.epoch
  pending : ∀ entry ∈ state.logged, entry.epoch = state.epoch →
    entry.block ∈ state.lh ∨ entry.block ∈ state.written state.epoch
  past : ∀ entry ∈ state.logged, entry.epoch < state.epoch → entry.block ∈ state.written entry.epoch

section
variable {P : Type} [DecidableEq P] {state : State P} {process : P}

theorem phase_setPhase (phase : Phase) (other : P) : (setPhase state process phase).phase other =
      if other = process then phase else state.phase other := by
  by_cases ho : other = process
  · simp [setPhase, ho]
  · simp [setPhase, ho]

theorem inside_setPhase {phase : Phase} {other : P} {op : ℕ} {mine : List ℕ}
    (hphase : ∀ op mine, phase ≠ .inside op mine)
    (hin : (setPhase state process phase).phase other = .inside op mine) :
    state.phase other = .inside op mine := by
  rw [phase_setPhase] at hin
  split at hin
  · exact absurd hin (hphase op mine)
  · exact hin

theorem Recorded.move {phase : Phase} (hrec : Recorded state)
    (hphase : ∀ op mine, phase ≠ .inside op mine) :
    Recorded (setPhase state process phase) where
  numbered other op mine hin := hrec.numbered other op mine (inside_setPhase hphase hin)
  begun := hrec.begun
  current entry he other mine hin := hrec.current entry he other mine (inside_setPhase hphase hin)
  joined := hrec.joined
  bounded := hrec.bounded
  pending := hrec.pending
  past := hrec.past

omit [DecidableEq P] in
theorem Recorded.wakeup (hrec : Recorded state) : Recorded (wakeup state) where
  numbered other op mine hin := hrec.numbered other op mine (wake_eq_inside.mp hin)
  begun := hrec.begun
  current entry he other mine hin := hrec.current entry he other mine (wake_eq_inside.mp hin)
  joined := hrec.joined
  bounded := hrec.bounded
  pending := hrec.pending
  past := hrec.past

omit [DecidableEq P] in
theorem Recorded.setCounts (hrec : Recorded state) (outstanding : ℤ) (committing : Bool) :
    Recorded { state with
      outstanding := outstanding, committing := committing } where
  numbered := hrec.numbered
  begun := hrec.begun
  current := hrec.current
  joined := hrec.joined
  bounded := hrec.bounded
  pending := hrec.pending
  past := hrec.past

end

end Xv6.Transactions
