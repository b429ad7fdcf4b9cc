import Xv6.Core.Interleaving
import Xv6.Panic

/-!
# Killing a process that is about to sleep

The five blocking loops of the kernel that test `killed`: in `wait`, `pipewrite`,
`piperead`, `consoleread` and `sys_sleep`.  Each holds the lock of its loop from the
test of what it waits for to the call of `sleep`, which takes `p->lock`, releases
the lock of the loop and makes the process `SLEEPING` in one action.  `kill` sets
the flag under `p->lock` only.  What a loop waits for changes with the actions of
others; the outcome of its test is an argument of the action.
-/

namespace Xv6.KillSleep

open Interleaving Function

/-- The blocking loops, those of pipes with the number of the pipe. -/
inductive Loop where
  | wait
  | pipewrite (pipe : ℕ)
  | piperead (pipe : ℕ)
  | consoleread
  | sysSleep
  deriving DecidableEq

/-- The lock that a loop passes to `sleep`. -/
inductive Lock where
  | waitLock
  | pipe (pipe : ℕ)
  | cons
  | tickslock
  deriving DecidableEq

/-- What a loop sleeps on. -/
inductive Chan (P : Type) where
  | proc (p : P)
  | nwrite (pipe : ℕ)
  | nread (pipe : ℕ)
  | consR
  | ticks
  deriving DecidableEq

def Loop.lock : Loop → Lock
  | .wait => .waitLock
  | .pipewrite pipe => .pipe pipe
  | .piperead pipe => .pipe pipe
  | .consoleread => .cons
  | .sysSleep => .tickslock

def Loop.chan {P : Type} (p : P) : Loop → Chan P
  | .wait => .proc p
  | .pipewrite pipe => .nwrite pipe
  | .piperead pipe => .nread pipe
  | .consoleread => .consR
  | .sysSleep => .ticks

/-- Where a process is in a loop. -/
inductive Pos where
  | idle
  /-- Before the lock of the loop is acquired, at the start or at the end of
  `sleep`. -/
  | acquire (loop : Loop)
  /-- The test before `killed` is read: `havekids`, `readopen`, the empty pipe, the
  empty console buffer, `ticks`. -/
  | test (loop : Loop)
  /-- `killed` is read. -/
  | flag (loop : Loop)
  /-- `pipewrite` after it has read `killed`: the test for a full pipe. -/
  | room (loop : Loop)
  /-- In `sleep`, before `acquire(&p->lock)`. -/
  | enter (loop : Loop)
  | asleep (loop : Loop)
  deriving DecidableEq

structure State (P : Type) where
  lock : Lock → Option P
  pos : P → Pos
  killed : P → Bool

inductive Action (P : Type) where
  | call (loop : Loop)
  /-- The next test or lock operation; `waits` is the outcome of a test. -/
  | next (waits : Bool)
  | wakeup (chan : Chan P)
  /-- `kill` with the pid of `victim`. -/
  | kill (victim : P)
  deriving DecidableEq

section
variable {P : Type} [DecidableEq P]

def setPos (t : State P) (p : P) (pos : Pos) : State P := { t with pos := update t.pos p pos }

def setLock (t : State P) (lock : Lock) (holder : Option P) : State P :=
  { t with lock := update t.lock lock holder }

def leave (t : State P) (p : P) (loop : Loop) : State P := setPos (setLock t loop.lock none) p .idle

def next (t : State P) (p : P) (waits : Bool) : Option (State P) :=
  match t.pos p with
  | .idle => none
  | .acquire loop =>
    if t.lock loop.lock = none then
      some (setPos (setLock t loop.lock (some p)) p (.test loop))
    else none
  | .test loop => if waits then some (setPos t p (.flag loop)) else some (leave t p loop)
  | .flag loop =>
    if t.killed p then some (leave t p loop)
    else
      match loop with
      | .pipewrite _ => some (setPos t p (.room loop))
      | _ => some (setPos t p (.enter loop))
  | .room loop =>
    -- With room in the pipe `pipewrite` puts a byte in and tests again.
    if waits then some (setPos t p (.enter loop))
    else some (setPos t p (.test loop))
  | .enter loop => some (setPos (setLock t loop.lock none) p (.asleep loop))
  | .asleep _ => none

/-- A process that is `SLEEPING` on the channel becomes `RUNNABLE`. -/
def wake (chan : Chan P) (p : P) : Pos → Pos
  | .asleep loop => if loop.chan p = chan then .acquire loop else .asleep loop
  | pos => pos

def rouse : Pos → Pos
  | .asleep loop => .acquire loop
  | pos => pos

def kill (t : State P) (victim : P) : State P :=
  setPos { t with killed := update t.killed victim true } victim (rouse (t.pos victim))

def exec (t : State P) : P × Action P → Option (Except Panic (State P))
  | (p, .call loop) => if t.pos p = .idle then some (.ok (setPos t p (.acquire loop))) else none
  | (p, .next waits) => (next t p waits).map .ok
  | (p, .wakeup chan) =>
    some (.ok { t with
      pos := fun q => if q = p then t.pos q else wake chan q (t.pos q) })
  | (p, .kill victim) => if t.pos p = .idle then some (.ok (kill t victim)) else none

end

structure Initial {P : Type} (t : State P) : Prop where
  lock : ∀ lock, t.lock lock = none
  pos : ∀ p, t.pos p = .idle
  killed : ∀ p, t.killed p = false

/-- The positions after `killed` was read as 0, up to the sleep. -/
def unflagged : Pos → Bool
  | .room _ => true
  | .enter _ => true
  | .asleep _ => true
  | _ => false

/-- `kill` does not take the lock of a process that has read `killed` and has not
gone to sleep yet. -/
def Timely {P : Type} (t : State P) : P × Action P → Prop
  | (_, .kill victim) => unflagged (rouse (t.pos victim)) = false
  | _ => True

section
variable {P : Type} [DecidableEq P] {t after : State P}

/-- A process that has read `killed` as 0 and is not past its sleep is not killed. -/
def Unkilled (t : State P) : Prop := ∀ p, unflagged (t.pos p) = true → t.killed p = false

theorem Unkilled.setPos (hunkilled : Unkilled t) {p : P} {pos : Pos}
    (hpos : unflagged pos = true → t.killed p = false) : Unkilled (setPos t p pos) := by
  intro q
  by_cases hq : q = p
  · subst hq
    simpa [KillSleep.setPos] using hpos
  · simpa [KillSleep.setPos, hq] using hunkilled q

theorem next_unkilled {p : P} {waits : Bool} (hunkilled : Unkilled t)
    (hnext : next t p waits = some after) : Unkilled after := by
  have hlock : ∀ lock holder, Unkilled (setLock t lock holder) := fun _ _ => hunkilled
  unfold next at hnext
  split at hnext
  case h_1 | h_7 => cases hnext
  case h_2 loop hpos =>
    split at hnext <;> cases hnext
    exact (hlock _ _).setPos (by simp [unflagged])
  case h_3 loop hpos =>
    split at hnext <;> cases hnext
    · exact hunkilled.setPos (by simp [unflagged])
    · exact (hlock _ _).setPos (by simp [unflagged])
  case h_4 loop hpos =>
    split at hnext
    case isTrue =>
      cases hnext
      exact (hlock _ _).setPos (by simp [unflagged])
    case isFalse hflag =>
      -- The flag is read as 0 here.
      rw [Bool.not_eq_true] at hflag
      split at hnext <;> cases hnext <;> exact hunkilled.setPos fun _ => hflag
  case h_5 loop hpos =>
    have hflag := hunkilled p (by rw [hpos]; rfl)
    split at hnext <;> cases hnext <;> exact hunkilled.setPos fun _ => hflag
  case h_6 loop hpos =>
    have hflag := hunkilled p (by rw [hpos]; rfl)
    cases hnext
    exact (hlock _ _).setPos fun _ => hflag

theorem unflagged_wake {chan : Chan P} {p : P} {pos : Pos}
    (hpos : unflagged (wake chan p pos) = true) : unflagged pos = true := by
  cases pos with
  | asleep loop => rfl
  | _ => exact hpos

theorem exec_unkilled {action : P × Action P} (hunkilled : Unkilled t)
    (htimely : Timely t action) (hexec : exec t action = some (.ok after)) : Unkilled after := by
  obtain ⟨p, action⟩ := action
  cases action with
  | call loop =>
    simp only [exec] at hexec
    split at hexec <;> cases hexec
    exact hunkilled.setPos (by simp [unflagged])
  | next waits =>
    simp only [exec, Option.map_eq_some_iff, Except.ok.injEq] at hexec
    obtain ⟨_, hnext, rfl⟩ := hexec
    exact next_unkilled hunkilled hnext
  | wakeup chan =>
    cases hexec
    intro q hq
    dsimp only at hq
    split at hq
    · exact hunkilled q hq
    · exact hunkilled q (unflagged_wake hq)
  | kill victim =>
    simp only [exec] at hexec
    split at hexec <;> cases hexec
    intro q hq
    by_cases hvictim : q = victim
    · subst hvictim
      simp only [kill, setPos, update_self] at hq
      rw [show unflagged (rouse (t.pos q)) = false from htimely] at hq
      cases hq
    · simp only [kill, setPos, update_of_ne hvictim] at hq ⊢
      exact hunkilled q hq

/-- The states in the runs in which every kill is timely. -/
abbrev TimelyRuns (t : State P) : Prop := Reachable exec Timely Initial t

theorem runs_unkilled (hruns : TimelyRuns t) : Unkilled t := by
  refine @Reachable.invariant _ _ _ _ _ _ Unkilled t hruns ?_ ?_
  · intro t hinit p _
    exact hinit.killed p
  · intro t action after hunkilled htimely hexec
    exact exec_unkilled hunkilled htimely hexec

/-- If no kill falls between the test of `killed` and the sleep of its victim, no
process is asleep in one of the loops with `killed` set.  A kill of a sleeping
process, and a wakeup on its channel, make it runnable, so neither has happened
since it went to sleep. -/
theorem killed_process_is_awake (t : State P) (hruns : TimelyRuns t) (p : P)
    (loop : Loop) (hasleep : t.pos p = .asleep loop) : t.killed p = false :=
  runs_unkilled hruns p (by rw [hasleep]; rfl)

end

instance {P : Type} (t : State P) : DecidablePred (Timely t)
  | (_, .call _) => inferInstanceAs (Decidable True)
  | (_, .next _) => inferInstanceAs (Decidable True)
  | (_, .wakeup _) => inferInstanceAs (Decidable True)
  | (_, .kill _) => inferInstanceAs (Decidable (_ = _))

def quiet : State Bool where
  lock _ := none
  pos _ := .idle
  killed _ := false

theorem quiet_initial : Initial quiet := ⟨fun _ => rfl, fun _ => rfl, fun _ => rfl⟩

/-- A process is killed while it sleeps in `wait`; the one that killed it sleeps there next. -/
theorem killed_process_is_awake_wait : ∃ t : State Bool, TimelyRuns t ∧
    t.killed true = true ∧ t.pos false = .asleep .wait ∧ t.killed false = false := by
  obtain ⟨t, hruns, htest⟩ := @exists_reachable (State Bool) (Bool × Action Bool)
    Panic exec Timely Initial (fun t action => decide (Timely t action))
    (fun t => decide (t.killed true = true ∧ t.pos false = .asleep .wait)) quiet
    [(true, .call .wait), (true, .next true), (true, .next true), (true, .next true),
      (true, .next true), (false, .kill true), (false, .call .wait), (false, .next true),
      (false, .next true), (false, .next true), (false, .next true)]
    quiet_initial (fun _ _ hcheck => of_decide_eq_true hcheck) (by decide)
  obtain ⟨hkilled, hasleep⟩ := of_decide_eq_true htest
  exact ⟨t, hruns, hkilled, hasleep, killed_process_is_awake t hruns false .wait hasleep⟩

/-- One process goes to sleep in a loop; the other kills it after it has read
`killed`. -/
def lostKill (loop : Loop) : List (Bool × Action Bool) :=
  [(false, .call loop), (false, .next true), (false, .next true), (false, .next true)] ++
    (match loop with
      | .pipewrite _ => [(false, .next true)]
      | _ => []) ++
    [(true, .kill false), (false, .next true)]

theorem lostKill_asleep (loop : Loop) :
    (runActions exec (fun _ _ => true) quiet (lostKill loop)).any
      (fun t => decide (t.pos false = .asleep loop ∧ t.killed false = true)) =
        true := by
  cases loop <;> simp [lostKill, runActions, exec, next, quiet, setPos, setLock,
    kill, rouse, Loop.lock]

theorem exists_lost_kill (loop : Loop) :
    ∃ t : State Bool, Reachable exec (fun _ _ => True) Initial t ∧
      t.pos false = .asleep loop ∧ t.killed false = true := by
  obtain ⟨t, hruns, htest⟩ := @exists_reachable (State Bool) (Bool × Action Bool)
    Panic exec (fun _ _ => True) Initial (fun _ _ => true)
    (fun t => decide (t.pos false = .asleep loop ∧ t.killed false = true)) quiet
    (lostKill loop) quiet_initial (fun _ _ _ => trivial) (lostKill_asleep loop)
  have hlost := of_decide_eq_true htest
  exact ⟨t, hruns, hlost⟩

/-- In each of the five loops a kill can be lost: the process is killed after it has
read the flag, and then goes to sleep. -/
theorem kill_lost_before_sleep : ∃ t : Loop → State Bool, ∀ loop,
    Reachable exec (fun _ _ => True) Initial (t loop) ∧
      (t loop).pos false = .asleep loop ∧ (t loop).killed false = true := by
  choose t ht using exists_lost_kill
  exact ⟨t, ht⟩

end Xv6.KillSleep
