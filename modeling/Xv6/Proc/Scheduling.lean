import Xv6.Core.Interleaving
import Xv6.Panic

/-!
# Processes, CPUs and locks

The scheduler of `kernel/proc.c` with `yield`, `sleep`, `wakeup`, `kill`, `fork`,
`exit` and `wait`, for any number of CPUs.  One action is one lock operation, one
store to a process, or one `swtch` by one CPU.  A CPU executes either its
scheduler thread or the kernel thread of a process, at a program counter; `swtch`
saves the program counter of one thread and loads that of another.

The number of processes `n` is `NPROC`.  What a process does between these calls
is one position `run`, from which it may make any of them or use any other
spinlock; `begin_op`, `copyout` and the rest of the system calls are there.  A
timer interrupt may call `yield` wherever no spinlock is held.
-/

namespace Xv6.Scheduling

open Interleaving Function

/-- `enum procstate`. -/
inductive ProcState where
  | unused
  | used
  | sleeping
  | runnable
  | running
  | zombie
  deriving DecidableEq, Repr

/-- A spinlock other than the `p->lock`s. -/
inductive Lock where
  /-- `wait_lock` -/
  | wait
  | other (id : ℕ)
  deriving DecidableEq, Repr

/-- A sleep channel.  `wait` sleeps on the address of a process. -/
inductive Chan (n : ℕ) where
  | proc (p : Fin n)
  | other (id : ℕ)
  deriving DecidableEq, Repr

/-- A call of `sleep(chan, lk)`, with a number of its own; `inWait` says that
`wait` made it. -/
structure SleepCall (n : ℕ) where
  chan : Chan n
  lk : Lock
  id : ℕ
  inWait : Bool
  deriving DecidableEq, Repr

/-- Where `wakeup` returns to. -/
inductive WakeReturn where
  | run (held : List Lock)
  /-- The loop of `reparent`, before `next`. -/
  | reparent (status : ℤ) (next : ℕ)
  /-- `exit`, after `wakeup(p->parent)`. -/
  | exitOwn (status : ℤ)
  deriving DecidableEq, Repr

/-- A call of `wakeup(chan)`; a null channel is `none`. -/
structure WakeCall (n : ℕ) where
  chan : Option (Chan n)
  after : WakeReturn
  deriving DecidableEq, Repr

/-- The program counter of the kernel thread of a process: the next operation. -/
inductive Pc (n : ℕ) where
  /-- Outside the modelled functions, holding these spinlocks. -/
  | run (held : List Lock)
  /-- `yield`, then back to `ret`. -/
  | yieldAcquire (ret : Pc n)
  | yieldSet (ret : Pc n)
  | yieldSwitch (ret : Pc n)
  | yieldRelease (ret : Pc n)
  /-- `sleep` -/
  | sleepAcquire (call : SleepCall n)
  | sleepReleaseLk (call : SleepCall n)
  | sleepSetChan (call : SleepCall n)
  | sleepSetState (call : SleepCall n)
  | sleepSwitch (call : SleepCall n)
  | sleepClearChan (call : SleepCall n)
  | sleepRelease (call : SleepCall n)
  | sleepReacquire (call : SleepCall n)
  /-- `wakeup` -/
  | wakeNext (call : WakeCall n) (index : ℕ)
  | wakeTest (call : WakeCall n) (q : Fin n)
  | wakeRelease (call : WakeCall n) (q : Fin n)
  /-- `kill` -/
  | killNext (pid index : ℕ) (held : List Lock)
  | killTest (pid : ℕ) (q : Fin n) (held : List Lock)
  | killRelease (pid : ℕ) (q : Fin n) (found : Bool) (held : List Lock)
  /-- `allocproc` in `fork` -/
  | allocNext (index : ℕ)
  | allocTest (q : Fin n)
  | allocSkip (q : Fin n)
  /-- `fork` -/
  | forkBuild (np : Fin n)
  | forkFail (np : Fin n)
  | forkRelease (np : Fin n)
  | forkAcquireWait (np : Fin n)
  | forkSetParent (np : Fin n)
  | forkReleaseWait (np : Fin n)
  | forkAcquire (np : Fin n)
  | forkSetState (np : Fin n)
  | forkReleaseLast (np : Fin n)
  /-- `forkret` -/
  | forkret
  /-- `exit` -/
  | exitAcquireWait (status : ℤ)
  | reparent (status : ℤ) (index : ℕ)
  | exitWakeParent (status : ℤ)
  | exitAcquire (status : ℤ)
  | exitSetState (status : ℤ)
  | exitReleaseWait
  | exitSwitch
  | exitDead
  /-- `wait` -/
  | waitAcquire
  | waitNext (havekids : Bool) (index : ℕ)
  | waitTest (np : Fin n)
  | waitSkip (np : Fin n)
  | waitLeave (np : Fin n)
  | waitRelease
  deriving DecidableEq, Repr

/-- The program counter of a scheduler thread. -/
inductive SchedPc (n : ℕ) where
  | next (index : ℕ)
  | test (p : Fin n)
  | setProc (p : Fin n)
  | switch (p : Fin n)
  | clearProc (p : Fin n)
  | release (p : Fin n)
  deriving DecidableEq, Repr

inductive Thread (n : ℕ) where
  | scheduler (pc : SchedPc n)
  | process (p : Fin n) (pc : Pc n)
  deriving DecidableEq, Repr

/-- The fields of `struct proc` that these functions use.  `sleepId` and `exitId`
are history: the numbers of the last sleep and of the exit. -/
structure Proc (n : ℕ) where
  state : ProcState
  chan : Option (Chan n)
  killed : Bool
  xstate : ℤ
  pid : ℕ
  parent : Option (Fin n)
  context : Pc n
  sleepId : ℕ
  exitId : ℕ

/-- `struct cpu`, and the thread it executes. -/
structure Cpu (n : ℕ) where
  proc : Option (Fin n)
  context : SchedPc n
  thread : Thread n

/-- A call of `exit` that has stored its status. -/
structure Exit where
  id : ℕ
  pid : ℕ
  status : ℤ
  deriving DecidableEq, Repr

/-- What `wait` has returned: to whom, and which exit. -/
structure Reaped (n : ℕ) where
  parent : Fin n
  pid : ℕ
  status : ℤ
  exitId : ℕ
  deriving DecidableEq, Repr

structure Machine (n : ℕ) (C : Type) where
  proc : Fin n → Proc n
  cpu : C → Cpu n
  /-- The CPU that holds `p->lock`. -/
  plock : Fin n → Option C
  /-- The CPU that holds another spinlock. -/
  lock : Lock → Option C
  nextpid : ℕ
  /-- History: the position that the kernel thread of each process has reached,
  on a CPU or at its last `swtch`. -/
  pos : Fin n → Pc n
  /-- History: the state of each process when its lock was last acquired. -/
  before : Fin n → ProcState
  /-- History: the number of calls of `sleep`, those that have released a
  spinlock, and those that had done so when it was last acquired. -/
  sleeps : ℕ
  released : Lock → List ℕ
  seen : Lock → List ℕ
  /-- History: the exits, and what `wait` has returned. -/
  exits : List Exit
  reaped : List (Reaped n)

/-- What may happen next on a CPU. -/
inductive Choice where
  /-- The next operation of the thread. -/
  | go
  /-- The next operation, where it fails: no memory in `fork`, or a bad address
  in `wait`. -/
  | fail
  /-- A timer interrupt. -/
  | preempt
  | acquire (lk : ℕ)
  | release (lk : ℕ)
  | sleep (chan lk : ℕ)
  | wakeup (chan : ℕ)
  | kill (pid : ℕ)
  | fork
  | exit (status : ℤ)
  | wait
  deriving DecidableEq, Repr

/-! ## Operations -/

/-- One operation of a CPU, and the position after it. -/
inductive Instr (n : ℕ) where
  | jump (next : Thread n)
  | acquireProc (q : Fin n) (next : Thread n)
  | releaseProc (q : Fin n) (next : Thread n)
  | acquireLock (lk : Lock) (next : Thread n)
  | releaseLock (lk : Lock) (next : Thread n)
  /-- `sleep` is called. -/
  | newSleep (next : Thread n)
  /-- `release(lk)` in `sleep`. -/
  | sleepRelease (call : SleepCall n) (next : Thread n)
  /-- A store to the fields of a process that `p->lock` protects. -/
  | write (q : Fin n) (value : Proc n) (next : Thread n)
  /-- A store to `q->parent`, which `wait_lock` protects. -/
  | setParent (q parent : Fin n) (next : Thread n)
  /-- `p->pid = allocpid(); p->state = USED` and the new context. -/
  | allocate (q : Fin n) (next : Thread n)
  /-- `p->xstate = status; p->state = ZOMBIE`. -/
  | die (p : Fin n) (status : ℤ) (next : Thread n)
  /-- `freeproc` in `wait`. -/
  | reap (p q : Fin n) (next : Thread n)
  /-- `c->proc = proc`. -/
  | setCpuProc (proc : Option (Fin n)) (next : Thread n)
  /-- `swtch(&p->context, &mycpu()->context)`. -/
  | toScheduler (p : Fin n) (resume : Pc n)
  /-- `swtch(&c->context, &p->context)`. -/
  | toProcess (p : Fin n) (resume : SchedPc n)

section
variable {n : ℕ} {C : Type} [DecidableEq C]

def goto (m : Machine n C) (c : C) (next : Thread n) : Machine n C :=
  { m with
    cpu := update m.cpu c { m.cpu c with thread := next }
    pos := match next with
      | .scheduler _ => m.pos
      | .process p pc => update m.pos p pc }

def setProc (m : Machine n C) (q : Fin n) (value : Proc n) : Machine n C :=
  { m with proc := update m.proc q value }

def freed (value : Proc n) : Proc n :=
  { value with
    state := .unused, chan := none, killed := false, xstate := 0, pid := 0,
    parent := none }

/-- The effect of an operation; a busy lock disables it. -/
def perform (m : Machine n C) (c : C) : Instr n → Option (Machine n C)
  | .jump next => some (goto m c next)
  | .acquireProc q next =>
    if m.plock q = none then
      some (goto { m with
        plock := update m.plock q (some c)
        before := update m.before q (m.proc q).state } c next)
    else none
  | .releaseProc q next => some (goto { m with plock := update m.plock q none } c next)
  | .acquireLock lk next =>
    if m.lock lk = none then
      some (goto { m with
        lock := update m.lock lk (some c)
        seen := update m.seen lk (m.released lk) } c next)
    else none
  | .releaseLock lk next => some (goto { m with lock := update m.lock lk none } c next)
  | .newSleep next => some (goto { m with sleeps := m.sleeps + 1 } c next)
  | .sleepRelease call next =>
    some (goto { m with
      lock := update m.lock call.lk none
      released := update m.released call.lk (call.id :: m.released call.lk) } c next)
  | .write q value next => some (goto (setProc m q value) c next)
  | .setParent q parent next =>
    some (goto (setProc m q { m.proc q with parent := some parent }) c next)
  | .allocate q next =>
    some (goto (setProc { m with
      nextpid := m.nextpid + 1
      pos := update m.pos q .forkret } q
      { m.proc q with
        pid := m.nextpid, state := .used, context := .forkret }) c next)
  | .die p status next =>
    some (goto (setProc { m with
      exits := ⟨m.exits.length, (m.proc p).pid, status⟩ :: m.exits } p
      { m.proc p with
        xstate := status, state := .zombie,
        exitId := m.exits.length }) c next)
  | .reap p q next =>
    some (goto (setProc { m with
      reaped := ⟨p, (m.proc q).pid, (m.proc q).xstate, (m.proc q).exitId⟩ ::
        m.reaped } q (freed (m.proc q))) c next)
  | .setCpuProc proc next =>
    some (goto { m with
      cpu := update m.cpu c { m.cpu c with proc := proc } } c next)
  | .toScheduler p resume =>
    some (goto { setProc m p { m.proc p with context := resume } with
      pos := update m.pos p resume } c (.scheduler (m.cpu c).context))
  | .toProcess p resume =>
    some (goto { m with
      cpu := update m.cpu c { m.cpu c with context := resume } } c (.process p (m.proc p).context))

/-! ## The code -/

/-- The `p->lock` that the kernel thread of `p` holds. -/
def heldProc (p : Fin n) : Pc n → Option (Fin n)
  | .yieldSet _ | .yieldSwitch _ | .yieldRelease _ => some p
  | .sleepReleaseLk _ | .sleepSetChan _ | .sleepSetState _ | .sleepSwitch _
  | .sleepClearChan _ | .sleepRelease _ => some p
  | .wakeTest _ q | .wakeRelease _ q => some q
  | .killTest _ q _ | .killRelease _ q _ _ => some q
  | .allocTest q | .allocSkip q => some q
  | .forkBuild q | .forkFail q | .forkRelease q => some q
  | .forkSetState q | .forkReleaseLast q => some q
  | .forkret => some p
  | .exitSetState _ | .exitReleaseWait | .exitSwitch | .exitDead => some p
  | .waitTest q | .waitSkip q | .waitLeave q => some q
  | _ => none

def heldReturn : WakeReturn → List Lock
  | .run held => held
  | .reparent _ _ | .exitOwn _ => [.wait]

def heldLocks : Pc n → List Lock
  | .run held => held
  | .sleepAcquire call | .sleepReleaseLk call => [call.lk]
  | .wakeNext call _ | .wakeTest call _ | .wakeRelease call _ => heldReturn call.after
  | .killNext _ _ held | .killTest _ _ held | .killRelease _ _ _ held => held
  | .forkSetParent _ | .forkReleaseWait _ => [.wait]
  | .reparent _ _ | .exitWakeParent _ | .exitAcquire _ | .exitSetState _
  | .exitReleaseWait => [.wait]
  | .waitNext _ _ | .waitTest _ | .waitSkip _ | .waitLeave _ | .waitRelease => [.wait]
  | _ => []

/-- Interrupts are on where no spinlock is held, except in a handler. -/
def interruptible (p : Fin n) (pc : Pc n) : Bool :=
  match pc with
  | .yieldAcquire _ => false
  | pc => (heldProc p pc).isNone && (heldLocks pc).isEmpty

def wakeReturn : WakeReturn → Pc n
  | .run held => .run held
  | .reparent status next => .reparent status next
  | .exitOwn status => .exitAcquire status

def sleepReturn (call : SleepCall n) : Pc n :=
  if call.inWait then .waitNext false 0 else .run [call.lk]

def sched (m : Machine n C) (c : C) (p : Fin n) (resume : Pc n) : Except Panic (Instr n) :=
  if m.plock p ≠ some c then .error .schedLock
  else if (m.proc p).state = .running then .error .schedRunning
  else .ok (.toScheduler p resume)

/-- The system calls and spinlock operations that a process may start. -/
def call (initproc : Fin n) (m : Machine n C) (p : Fin n) (held : List Lock) :
    Choice → Option (Except Panic (Instr n))
  | .acquire lk =>
    if .other lk ∈ held then none
    else some (.ok (.acquireLock (.other lk) (.process p (.run (.other lk :: held)))))
  | .release lk =>
    if .other lk ∈ held then
      some (.ok (.releaseLock (.other lk) (.process p (.run (held.filter (· ≠ .other lk))))))
    else none
  | .sleep chan lk =>
    if held = [.other lk] then
      some (.ok (.newSleep (.process p (.sleepAcquire ⟨.other chan, .other lk, m.sleeps, false⟩))))
    else none
  | .wakeup chan => some (.ok (.jump (.process p (.wakeNext ⟨some (.other chan), .run held⟩ 0))))
  | .kill pid => some (.ok (.jump (.process p (.killNext pid 0 held))))
  | .fork => if held = [] then some (.ok (.jump (.process p (.allocNext 0)))) else none
  | .exit status =>
    if held = [] then
      if p = initproc then some (.error .initExiting)
      else some (.ok (.jump (.process p (.exitAcquireWait status))))
    else none
  | .wait => if held = [] then some (.ok (.jump (.process p .waitAcquire))) else none
  | _ => none

/-- The next operation of the kernel thread of `p`; `good` is `false` where the
operation fails. -/
def procInstr (initproc : Fin n) (m : Machine n C) (c : C) (p : Fin n)
    (good : Bool) : Pc n → Option (Except Panic (Instr n))
  | .run _ => none
  | .yieldAcquire ret => some (.ok (.acquireProc p (.process p (.yieldSet ret))))
  | .yieldSet ret =>
    some (.ok (.write p { m.proc p with state := .runnable } (.process p (.yieldSwitch ret))))
  | .yieldSwitch ret => some (sched m c p (.yieldRelease ret))
  | .yieldRelease ret => some (.ok (.releaseProc p (.process p ret)))
  | .sleepAcquire k => some (.ok (.acquireProc p (.process p (.sleepReleaseLk k))))
  | .sleepReleaseLk k => some (.ok (.sleepRelease k (.process p (.sleepSetChan k))))
  | .sleepSetChan k =>
    some (.ok (.write p { m.proc p with chan := some k.chan } (.process p (.sleepSetState k))))
  | .sleepSetState k =>
    some (.ok (.write p { m.proc p with state := .sleeping, sleepId := k.id }
      (.process p (.sleepSwitch k))))
  | .sleepSwitch k => some (sched m c p (.sleepClearChan k))
  | .sleepClearChan k =>
    some (.ok (.write p { m.proc p with chan := none } (.process p (.sleepRelease k))))
  | .sleepRelease k => some (.ok (.releaseProc p (.process p (.sleepReacquire k))))
  | .sleepReacquire k => some (.ok (.acquireLock k.lk (.process p (sleepReturn k))))
  | .wakeNext w index =>
    if h : index < n then
      if p = ⟨index, h⟩ then
        some (.ok (.jump (.process p (.wakeNext w (index + 1)))))
      else
        some (.ok (.acquireProc ⟨index, h⟩ (.process p (.wakeTest w ⟨index, h⟩))))
    else some (.ok (.jump (.process p (wakeReturn w.after))))
  | .wakeTest w q =>
    if (m.proc q).state = .sleeping ∧ (m.proc q).chan = w.chan then
      some (.ok (.write q { m.proc q with state := .runnable } (.process p (.wakeRelease w q))))
    else some (.ok (.jump (.process p (.wakeRelease w q))))
  | .wakeRelease w q => some (.ok (.releaseProc q (.process p (.wakeNext w (q + 1)))))
  | .killNext pid index held =>
    if h : index < n then
      some (.ok (.acquireProc ⟨index, h⟩ (.process p (.killTest pid ⟨index, h⟩ held))))
    else some (.ok (.jump (.process p (.run held))))
  | .killTest pid q held =>
    if (m.proc q).pid = pid then
      some (.ok (.write q { m.proc q with
          killed := true
          state := if (m.proc q).state = .sleeping then .runnable
            else (m.proc q).state }
        (.process p (.killRelease pid q true held))))
    else some (.ok (.jump (.process p (.killRelease pid q false held))))
  | .killRelease _ q true held => some (.ok (.releaseProc q (.process p (.run held))))
  | .killRelease pid q false held =>
    some (.ok (.releaseProc q (.process p (.killNext pid (q + 1) held))))
  | .allocNext index =>
    if h : index < n then
      some (.ok (.acquireProc ⟨index, h⟩ (.process p (.allocTest ⟨index, h⟩))))
    else some (.ok (.jump (.process p (.run []))))
  | .allocTest q =>
    if (m.proc q).state = .unused then
      some (.ok (.allocate q (.process p (.forkBuild q))))
    else some (.ok (.jump (.process p (.allocSkip q))))
  | .allocSkip q => some (.ok (.releaseProc q (.process p (.allocNext (q + 1)))))
  | .forkBuild np =>
    if good then some (.ok (.jump (.process p (.forkRelease np))))
    else some (.ok (.write np (freed (m.proc np)) (.process p (.forkFail np))))
  | .forkFail np => some (.ok (.releaseProc np (.process p (.run []))))
  | .forkRelease np => some (.ok (.releaseProc np (.process p (.forkAcquireWait np))))
  | .forkAcquireWait np => some (.ok (.acquireLock .wait (.process p (.forkSetParent np))))
  | .forkSetParent np => some (.ok (.setParent np p (.process p (.forkReleaseWait np))))
  | .forkReleaseWait np => some (.ok (.releaseLock .wait (.process p (.forkAcquire np))))
  | .forkAcquire np => some (.ok (.acquireProc np (.process p (.forkSetState np))))
  | .forkSetState np =>
    some (.ok (.write np { m.proc np with state := .runnable } (.process p (.forkReleaseLast np))))
  | .forkReleaseLast np => some (.ok (.releaseProc np (.process p (.run []))))
  | .forkret => some (.ok (.releaseProc p (.process p (.run []))))
  | .exitAcquireWait status => some (.ok (.acquireLock .wait (.process p (.reparent status 0))))
  | .reparent status index =>
    if h : index < n then
      if (m.proc ⟨index, h⟩).parent = some p then
        some (.ok (.setParent ⟨index, h⟩ initproc (.process p (.wakeNext
          ⟨some (.proc initproc), .reparent status (index + 1)⟩ 0))))
      else some (.ok (.jump (.process p (.reparent status (index + 1)))))
    else some (.ok (.jump (.process p (.exitWakeParent status))))
  | .exitWakeParent status =>
    some (.ok (.jump (.process p (.wakeNext ⟨(m.proc p).parent.map .proc, .exitOwn status⟩ 0))))
  | .exitAcquire status => some (.ok (.acquireProc p (.process p (.exitSetState status))))
  | .exitSetState status => some (.ok (.die p status (.process p .exitReleaseWait)))
  | .exitReleaseWait => some (.ok (.releaseLock .wait (.process p .exitSwitch)))
  | .exitSwitch => some (sched m c p .exitDead)
  | .exitDead => some (.error .zombieExit)
  | .waitAcquire => some (.ok (.acquireLock .wait (.process p (.waitNext false 0))))
  | .waitNext havekids index =>
    if h : index < n then
      if (m.proc ⟨index, h⟩).parent = some p then
        some (.ok (.acquireProc ⟨index, h⟩ (.process p (.waitTest ⟨index, h⟩))))
      else some (.ok (.jump (.process p (.waitNext havekids (index + 1)))))
    else if havekids = false ∨ (m.proc p).killed = true then
      some (.ok (.jump (.process p .waitRelease)))
    else
      some (.ok (.newSleep (.process p (.sleepAcquire ⟨.proc p, .wait, m.sleeps, true⟩))))
  | .waitTest np =>
    if (m.proc np).state = .zombie then
      if good then some (.ok (.reap p np (.process p (.waitLeave np))))
      else some (.ok (.jump (.process p (.waitLeave np))))
    else some (.ok (.jump (.process p (.waitSkip np))))
  | .waitSkip np => some (.ok (.releaseProc np (.process p (.waitNext true (np + 1)))))
  | .waitLeave np => some (.ok (.releaseProc np (.process p .waitRelease)))
  | .waitRelease => some (.ok (.releaseLock .wait (.process p (.run []))))

def schedInstr (m : Machine n C) : SchedPc n → Instr n
  | .next index =>
    if h : index < n then
      .acquireProc ⟨index, h⟩ (.scheduler (.test ⟨index, h⟩))
    else .jump (.scheduler (.next 0))
  | .test p =>
    if (m.proc p).state = .runnable then
      .write p { m.proc p with state := .running } (.scheduler (.setProc p))
    else .jump (.scheduler (.release p))
  | .setProc p => .setCpuProc (some p) (.scheduler (.switch p))
  | .switch p => .toProcess p (.clearProc p)
  | .clearProc p => .setCpuProc none (.scheduler (.release p))
  | .release p => .releaseProc p (.scheduler (.next (p + 1)))

def decode (initproc : Fin n) (m : Machine n C) (c : C) (choice : Choice) :
    Option (Except Panic (Instr n)) :=
  match (m.cpu c).thread, choice with
  | .scheduler pc, .go => some (.ok (schedInstr m pc))
  | .scheduler _, _ => none
  | .process p pc, .go => procInstr initproc m c p true pc
  | .process p pc, .fail => procInstr initproc m c p false pc
  | .process p pc, .preempt =>
    if interruptible p pc then
      some (.ok (.jump (.process p (.yieldAcquire pc))))
    else none
  | .process p (.run held), choice => call initproc m p held choice
  | .process _ _, _ => none

def exec (initproc : Fin n) : System (Machine n C) (C × Choice) Panic :=
  fun m action =>
    match decode initproc m action.1 action.2 with
    | none => none
    | some (.error panic) => some (.error panic)
    | some (.ok instr) => (perform m action.1 instr).map .ok

/-- The machine after `userinit`: one process, ready to run, and every CPU in its
scheduler. -/
def initial (C : Type) (initproc : Fin n) : Machine n C where
  proc q :=
    { state := if q = initproc then .runnable else .unused
      chan := none
      killed := false
      xstate := 0
      pid := if q = initproc then 1 else 0
      parent := none
      context := .forkret
      sleepId := 0
      exitId := 0 }
  cpu _ := { proc := none, context := .next 0, thread := .scheduler (.next 0) }
  plock _ := none
  lock _ := none
  nextpid := 2
  pos _ := .forkret
  before _ := .unused
  sleeps := 0
  released _ := []
  seen _ := []
  exits := []
  reaped := []

end

end Xv6.Scheduling
