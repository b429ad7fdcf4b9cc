import Xv6.Proc.SchedulingLocks

/-!
# A process runs on one CPU

While a CPU executes a process, the position in the kernel determines the state
of the process; while none does, the saved context is the position it stopped at.
A process becomes runnable only where its own CPU has just given it up or under
its lock, so the scheduler resumes no process that is still running.
-/

namespace Xv6.RunningProcess

open Function Option Interleaving LockTable Scheduling SchedulingLocks

variable {n : ℕ} {C : Type} [DecidableEq C]
variable {pc : Pc n} {p q : Fin n} {spc : SchedPc n} {middle : Machine n C}

/-- The state of a process that a CPU executes at a position. -/
def expected : Pc n → ProcState
  | .yieldSwitch _ => .runnable
  | .sleepSwitch _ => .sleeping
  | .exitReleaseWait | .exitSwitch => .zombie
  | _ => .running

/-- The new process that `fork` has not made runnable yet. -/
def forking : Pc n → Option (Fin n)
  | .yieldAcquire ret | .yieldSet ret | .yieldSwitch ret | .yieldRelease ret => forking ret
  | .forkBuild np | .forkRelease np | .forkAcquireWait np | .forkSetParent np
  | .forkReleaseWait np | .forkAcquire np | .forkSetState np => some np
  | _ => none

def schedProc : SchedPc n → Option (Fin n)
  | .switch p | .clearProc p => some p
  | _ => none

def Executing (m : Machine n C) (p : Fin n) (c : C) : Prop := ∃ pc, (m.cpu c).thread = .process p pc

/-- A scheduler has chosen `p` and not yet switched to it. -/
def Resuming (m : Machine n C) (p : Fin n) (c : C) : Prop :=
  (m.cpu c).thread = .scheduler (.setProc p) ∨ (m.cpu c).thread = .scheduler (.switch p)

/-- The positions of the threads. -/
structure Threads (m : Machine n C) : Prop where
  pos : ∀ c p pc, (m.cpu c).thread = .process p pc → m.pos p = pc
  unique : ∀ c other p, Executing m p c → Executing m p other → c = other
  yields : ∀ p, YieldsUnlocked p (m.pos p)
  sleeps : ∀ p, SleepsIn p (m.pos p)
  idle : ∀ c pc, (m.cpu c).thread = .scheduler pc → (m.cpu c).proc = schedProc pc

/-- The states of the processes fit the positions of the threads. -/
structure Placed (m : Machine n C) : Prop extends Threads m where
  stopped : ∀ p, (∀ c, ¬ Executing m p c) → (m.proc p).context = m.pos p ∧ parked (m.pos p) = true
  live : ∀ c p pc, (m.cpu c).thread = .process p pc →
    (m.proc p).state = expected pc ∧ (m.cpu c).proc = some p ∧ (m.cpu c).context = .clearProc p
  resuming : ∀ c p, Resuming m p c → (m.proc p).state = .running ∧ ∀ other, ¬ Executing m p other
  running : ∀ p, (m.proc p).state = .running → ∃ c, Executing m p c ∨ Resuming m p c
  forks : ∀ p np, forking (m.pos p) = some np → (m.proc np).state = .used
  forksOnce : ∀ p other np, forking (m.pos p) = some np →
    forking (m.pos other) = some np → p = other
  left : ∀ c p, (m.cpu c).thread = .scheduler (.clearProc p) → ∀ other, ¬ Executing m p other

/-! ## Operations of a process -/

/-- What an operation of `p` at `pc` does to the states of the processes. -/
def Steady (m : Machine n C) (p : Fin n) (pc : Pc n) : Instr n → Prop
  | .jump next | .newSleep next | .acquireProc _ next | .releaseProc _ next
  | .acquireLock _ next | .releaseLock _ next | .sleepRelease _ next
  | .setParent _ _ next =>
    ∃ after, next = .process p after ∧ expected after = expected pc ∧
      (∀ np, forking after = some np → forking pc = some np) ∧
      YieldsUnlocked p after ∧ SleepsIn p after
  | .write q value next =>
    value.context = (m.proc q).context ∧
    ∃ after, next = .process p after ∧ YieldsUnlocked p after ∧ SleepsIn p after ∧
      ((q = p ∧ value.state = expected after ∧
          ∀ np, forking after = some np → forking pc = some np) ∨
        (value.state = (m.proc q).state ∧ expected after = expected pc ∧ forking after = none) ∨
        ((m.proc q).state = .sleeping ∧ value.state = .runnable ∧
          expected after = .running ∧ expected pc = .running ∧
          forking after = none) ∨
        (forking pc = some q ∧ forking after = none ∧
          (value.state = .runnable ∨ value.state = .unused) ∧
          expected after = .running ∧ expected pc = .running))
  | .allocate q next =>
    (m.proc q).state = .unused ∧ next = .process p (.forkBuild q) ∧ expected pc = .running
  | .die q _ next => q = p ∧ next = .process p .exitReleaseWait
  | .reap _ q next =>
    (m.proc q).state = .zombie ∧ next = .process p (.waitLeave q) ∧ expected pc = .running
  | .toScheduler q resume =>
    q = p ∧ expected pc ≠ .running ∧ YieldsUnlocked p resume ∧ SleepsIn p resume ∧
      ∀ np, forking resume = some np → forking pc = some np
  | .setCpuProc _ _ | .toProcess _ _ => False

theorem wakeReturn_steady (p : Fin n) (after : WakeReturn) :
    expected (wakeReturn after : Pc n) = .running ∧ forking (wakeReturn after : Pc n) = none ∧
      SleepsIn p (wakeReturn after : Pc n) := by
  cases after <;> simp [wakeReturn, expected, forking, SleepsIn]

theorem sleepReturn_steady (p : Fin n) (call : SleepCall n) :
    expected (sleepReturn call) = .running ∧ forking (sleepReturn call) = none ∧
      SleepsIn p (sleepReturn call) := by
  unfold sleepReturn
  split <;> simp [expected, forking, SleepsIn]

theorem heldProc_of_expected (p : Fin n) (hexp : expected pc ≠ .running) :
    heldProc p pc = some p := by
  cases pc <;> first | rfl | exact absurd rfl hexp

theorem expected_of_unlocked (hproc : heldProc p pc = none) :
    expected pc = .running := by
  by_contra hexp
  rw [heldProc_of_expected p hexp] at hproc
  cases hproc

theorem executes_steady {initproc : Fin n} {m : Machine n C} {c : C}
    {instr : Instr n} (hyield : YieldsUnlocked p pc)
    (hsleep : SleepsIn p pc) (hexecutes : Executes initproc m c p pc instr) :
    Steady m p pc instr := by
  rcases hexecutes with ⟨good, hinstr⟩ | ⟨hintr, rfl⟩ | ⟨held, choice, rfl, hcall⟩
  · revert hinstr
    fun_cases procInstr initproc m c p good pc <;> intro hinstr
    all_goals try simp only [some.injEq, Except.ok.injEq, reduceCtorEq] at hinstr
    all_goals try have hinstr := sched_ok hinstr
    all_goals try subst hinstr
    -- `sleepReacquire`
    case case13 k =>
      obtain ⟨hexp, hfork, hsleeps⟩ := sleepReturn_steady p k
      exact ⟨_, rfl, hexp, fun np hnp => by simp [hfork] at hnp,
        yieldsUnlocked_sleepReturn p k, hsleeps⟩
    -- `wakeNext`
    case case16 w _ _ =>
      obtain ⟨hexp, hfork, hsleeps⟩ := wakeReturn_steady p w.after
      exact ⟨_, rfl, hexp, fun np hnp => by simp [hfork] at hnp,
        yieldsUnlocked_wakeReturn p w.after, hsleeps⟩
    -- `yieldRelease`
    case case5 ret =>
      exact ⟨ret, rfl, expected_of_unlocked hyield.1, fun np hnp => hnp, hyield.2.2, hsleep⟩
    -- `killTest`
    case case22 pid q held =>
      by_cases hstate : (m.proc q).state = .sleeping <;>
        simp [Steady, expected, forking, YieldsUnlocked, SleepsIn, hstate]
    all_goals first
      | exact ⟨_, rfl, rfl, fun _ hnp => hnp, trivial, trivial⟩
      | simp_all [Steady, expected, forking, YieldsUnlocked, SleepsIn, freed]
  · obtain ⟨hproc, hlocks⟩ := interruptible_free hintr
    exact ⟨_, rfl, (expected_of_unlocked hproc).symm, fun np hnp => hnp,
      ⟨hproc, hlocks, hyield⟩, hsleep⟩
  · revert hcall
    fun_cases call initproc m p held choice <;> intro hcall
    all_goals try simp only [some.injEq, Except.ok.injEq, reduceCtorEq] at hcall
    all_goals try subst hcall
    all_goals simp [Steady, expected, forking, YieldsUnlocked, SleepsIn]

section
variable {m after : Machine n C} {c : C} {p : Fin n} {pc next : Pc n}

/-- The CPU of a process moves on. -/
structure Moves (m after : Machine n C) (c : C) (p : Fin n) (pc next : Pc n) :
    Prop where
  thread : (m.cpu c).thread = .process p pc
  moved : (after.cpu c).thread = .process p next
  cpuProc : (after.cpu c).proc = (m.cpu c).proc
  cpuContext : (after.cpu c).context = (m.cpu c).context
  others : ∀ other, other ≠ c → after.cpu other = m.cpu other

theorem Moves.executing (hmoves : Moves m after c p pc next) (q : Fin n)
    (other : C) : Executing after q other ↔ Executing m q other := by
  by_cases ho : other = c
  · subst ho
    simp [Executing, hmoves.thread, hmoves.moved]
  · simp [Executing, hmoves.others other ho]

theorem Moves.resuming (hmoves : Moves m after c p pc next) (q : Fin n)
    (other : C) : Resuming after q other ↔ Resuming m q other := by
  by_cases ho : other = c
  · subst ho
    simp [Resuming, hmoves.thread, hmoves.moved]
  · simp [Resuming, hmoves.others other ho]

theorem Moves.scheduler (hmoves : Moves m after c p pc next) (other : C)
    (spc : SchedPc n) : (after.cpu other).thread = .scheduler spc ↔
      (m.cpu other).thread = .scheduler spc := by
  by_cases ho : other = c
  · subst ho
    simp [hmoves.thread, hmoves.moved]
  · rw [hmoves.others other ho]

theorem Moves.left (hmoves : Moves m after c p pc next) (hplace : Placed m) (other : C) (q : Fin n)
    (ho : (after.cpu other).thread = .scheduler (.clearProc q)) (cpu : C) :
    ¬ Executing after q cpu := by
  rw [hmoves.executing]
  exact hplace.left other q ((hmoves.scheduler other _).mp ho) cpu

omit [DecidableEq C] in
theorem Threads.ne_of_other (hthreads : Threads m)
    (hthr : (m.cpu c).thread = .process p pc) {other : C} (ho : other ≠ c)
    (hq : Executing m q other) : q ≠ p := by
  intro hqp
  subst hqp
  exact ho (hthreads.unique other c q hq ⟨pc, hthr⟩)

theorem Threads.moves (hthreads : Threads m) (hmoves : Moves m after c p pc next)
    (hself : after.pos p = next) (hothers : ∀ q, q ≠ p → after.pos q = m.pos q ∨
      after.pos q = .forkret ∧ ∀ other, ¬ Executing m q other)
    (hyields : YieldsUnlocked p next) (hsleeps : SleepsIn p next) : Threads after := by
  refine ⟨?_, ?_, ?_, ?_, ?_⟩
  · intro other q qpc hthr
    by_cases hc : other = c
    · subst hc
      rw [hmoves.moved] at hthr
      cases hthr
      exact hself
    · rw [hmoves.others other hc] at hthr
      have hq := hthreads.ne_of_other hmoves.thread hc ⟨qpc, hthr⟩
      rcases hothers q hq with hkept | ⟨_, hnone⟩
      · rw [hkept]
        exact hthreads.pos other q qpc hthr
      · exact absurd ⟨qpc, hthr⟩ (hnone other)
  · intro first second q hfst hsnd
    rw [hmoves.executing] at hfst hsnd
    exact hthreads.unique first second q hfst hsnd
  · intro q
    by_cases hq : q = p
    · rw [hq, hself]
      exact hyields
    · rcases hothers q hq with hkept | ⟨hnew, _⟩
      · rw [hkept]
        exact hthreads.yields q
      · rw [hnew]
        trivial
  · intro q
    by_cases hq : q = p
    · rw [hq, hself]
      exact hsleeps
    · rcases hothers q hq with hkept | ⟨hnew, _⟩
      · rw [hkept]
        exact hthreads.sleeps q
      · rw [hnew]
        trivial
  · intro other qpc hthr
    by_cases hc : other = c
    · subst hc
      rw [hmoves.moved] at hthr
      cases hthr
    · rw [hmoves.others other hc] at hthr ⊢
      exact hthreads.idle other qpc hthr

omit [DecidableEq C] in
theorem Placed.not_used (hplace : Placed m) (hthr : (m.cpu c).thread = .process p pc) :
    (m.proc p).state ≠ .used ∧ (m.proc p).state ≠ .unused := by
  rw [(hplace.live c p pc hthr).1]
  cases pc <;> simp [expected]

theorem Placed.own (hplace : Placed m) (hmoves : Moves m after c p pc next)
    (hpos : after.pos = update m.pos p next)
    (hstate : ∀ q, q ≠ p → (after.proc q).state = (m.proc q).state)
    (hctx : ∀ q, (after.proc q).context = (m.proc q).context)
    (hown : (after.proc p).state = expected next)
    (hyields : YieldsUnlocked p next) (hsleeps : SleepsIn p next)
    (hfork : ∀ np, forking next = some np → forking pc = some np) : Placed after := by
  have hp : Executing m p c := ⟨pc, hmoves.thread⟩
  have ho : ∀ q, q ≠ p → after.pos q = m.pos q := fun q hq => by rw [hpos, update_of_ne hq]
  have hself : after.pos p = next := by rw [hpos, update_self]
  have hforks : ∀ q np, forking (after.pos q) = some np → forking (m.pos q) = some np := by
    intro q np hnp
    by_cases hq : q = p
    · subst hq
      rw [hself] at hnp
      rw [hplace.pos c q pc hmoves.thread]
      exact hfork np hnp
    · rwa [ho q hq] at hnp
  refine ⟨hplace.toThreads.moves hmoves hself (fun q hq => .inl (ho q hq))
    hyields hsleeps, ?_, ?_, ?_, ?_, ?_, ?_, hmoves.left hplace⟩
  · intro q hstopped
    simp only [hmoves.executing] at hstopped
    have hq : q ≠ p := by
      intro hqp
      subst hqp
      exact hstopped c hp
    rw [ho q hq, hctx q]
    exact hplace.stopped q hstopped
  · intro other q qpc hthr
    by_cases hc : other = c
    · subst hc
      rw [hmoves.moved] at hthr
      cases hthr
      rw [hmoves.cpuProc, hmoves.cpuContext]
      exact ⟨hown, (hplace.live other p pc hmoves.thread).2⟩
    · rw [hmoves.others other hc] at hthr ⊢
      rw [hstate q (hplace.ne_of_other hmoves.thread hc ⟨qpc, hthr⟩)]
      exact hplace.live other q qpc hthr
  · intro other q hresuming
    rw [hmoves.resuming] at hresuming
    obtain ⟨hrun, hnone⟩ := hplace.resuming other q hresuming
    have hq : q ≠ p := by
      intro hqp
      subst hqp
      exact hnone c hp
    refine ⟨by rw [hstate q hq]; exact hrun, fun cpu hcpu => ?_⟩
    exact hnone cpu ((hmoves.executing q cpu).mp hcpu)
  · intro q hrun
    by_cases hq : q = p
    · subst hq
      exact ⟨c, .inl ⟨next, hmoves.moved⟩⟩
    · rw [hstate q hq] at hrun
      simp only [hmoves.executing, hmoves.resuming]
      exact hplace.running q hrun
  · intro q np hnp
    have hused := hplace.forks q np (hforks q np hnp)
    have hnpp : np ≠ p := by
      intro hnpp
      subst hnpp
      exact (hplace.not_used hmoves.thread).1 hused
    rw [hstate np hnpp]
    exact hused
  · intro q other np hq hother'
    exact hplace.forksOnce q other np (hforks q np hq) (hforks other np hother')

/-- A process moves on and changes the state of another one, which no CPU
executes. -/
theorem Placed.foreign (hplace : Placed m) (hmoves : Moves m after c p pc next)
    {q : Fin n} (hself : after.pos p = next)
    (hothers : ∀ r, r ≠ p → after.pos r = m.pos r ∨ r = q ∧ after.pos r = .forkret)
    (hstate : ∀ r, r ≠ q → (after.proc r).state = (m.proc r).state)
    (hctx : ∀ r, r ≠ q → (after.proc r).context = (m.proc r).context)
    (hexp : expected next = expected pc) (hyields : YieldsUnlocked p next)
    (hsleeps : SleepsIn p next)
    (hquiet : ∀ other, ¬ Executing m q other) (hbefore : (m.proc q).state ≠ .running)
    (hafter : (after.proc q).state ≠ .running)
    (hstopped : (after.proc q).context = after.pos q ∧ parked (after.pos q) = true)
    (hfork : ∀ np, forking next = some np →
      (after.proc np).state = .used ∧ (np = q ∨ forking pc = some np))
    (hrest : ∀ r, r ≠ p → forking (m.pos r) ≠ some q) : Placed after := by
  have hqp : q ≠ p := by
    intro hqp
    subst hqp
    exact hquiet c ⟨pc, hmoves.thread⟩
  have hforkret : ∀ r, r ≠ p → ∀ np, forking (after.pos r) = some np →
      forking (m.pos r) = some np := by
    intro r hr np hnp
    rcases hothers r hr with hkept | ⟨_, hnew⟩
    · rwa [hkept] at hnp
    · rw [hnew] at hnp
      simp [forking] at hnp
  have hthreads := hplace.toThreads.moves hmoves hself (fun r hr => by
    rcases hothers r hr with hkept | ⟨rfl, hnew⟩
    · exact .inl hkept
    · exact .inr ⟨hnew, hquiet⟩) hyields hsleeps
  refine ⟨hthreads, ?_, ?_, ?_, ?_, ?_, ?_, hmoves.left hplace⟩
  · intro r hnone
    by_cases hr : r = q
    · subst hr
      exact hstopped
    · simp only [hmoves.executing] at hnone
      have hrp : r ≠ p := by
        intro hrp
        subst hrp
        exact hnone c ⟨pc, hmoves.thread⟩
      rcases hothers r hrp with hkept | ⟨hrq, _⟩
      · rw [hkept, hctx r hr]
        exact hplace.stopped r hnone
      · exact absurd hrq hr
  · intro other r rpc hthr
    by_cases hc : other = c
    · subst hc
      rw [hmoves.moved] at hthr
      cases hthr
      rw [hmoves.cpuProc, hmoves.cpuContext, hstate p hqp.symm, hexp]
      exact hplace.live other p pc hmoves.thread
    · rw [hmoves.others other hc] at hthr ⊢
      have hr : r ≠ q := by
        intro hrq
        subst hrq
        exact hquiet other ⟨rpc, hthr⟩
      rw [hstate r hr]
      exact hplace.live other r rpc hthr
  · intro other r hresuming
    rw [hmoves.resuming] at hresuming
    obtain ⟨hrun, hnone⟩ := hplace.resuming other r hresuming
    have hr : r ≠ q := by
      intro hrq
      subst hrq
      exact hbefore hrun
    refine ⟨by rw [hstate r hr]; exact hrun, fun cpu hcpu => ?_⟩
    exact hnone cpu ((hmoves.executing r cpu).mp hcpu)
  · intro r hrun
    have hr : r ≠ q := by
      intro hrq
      subst hrq
      exact hafter hrun
    rw [hstate r hr] at hrun
    simp only [hmoves.executing, hmoves.resuming]
    exact hplace.running r hrun
  · intro r np hnp
    by_cases hr : r = p
    · subst hr
      rw [hself] at hnp
      exact (hfork np hnp).1
    · have hforked := hforkret r hr np hnp
      have hnpq : np ≠ q := by
        intro hnpq
        subst hnpq
        exact hrest r hr hforked
      rw [hstate np hnpq]
      exact hplace.forks r np hforked
  · -- Only `p` can be creating `q`.
    have hmixed : ∀ r, r ≠ p → ∀ np, forking (after.pos r) = some np → forking next ≠ some np := by
      intro r hr np hnp hnext
      have hforked := hforkret r hr np hnp
      rcases (hfork np hnext).2 with hnpq | hpc
      · subst hnpq
        exact hrest r hr hforked
      · refine hr (hplace.forksOnce r p np hforked ?_)
        rw [hplace.pos c p pc hmoves.thread]
        exact hpc
    intro first second np hfst hsnd
    by_cases hf : first = p <;> by_cases hs : second = p
    · rw [hf, hs]
    · rw [hf, hself] at hfst
      exact absurd hfst (hmixed second hs np hsnd)
    · rw [hs, hself] at hsnd
      exact absurd hsnd (hmixed first hf np hfst)
    · exact hplace.forksOnce first second np (hforkret first hf np hfst)
        (hforkret second hs np hsnd)

/-! ## Switching -/

theorem Placed.toScheduler (hplace : Placed m) (hthr : (m.cpu c).thread = .process p pc)
    (hmoved : (after.cpu c).thread = .scheduler (.clearProc p))
    (hcpuProc : (after.cpu c).proc = (m.cpu c).proc)
    (hcpus : ∀ other, other ≠ c → after.cpu other = m.cpu other)
    (hpos : after.pos = update m.pos p next) (hstate : ∀ q, (after.proc q).state = (m.proc q).state)
    (hctx : ∀ q, q ≠ p → (after.proc q).context = (m.proc q).context)
    (hown : (after.proc p).context = next) (hparked : parked next = true)
    (hexp : expected pc ≠ .running) (hyields : YieldsUnlocked p next) (hsleeps : SleepsIn p next)
    (hfork : ∀ np, forking next = some np → forking pc = some np) : Placed after := by
  have ho : ∀ q, q ≠ p → after.pos q = m.pos q := fun q hq => by rw [hpos, update_of_ne hq]
  have hself : after.pos p = next := by rw [hpos, update_self]
  have hexecuting : ∀ q other, Executing after q other ↔ q ≠ p ∧ Executing m q other := by
    intro q other
    by_cases hc : other = c
    · subst hc
      simp [Executing, hthr, hmoved, eq_comm]
    · constructor
      · rintro ⟨qpc, hq⟩
        rw [hcpus other hc] at hq
        exact ⟨hplace.ne_of_other hthr hc ⟨qpc, hq⟩, qpc, hq⟩
      · rintro ⟨_, qpc, hq⟩
        exact ⟨qpc, by rw [hcpus other hc]; exact hq⟩
  have hresuming : ∀ q other, Resuming after q other ↔ Resuming m q other := by
    intro q other
    by_cases hc : other = c
    · subst hc
      simp [Resuming, hthr, hmoved]
    · simp [Resuming, hcpus other hc]
  have hforks : ∀ q np, forking (after.pos q) = some np → forking (m.pos q) = some np := by
    intro q np hnp
    by_cases hq : q = p
    · subst hq
      rw [hself] at hnp
      rw [hplace.pos c q pc hthr]
      exact hfork np hnp
    · rwa [ho q hq] at hnp
  refine ⟨⟨?_, ?_, ?_, ?_, ?_⟩, ?_, ?_, ?_, ?_, ?_, ?_, ?_⟩
  · intro other q qpc hq
    by_cases hc : other = c
    · subst hc
      rw [hmoved] at hq
      cases hq
    · rw [hcpus other hc] at hq
      rw [ho q (hplace.ne_of_other hthr hc ⟨qpc, hq⟩)]
      exact hplace.pos other q qpc hq
  · intro first second q hfst hsnd
    exact hplace.unique first second q ((hexecuting q first).mp hfst).2
      ((hexecuting q second).mp hsnd).2
  · intro q
    by_cases hq : q = p
    · rw [hq, hself]
      exact hyields
    · rw [ho q hq]
      exact hplace.yields q
  · intro q
    by_cases hq : q = p
    · rw [hq, hself]
      exact hsleeps
    · rw [ho q hq]
      exact hplace.sleeps q
  · intro other qpc hq
    by_cases hc : other = c
    · subst hc
      rw [hmoved] at hq
      cases hq
      rw [hcpuProc]
      exact (hplace.live other p pc hthr).2.1
    · rw [hcpus other hc] at hq ⊢
      exact hplace.idle other qpc hq
  · intro q hnone
    by_cases hq : q = p
    · rw [hq, hself, hown]
      exact ⟨rfl, hparked⟩
    · rw [ho q hq, hctx q hq]
      refine hplace.stopped q (fun other hexec => ?_)
      exact hnone other ((hexecuting q other).mpr ⟨hq, hexec⟩)
  · intro other q qpc hq
    by_cases hc : other = c
    · subst hc
      rw [hmoved] at hq
      cases hq
    · rw [hcpus other hc] at hq ⊢
      rw [hstate q]
      exact hplace.live other q qpc hq
  · intro other q hq
    rw [hresuming] at hq
    obtain ⟨hrun, hnone⟩ := hplace.resuming other q hq
    refine ⟨by rw [hstate q]; exact hrun, fun cpu hcpu => ?_⟩
    exact hnone cpu ((hexecuting q cpu).mp hcpu).2
  · intro q hrun
    rw [hstate q] at hrun
    have hq : q ≠ p := by
      intro hqp
      subst hqp
      rw [(hplace.live c q pc hthr).1] at hrun
      exact hexp hrun
    obtain ⟨cpu, hcpu | hcpu⟩ := hplace.running q hrun
    · exact ⟨cpu, .inl ((hexecuting q cpu).mpr ⟨hq, hcpu⟩)⟩
    · exact ⟨cpu, .inr ((hresuming q cpu).mpr hcpu)⟩
  · intro q np hnp
    rw [hstate np]
    exact hplace.forks q np (hforks q np hnp)
  · intro q other np hq hother'
    exact hplace.forksOnce q other np (hforks q np hq) (hforks other np hother')
  · intro other q hq cpu hcpu
    obtain ⟨hqp, hcpu⟩ := (hexecuting q cpu).mp hcpu
    by_cases hc : other = c
    · subst hc
      rw [hmoved] at hq
      cases hq
      exact hqp rfl
    · rw [hcpus other hc] at hq
      exact hplace.left other q hq cpu hcpu

theorem Placed.scheduler (hplace : Placed m) {snext : SchedPc n}
    (hthr : (m.cpu c).thread = .scheduler spc) (hmoved : (after.cpu c).thread = .scheduler snext)
    (hcpuProc : (after.cpu c).proc = schedProc snext)
    (hcpus : ∀ other, other ≠ c → after.cpu other = m.cpu other) (hpos : after.pos = m.pos)
    (hstate : ∀ q, (after.proc q).state = (m.proc q).state)
    (hctx : ∀ q, (after.proc q).context = (m.proc q).context)
    (hchoice : ∀ q, Resuming after q c ↔ Resuming m q c)
    (hleft : ∀ q, snext ≠ .clearProc q) : Placed after := by
  have hexecuting : ∀ q other, Executing after q other ↔ Executing m q other := by
    intro q other
    by_cases hc : other = c
    · subst hc
      simp [Executing, hthr, hmoved]
    · simp [Executing, hcpus other hc]
  have hresuming : ∀ q other, Resuming after q other ↔ Resuming m q other := by
    intro q other
    by_cases hc : other = c
    · rw [hc]
      exact hchoice q
    · simp [Resuming, hcpus other hc]
  have hprocess : ∀ other q qpc, (after.cpu other).thread = .process q qpc →
      after.cpu other = m.cpu other := by
    intro other q qpc hq
    by_cases hc : other = c
    · subst hc
      rw [hmoved] at hq
      cases hq
    · exact hcpus other hc
  refine ⟨⟨?_, ?_, ?_, ?_, ?_⟩, ?_, ?_, ?_, ?_, ?_, ?_, ?_⟩
  · intro other q qpc hq
    rw [hpos]
    exact hplace.pos other q qpc (hprocess other q qpc hq ▸ hq)
  · intro first second q hfst hsnd
    rw [hexecuting] at hfst hsnd
    exact hplace.unique first second q hfst hsnd
  · rw [hpos]
    exact hplace.yields
  · rw [hpos]
    exact hplace.sleeps
  · intro other qpc hq
    by_cases hc : other = c
    · subst hc
      rw [hmoved] at hq
      cases hq
      exact hcpuProc
    · rw [hcpus other hc] at hq ⊢
      exact hplace.idle other qpc hq
  · intro q hnone
    simp only [hexecuting] at hnone
    rw [hpos, hctx q]
    exact hplace.stopped q hnone
  · intro other q qpc hq
    have hsame := hprocess other q qpc hq
    rw [hsame] at hq ⊢
    rw [hstate q]
    exact hplace.live other q qpc hq
  · intro other q hq
    rw [hresuming] at hq
    simp only [hexecuting, hstate]
    exact hplace.resuming other q hq
  · intro q hrun
    rw [hstate q] at hrun
    simp only [hexecuting, hresuming]
    exact hplace.running q hrun
  · intro q np hnp
    rw [hpos] at hnp
    rw [hstate np]
    exact hplace.forks q np hnp
  · rw [hpos]
    exact hplace.forksOnce
  · intro other q hq cpu
    rw [hexecuting]
    by_cases hc : other = c
    · subst hc
      rw [hmoved] at hq
      cases hq
      exact absurd rfl (hleft q)
    · rw [hcpus other hc] at hq
      exact hplace.left other q hq cpu

theorem Placed.choose (hplace : Placed m) (hthr : (m.cpu c).thread = .scheduler (.test p))
    (hmoved : (after.cpu c).thread = .scheduler (.setProc p))
    (hcpuProc : (after.cpu c).proc = (m.cpu c).proc)
    (hcpus : ∀ other, other ≠ c → after.cpu other = m.cpu other) (hpos : after.pos = m.pos)
    (hstate : ∀ q, q ≠ p → (after.proc q).state = (m.proc q).state)
    (hctx : ∀ q, (after.proc q).context = (m.proc q).context)
    (hrunnable : (m.proc p).state = .runnable) (hrun : (after.proc p).state = .running)
    (hquiet : ∀ other, ¬ Executing m p other) : Placed after := by
  have hexecuting : ∀ q other, Executing after q other ↔ Executing m q other := by
    intro q other
    by_cases hc : other = c
    · subst hc
      simp [Executing, hthr, hmoved]
    · simp [Executing, hcpus other hc]
  have hresuming : ∀ q other, Resuming after q other ↔ q = p ∧ other = c ∨ Resuming m q other := by
    intro q other
    by_cases hc : other = c
    · subst hc
      simp [Resuming, hthr, hmoved, eq_comm]
    · simp [Resuming, hcpus other hc, hc]
  have hprocess : ∀ other q qpc, (after.cpu other).thread = .process q qpc →
      after.cpu other = m.cpu other ∧ q ≠ p := by
    intro other q qpc hq
    by_cases hc : other = c
    · subst hc
      rw [hmoved] at hq
      cases hq
    · refine ⟨hcpus other hc, ?_⟩
      intro hqp
      subst hqp
      rw [hcpus other hc] at hq
      exact hquiet other ⟨qpc, hq⟩
  refine ⟨⟨?_, ?_, ?_, ?_, ?_⟩, ?_, ?_, ?_, ?_, ?_, ?_, ?_⟩
  · intro other q qpc hq
    rw [hpos]
    exact hplace.pos other q qpc ((hprocess other q qpc hq).1 ▸ hq)
  · intro first second q hfst hsnd
    rw [hexecuting] at hfst hsnd
    exact hplace.unique first second q hfst hsnd
  · rw [hpos]
    exact hplace.yields
  · rw [hpos]
    exact hplace.sleeps
  · intro other qpc hq
    by_cases hc : other = c
    · subst hc
      rw [hmoved] at hq
      cases hq
      rw [hcpuProc]
      exact hplace.idle other (.test p) hthr
    · rw [hcpus other hc] at hq ⊢
      exact hplace.idle other qpc hq
  · intro q hnone
    simp only [hexecuting] at hnone
    rw [hpos, hctx q]
    exact hplace.stopped q hnone
  · intro other q qpc hq
    obtain ⟨hsame, hqp⟩ := hprocess other q qpc hq
    rw [hsame] at hq ⊢
    rw [hstate q hqp]
    exact hplace.live other q qpc hq
  · intro other q hq
    simp only [hexecuting]
    rcases (hresuming q other).mp hq with ⟨rfl, _⟩ | hq
    · exact ⟨hrun, hquiet⟩
    · obtain ⟨hstateq, hnone⟩ := hplace.resuming other q hq
      refine ⟨?_, hnone⟩
      by_cases hqp : q = p
      · rw [hqp]
        exact hrun
      · rw [hstate q hqp]
        exact hstateq
  · intro q hq
    by_cases hqp : q = p
    · exact ⟨c, .inr ((hresuming q c).mpr (.inl ⟨hqp, rfl⟩))⟩
    · rw [hstate q hqp] at hq
      obtain ⟨cpu, hcpu | hcpu⟩ := hplace.running q hq
      · exact ⟨cpu, .inl ((hexecuting q cpu).mpr hcpu)⟩
      · exact ⟨cpu, .inr ((hresuming q cpu).mpr (.inr hcpu))⟩
  · intro q np hnp
    rw [hpos] at hnp
    have hused := hplace.forks q np hnp
    have hnpp : np ≠ p := by
      intro hnpp
      subst hnpp
      rw [hrunnable] at hused
      cases hused
    rw [hstate np hnpp]
    exact hused
  · rw [hpos]
    exact hplace.forksOnce
  · intro other q hq cpu
    rw [hexecuting]
    by_cases hc : other = c
    · subst hc
      rw [hmoved] at hq
      cases hq
    · rw [hcpus other hc] at hq
      exact hplace.left other q hq cpu

theorem expected_parked (hparked : parked pc = true) : expected pc = .running := by
  cases pc <;> first | rfl | cases hparked

theorem Placed.toProcess (hplace : Placed m) (hthr : (m.cpu c).thread = .scheduler (.switch p))
    (hmoved : (after.cpu c).thread = .process p (m.proc p).context)
    (hcpuProc : (after.cpu c).proc = (m.cpu c).proc)
    (hcpuContext : (after.cpu c).context = .clearProc p)
    (hcpus : ∀ other, other ≠ c → after.cpu other = m.cpu other)
    (hpos : after.pos = update m.pos p (m.proc p).context) (hproc : after.proc = m.proc)
    (honly : ∀ other, threadProc (m.cpu other).thread = some p → other = c) : Placed after := by
  obtain ⟨hrun, hquiet⟩ := hplace.resuming c p (.inr hthr)
  obtain ⟨hctx, hparked⟩ := hplace.stopped p hquiet
  have hpos : after.pos = m.pos := by rw [hpos, hctx, update_eq_self]
  have hexecuting : ∀ q other, Executing after q other ↔
      q = p ∧ other = c ∨ Executing m q other := by
    intro q other
    by_cases hc : other = c
    · subst hc
      simp [Executing, hthr, hmoved, eq_comm]
    · simp [Executing, hcpus other hc, hc]
  have hresuming : ∀ q other, Resuming after q other ↔ other ≠ c ∧ Resuming m q other := by
    intro q other
    by_cases hc : other = c
    · subst hc
      simp [Resuming, hmoved]
    · simp [Resuming, hcpus other hc, hc]
  refine ⟨⟨?_, ?_, ?_, ?_, ?_⟩, ?_, ?_, ?_, ?_, ?_, ?_, ?_⟩
  · intro other q qpc hq
    rw [hpos]
    by_cases hc : other = c
    · subst hc
      rw [hmoved] at hq
      cases hq
      exact hctx.symm
    · rw [hcpus other hc] at hq
      exact hplace.pos other q qpc hq
  · intro first second q hfst hsnd
    rcases (hexecuting q first).mp hfst with ⟨hq, hf⟩ | hfst <;>
      rcases (hexecuting q second).mp hsnd with ⟨hq', hs⟩ | hsnd
    · rw [hf, hs]
    · exact absurd hsnd (hq ▸ hquiet second)
    · exact absurd hfst (hq' ▸ hquiet first)
    · exact hplace.unique first second q hfst hsnd
  · rw [hpos]
    exact hplace.yields
  · rw [hpos]
    exact hplace.sleeps
  · intro other qpc hq
    by_cases hc : other = c
    · subst hc
      rw [hmoved] at hq
      cases hq
    · rw [hcpus other hc] at hq ⊢
      exact hplace.idle other qpc hq
  · intro q hnone
    rw [hpos, hproc]
    refine hplace.stopped q (fun other hexec => ?_)
    exact hnone other ((hexecuting q other).mpr (.inr hexec))
  · intro other q qpc hq
    rw [hproc]
    by_cases hc : other = c
    · subst hc
      rw [hmoved] at hq
      cases hq
      rw [hcpuProc, hcpuContext, hplace.idle other _ hthr, hrun, hctx, expected_parked hparked]
      exact ⟨rfl, rfl, rfl⟩
    · rw [hcpus other hc] at hq ⊢
      exact hplace.live other q qpc hq
  · intro other q hq
    obtain ⟨hc, hq⟩ := (hresuming q other).mp hq
    obtain ⟨hstateq, hnone⟩ := hplace.resuming other q hq
    rw [hproc]
    refine ⟨hstateq, fun cpu hcpu => ?_⟩
    rcases (hexecuting q cpu).mp hcpu with ⟨hqp, _⟩ | hcpu
    · subst hqp
      refine hc (honly other ?_)
      rcases hq with hq | hq <;> rw [hq] <;> rfl
    · exact hnone cpu hcpu
  · intro q hq
    rw [hproc] at hq
    obtain ⟨cpu, hcpu | hcpu⟩ := hplace.running q hq
    · exact ⟨cpu, .inl ((hexecuting q cpu).mpr (.inr hcpu))⟩
    · by_cases hc : cpu = c
      · subst hc
        have hqp : q = p := by
          rcases hcpu with hcpu | hcpu <;> rw [hthr] at hcpu <;> cases hcpu
          rfl
        exact ⟨cpu, .inl ((hexecuting q cpu).mpr (.inl ⟨hqp, rfl⟩))⟩
      · exact ⟨cpu, .inr ((hresuming q cpu).mpr ⟨hc, hcpu⟩)⟩
  · rw [hpos, hproc]
    exact hplace.forks
  · rw [hpos]
    exact hplace.forksOnce
  · intro other q hq cpu hcpu
    by_cases hc : other = c
    · subst hc
      rw [hmoved] at hq
      cases hq
    · rw [hcpus other hc] at hq
      rcases (hexecuting q cpu).mp hcpu with ⟨hqp, _⟩ | hcpu
      · subst hqp
        exact hc (honly other (by rw [hq]; rfl))
      · exact hplace.left other q hq cpu hcpu

/-! ## Every step -/

omit [DecidableEq C] in
theorem Placed.quiet (hplace : Placed m) (hlock : Locked m)
    (hheld : threadProc (m.cpu c).thread = some q)
    (ho : ¬ Executing m q c) (hstate : (m.proc q).state ≠ .running) (cpu : C) :
    ¬ Executing m q cpu := by
  rintro ⟨qpc, hq⟩
  have hexp := (hplace.live cpu q qpc hq).1
  have howns : threadProc (m.cpu cpu).thread = some q := by
    rw [hq]
    exact heldProc_of_expected q (by rw [← hexp]; exact hstate)
  have hsame := hlock.proc.unique howns hheld
  subst hsame
  exact ho ⟨qpc, hq⟩

end

section
variable {initproc : Fin n} {m after : Machine n C} {c : C} {p : Fin n}
  {pc : Pc n} {instr : Instr n}

theorem moves_goto (hcpu : middle.cpu = m.cpu)
    (hthr : (m.cpu c).thread = .process p pc) (next : Pc n) :
    Moves m (goto middle c (.process p next)) c p pc next where
  thread := hthr
  moved := by simp [goto]
  cpuProc := by simp [goto, hcpu]
  cpuContext := by simp [goto, hcpu]
  others other ho := by simp [goto, hcpu, ho]

theorem Placed.same {next : Thread n} (hplace : Placed m) (hthr : (m.cpu c).thread = .process p pc)
    (hcpu : middle.cpu = m.cpu) (hpos : middle.pos = m.pos)
    (hstate : ∀ q, (middle.proc q).state = (m.proc q).state)
    (hctx : ∀ q, (middle.proc q).context = (m.proc q).context)
    (hsteady : ∃ after, next = .process p after ∧ expected after = expected pc ∧
      (∀ np, forking after = some np → forking pc = some np) ∧
      YieldsUnlocked p after ∧ SleepsIn p after) : Placed (goto middle c next) := by
  obtain ⟨after, rfl, hexp, hfork, hyields, hsleeps⟩ := hsteady
  refine hplace.own (moves_goto hcpu hthr after) ?_ (fun q _ => hstate q)
    hctx ?_ hyields hsleeps hfork
  · simp [goto, hpos]
  · show (middle.proc p).state = _
    rw [hstate p, (hplace.live c p pc hthr).1, hexp]

theorem Placed.changed {q : Fin n} {value : Proc n} {next : Pc n}
    (hplace : Placed m) (hthr : (m.cpu c).thread = .process p pc)
    (hctx : value.context = (m.proc q).context) (hexp : expected next = expected pc)
    (hyields : YieldsUnlocked p next) (hsleeps : SleepsIn p next)
    (hquiet : ∀ other, ¬ Executing m q other) (hbefore : (m.proc q).state ≠ .running)
    (hafter : value.state ≠ .running) (hfork : forking next = none)
    (hrest : ∀ r, r ≠ p → forking (m.pos r) ≠ some q) :
    Placed (goto (setProc m q value) c (.process p next)) := by
  have hqp : q ≠ p := by
    intro hqp
    subst hqp
    exact hquiet c ⟨pc, hthr⟩
  refine @Placed.foreign n C _ m _ c p pc next hplace (moves_goto (by rfl) hthr next)
    q ?_ (fun r hr => .inl ?_) (fun r hr => ?_) (fun r hr => ?_) hexp hyields
    hsleeps hquiet hbefore ?_ ?_ (fun np hnp => ?_) hrest
  · simp [goto]
  · simp [goto, setProc, hr]
  · simp [goto, setProc, hr]
  · simp [goto, setProc, hr]
  · simpa [goto, setProc] using hafter
  · have hstopped := hplace.stopped q hquiet
    simpa [goto, setProc, hqp, hctx] using hstopped
  · rw [hfork] at hnp
    cases hnp

theorem Placed.process (hplace : Placed m) (hlock : Locked m)
    (hthr : (m.cpu c).thread = .process p pc)
    (hlegal : Legal (.process p pc) instr) (hsteady : Steady m p pc instr)
    (hperf : perform m c instr = some after) : Placed after := by
  have hlive := hplace.live c p pc hthr
  cases instr with
  | setCpuProc => exact hsteady.elim
  | toProcess => exact hsteady.elim
  | jump next | newSleep next | releaseProc q next | releaseLock lk next
  | sleepRelease call next =>
    cases hperf
    exact hplace.same hthr rfl rfl (fun _ => rfl) (fun _ => rfl) hsteady
  | acquireProc q next | acquireLock lk next =>
    simp only [perform, ite_none_right_eq_some, some.injEq] at hperf
    obtain ⟨_, rfl⟩ := hperf
    exact hplace.same hthr rfl rfl (fun _ => rfl) (fun _ => rfl) hsteady
  | setParent q parent next =>
    cases hperf
    refine hplace.same hthr rfl rfl (fun r => ?_) (fun r => ?_) hsteady
    · by_cases hr : r = q <;> simp [setProc, hr]
    · by_cases hr : r = q <;> simp [setProc, hr]
  | write q value next =>
    cases hperf
    obtain ⟨hctx, next, rfl, hyields, hsleeps, hcases⟩ := hsteady
    rcases hcases with ⟨rfl, hown, hfork⟩ | ⟨hsame, hexp, hfork⟩ |
      ⟨hsleep, hrunnable, hexp, hrun, hfork⟩ |
      ⟨hcreates, hfork, hvalue, hexp, hrun⟩
    · refine hplace.own (moves_goto (by rfl) hthr next) rfl (fun r hr => ?_)
        (fun r => ?_) ?_ hyields hsleeps hfork
      · simp [goto, setProc, hr]
      · by_cases hr : r = q <;> simp [goto, setProc, hr, hctx]
      · simpa [goto, setProc] using hown
    · refine hplace.same hthr rfl rfl (fun r => ?_) (fun r => ?_)
        ⟨next, rfl, hexp, fun np hnp => by simp [hfork] at hnp, hyields, hsleeps⟩
      · by_cases hr : r = q <;> simp [setProc, hr, hsame]
      · by_cases hr : r = q <;> simp [setProc, hr, hctx]
    · have hstate : (m.proc q).state ≠ .running := by simp [hsleep]
      have ho : ¬ Executing m q c := by
        rintro ⟨qpc, hq⟩
        rw [hthr] at hq
        cases hq
        rw [hlive.1, hrun] at hsleep
        cases hsleep
      refine hplace.changed hthr hctx (hexp.trans hrun.symm)
        hyields hsleeps (hplace.quiet hlock (by rw [hthr]; exact hlegal.1)
          ho hstate) hstate (by simp [hrunnable])
        hfork (fun r _ hr => ?_)
      rw [hplace.forks r q hr] at hsleep
      cases hsleep
    · have hpos := hplace.pos c p pc hthr
      have hused := hplace.forks p q (by rw [hpos]; exact hcreates)
      have hstate : (m.proc q).state ≠ .running := by simp [hused]
      have ho : ¬ Executing m q c := by
        rintro ⟨qpc, hq⟩
        exact (hplace.not_used hq).1 hused
      refine hplace.changed hthr hctx (hexp.trans hrun.symm)
        hyields hsleeps (hplace.quiet hlock (by rw [hthr]; exact hlegal.1)
          ho hstate) hstate ?_ hfork (fun r hr hrq => ?_)
      · rcases hvalue with hvalue | hvalue <;> simp [hvalue]
      · exact hr (hplace.forksOnce r p q hrq (by rw [hpos]; exact hcreates))
  | allocate q next =>
    cases hperf
    obtain ⟨hunused, rfl, hrun⟩ := hsteady
    have hstate : (m.proc q).state ≠ .running := by simp [hunused]
    have hquiet : ∀ other, ¬ Executing m q other := by
      rintro other ⟨qpc, hq⟩
      exact (hplace.not_used hq).2 hunused
    have hqp : q ≠ p := by
      intro hqp
      subst hqp
      exact hquiet c ⟨pc, hthr⟩
    refine @Placed.foreign n C _ m _ c p pc (.forkBuild q) hplace
      (moves_goto (by rfl) hthr _) q ?_ (fun r hr => ?_) (fun r hr => ?_)
      (fun r hr => ?_) hrun.symm trivial trivial hquiet hstate ?_ ?_
      (fun np hnp => ?_) (fun r _ hr => ?_)
    · simp [goto]
    · by_cases hrq : r = q
      · exact .inr ⟨hrq, by simp [goto, setProc, hrq, hqp]⟩
      · exact .inl (by simp [goto, setProc, hr, hrq])
    · simp [goto, setProc, hr]
    · simp [goto, setProc, hr]
    · simp [goto, setProc]
    · simp [goto, setProc, hqp, parked]
    · simp only [forking, some.injEq] at hnp
      subst hnp
      exact ⟨by simp [goto, setProc], .inl rfl⟩
    · rw [hplace.forks r q hr] at hunused
      cases hunused
  | die q status next =>
    cases hperf
    obtain ⟨rfl, rfl⟩ := hsteady
    refine hplace.own (moves_goto (by rfl) hthr _) rfl (fun r hr => ?_)
      (fun r => ?_) ?_ trivial trivial (fun np hnp => by cases hnp)
    · simp [goto, setProc, hr]
    · by_cases hr : r = q <;> simp [goto, setProc, hr]
    · simp [goto, setProc, expected]
  | reap parent q next =>
    cases hperf
    obtain ⟨hzombie, rfl, hrun⟩ := hsteady
    have hstate : (m.proc q).state ≠ .running := by simp [hzombie]
    have ho : ¬ Executing m q c := by
      rintro ⟨qpc, hq⟩
      rw [hthr] at hq
      cases hq
      rw [hlive.1, hrun] at hzombie
      cases hzombie
    have hquiet := hplace.quiet hlock (by rw [hthr]; exact hlegal.1) ho hstate
    have hchanged := @Placed.changed n C _ m c p pc q (freed (m.proc q))
      (.waitLeave q) hplace hthr rfl hrun.symm trivial trivial hquiet
      hstate (by simp [freed]) rfl (fun r _ hr => by
        rw [hplace.forks r q hr] at hzombie
        cases hzombie)
    exact ⟨⟨hchanged.pos, hchanged.unique, hchanged.yields, hchanged.sleeps,
      hchanged.idle⟩, hchanged.stopped, hchanged.live, hchanged.resuming,
      hchanged.running, hchanged.forks, hchanged.forksOnce, hchanged.left⟩
  | toScheduler q resume =>
    cases hperf
    obtain ⟨rfl, hexp, hyields, hsleeps, hfork⟩ := hsteady
    refine hplace.toScheduler hthr ?_ ?_ (fun other ho => ?_) rfl
      (fun r => ?_) (fun r hr => ?_) ?_ hlegal.2.2.2 hexp hyields hsleeps
      hfork
    · simp [goto, setProc, hlive.2.2]
    · simp [goto, setProc]
    · simp [goto, setProc, ho]
    · by_cases hr : r = q <;> simp [goto, setProc, hr]
    · simp [goto, setProc, hr]
    · simp [goto, setProc]

theorem Placed.scheduled (hplace : Placed m) (hlock : Locked m)
    (hthr : (m.cpu c).thread = .scheduler spc)
    (hperf : perform m c (schedInstr m spc) = some after) : Placed after := by
  have hidle := hplace.idle c spc hthr
  revert hperf
  fun_cases schedInstr m spc <;> intro hperf
  case case1 index hi =>
    simp only [perform, ite_none_right_eq_some, some.injEq] at hperf
    obtain ⟨_, rfl⟩ := hperf
    refine hplace.scheduler hthr (by simp [goto]; rfl) ?_ (fun other ho => ?_)
      rfl (fun _ => rfl) (fun _ => rfl) (fun q => ?_) (fun q hq => by cases hq)
    · simpa [goto, schedProc] using hidle
    · simp [goto, ho]
    · simp [Resuming, goto, hthr]
  case case2 index hi =>
    cases hperf
    refine hplace.scheduler hthr (by simp [goto]; rfl) ?_ (fun other ho => ?_)
      rfl (fun _ => rfl) (fun _ => rfl) (fun q => ?_) (fun q hq => by cases hq)
    · simpa [goto, schedProc] using hidle
    · simp [goto, ho]
    · simp [Resuming, goto, hthr]
  case case3 p hrunnable =>
    cases hperf
    have hquiet : ∀ other, ¬ Executing m p other := by
      refine hplace.quiet hlock (by rw [hthr]; rfl) ?_ (by simp [hrunnable])
      rintro ⟨pc, hp⟩
      rw [hthr] at hp
      cases hp
    refine hplace.choose hthr ?_ ?_ (fun other ho => ?_) rfl
      (fun q hq => ?_) (fun q => ?_) hrunnable ?_ hquiet
    · simp [goto]
    · simp [goto, setProc]
    · simp [goto, setProc, ho]
    · simp [goto, setProc, hq]
    · by_cases hq : q = p <;> simp [goto, setProc, hq]
    · simp [goto, setProc]
  case case4 p hrunnable =>
    cases hperf
    refine hplace.scheduler hthr (by simp [goto]; rfl) ?_ (fun other ho => ?_)
      rfl (fun _ => rfl) (fun _ => rfl) (fun q => ?_) (fun q hq => by cases hq)
    · simpa [goto, schedProc] using hidle
    · simp [goto, ho]
    · simp [Resuming, goto, hthr]
  case case5 p =>
    cases hperf
    refine hplace.scheduler hthr (by simp [goto]; rfl) ?_ (fun other ho => ?_)
      rfl (fun _ => rfl) (fun _ => rfl) (fun q => ?_) (fun q hq => by cases hq)
    · simp [goto, schedProc]
    · simp [goto, ho]
    · simp [Resuming, goto, hthr]
  case case6 p =>
    cases hperf
    refine hplace.toProcess hthr ?_ ?_ ?_ (fun other ho => ?_) rfl rfl (fun other ho => ?_)
    · simp [goto]
    · simp [goto]
    · simp [goto]
    · simp [goto, ho]
    · exact hlock.proc.unique ho (show threadProc (m.cpu c).thread = some p by
        rw [hthr]
        rfl)
  case case7 p =>
    cases hperf
    refine hplace.scheduler hthr (by simp [goto]; rfl) ?_ (fun other ho => ?_)
      rfl (fun _ => rfl) (fun _ => rfl) (fun q => ?_) (fun q hq => by cases hq)
    · simp [goto, schedProc]
    · simp [goto, ho]
    · simp [Resuming, goto, hthr]
  case case8 p =>
    cases hperf
    refine hplace.scheduler hthr (by simp [goto]; rfl) ?_ (fun other ho => ?_)
      rfl (fun _ => rfl) (fun _ => rfl) (fun q => ?_) (fun q hq => by cases hq)
    · simpa [goto, schedProc] using hidle
    · simp [goto, ho]
    · simp [Resuming, goto, hthr]

theorem step_placed {action : C × Choice} (hplace : Placed m)
    (hlock : Locked m) (hexec : exec initproc m action = some (.ok after)) :
    Placed after ∧ Locked after := by
  obtain ⟨instr, hperf, ⟨spc, hthr, rfl⟩ | ⟨p, pc, hthr, hexecutes⟩⟩ := exec_ok hexec
  · refine ⟨hplace.scheduled hlock hthr hperf, ?_⟩
    refine hlock.perform (hthr ▸ schedInstr_legal m spc) ?_ ?_ hperf
    · intro p resume hinstr
      have hlegal := schedInstr_legal m spc
      rw [hinstr] at hlegal
      obtain ⟨⟨pc, hpc⟩, _⟩ := hlegal
      cases hpc
    · intro p resume hinstr
      have hlegal := schedInstr_legal m spc
      rw [hinstr] at hlegal
      obtain ⟨hswitch, _⟩ := hlegal
      obtain ⟨hrun, hquiet⟩ := hplace.resuming action.1 p (.inr (hthr.trans hswitch))
      obtain ⟨hctx, hparked⟩ := hplace.stopped p hquiet
      rw [hctx]
      exact hparked
  · have hpos := hplace.pos _ p pc hthr
    have hyields := hpos ▸ hplace.yields p
    have hsleeps := hpos ▸ hplace.sleeps p
    have hlegal := executes_legal hyields hsleeps hexecutes
    refine ⟨hplace.process hlock hthr hlegal (executes_steady hyields hsleeps hexecutes) hperf, ?_⟩
    refine hlock.perform (hthr ▸ hlegal) ?_ ?_ hperf
    · intro q resume hinstr
      rw [hinstr] at hlegal
      obtain ⟨⟨qpc, hq⟩, _⟩ := hlegal
      cases hq
      rw [(hplace.live _ p pc hthr).2.2]
      rfl
    · intro q resume hinstr
      rw [hinstr] at hlegal
      cases hlegal.1

end

/-! ## Every run -/

abbrev Runs (initproc : Fin n) (m : Machine n C) : Prop :=
  Reachable (exec initproc) (fun _ _ => True) (· = initial C initproc) m

omit [DecidableEq C] in
theorem initial_placed (initproc : Fin n) : Placed (initial C initproc) := by
  refine ⟨⟨?_, ?_, ?_, ?_, ?_⟩, ?_, ?_, ?_, ?_, ?_, ?_, ?_⟩
  all_goals simp [initial, Executing, Resuming, YieldsUnlocked, SleepsIn, parked,
    forking, schedProc]
  intro p
  split <;> simp

omit [DecidableEq C] in
theorem initial_locked (initproc : Fin n) : Locked (initial C initproc) := by
  refine ⟨?_, ?_⟩ <;> intro c key <;> simp [initial, threadProc, threadLocks, schedHeld]

end Xv6.RunningProcess
