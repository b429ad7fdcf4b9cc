import Xv6.Core.LockTable
import Xv6.Proc.Scheduling

/-!
# Lock ownership of the scheduler's threads

Which locks a thread holds is a function of its position.  Every operation moves
a thread between positions whose locks differ exactly by what the operation
acquires or releases; a `swtch` hands the process lock over.
-/

namespace Xv6.SchedulingLocks

open Interleaving LockTable Scheduling List Option

variable {n : ℕ} {C : Type} [DecidableEq C]
variable {initproc p : Fin n} {m after : Machine n C} {c : C} {instr : Instr n} {pc : Pc n}

/-! ## Positions -/

def schedHeld : SchedPc n → Option (Fin n)
  | .next _ => none
  | .test p | .setProc p | .switch p | .clearProc p | .release p => some p

def threadProc : Thread n → Option (Fin n)
  | .scheduler pc => schedHeld pc
  | .process p pc => heldProc p pc

def threadLocks : Thread n → List Lock
  | .scheduler _ => []
  | .process _ pc => heldLocks pc

def parked : Pc n → Bool
  | .yieldRelease _ | .sleepClearChan _ | .forkret | .exitDead => true
  | _ => false

def YieldsUnlocked (p : Fin n) : Pc n → Prop
  | .yieldAcquire ret | .yieldSet ret | .yieldSwitch ret | .yieldRelease ret =>
    heldProc p ret = none ∧ heldLocks ret = [] ∧ YieldsUnlocked p ret
  | _ => True

@[simp]
theorem heldProc_wakeReturn (p : Fin n) (after : WakeReturn) :
    heldProc p (wakeReturn after : Pc n) = none := by
  cases after <;> rfl

@[simp]
theorem heldLocks_wakeReturn (after : WakeReturn) :
    heldLocks (wakeReturn after : Pc n) = heldReturn after := by
  cases after <;> rfl

@[simp]
theorem yieldsUnlocked_wakeReturn (p : Fin n) (after : WakeReturn) :
    YieldsUnlocked p (wakeReturn after : Pc n) := by
  cases after <;> trivial

@[simp]
theorem heldProc_sleepReturn (p : Fin n) (call : SleepCall n) :
    heldProc p (sleepReturn call) = none := by
  unfold sleepReturn
  split <;> rfl

theorem heldLocks_sleepReturn (call : SleepCall n) (hwait : call.inWait = true → call.lk = .wait) :
    heldLocks (sleepReturn call) = [call.lk] := by
  unfold sleepReturn
  split
  · rename_i hin
    rw [hwait hin]
    rfl
  · rfl

@[simp]
theorem yieldsUnlocked_sleepReturn (p : Fin n) (call : SleepCall n) :
    YieldsUnlocked p (sleepReturn call) := by
  unfold sleepReturn
  split <;> trivial

theorem parked_held {p : Fin n} {pc : Pc n} (hparked : parked pc = true) :
    heldProc p pc = some p ∧ heldLocks pc = [] := by
  cases pc <;> first | exact ⟨rfl, rfl⟩ | cases hparked

/-! ## Decoding -/

/-- The operations of the kernel thread of `p` at a position. -/
def Executes (initproc : Fin n) (m : Machine n C) (c : C) (p : Fin n)
    (pc : Pc n) (instr : Instr n) : Prop :=
  (∃ good, procInstr initproc m c p good pc = some (.ok instr)) ∨ (interruptible p pc = true ∧
      instr = .jump (.process p (.yieldAcquire pc))) ∨
    ∃ held choice, pc = .run held ∧ call initproc m p held choice = some (.ok instr)

theorem decode_ok {choice : Choice} (hdecode : decode initproc m c choice = some (.ok instr)) :
    (∃ pc, (m.cpu c).thread = .scheduler pc ∧ instr = schedInstr m pc) ∨
      ∃ p pc, (m.cpu c).thread = .process p pc ∧ Executes initproc m c p pc instr := by
  unfold decode at hdecode
  split at hdecode
  case h_1 pc hthr =>
    simp only [some.injEq, Except.ok.injEq] at hdecode
    exact .inl ⟨pc, hthr, hdecode.symm⟩
  case h_2 => cases hdecode
  case h_3 p pc hthr => exact .inr ⟨p, pc, hthr, .inl ⟨true, hdecode⟩⟩
  case h_4 p pc hthr => exact .inr ⟨p, pc, hthr, .inl ⟨false, hdecode⟩⟩
  case h_5 p pc hthr =>
    split at hdecode
    case isTrue hintr =>
      simp only [some.injEq, Except.ok.injEq] at hdecode
      exact .inr ⟨p, pc, hthr, .inr (.inl ⟨hintr, hdecode.symm⟩)⟩
    case isFalse => cases hdecode
  case h_6 p held hthr _ _ _ => exact .inr ⟨p, .run held, hthr, .inr (.inr ⟨held, _, rfl, hdecode⟩)⟩
  case h_7 => cases hdecode

theorem exec_ok {action : C × Choice} (hexec : exec initproc m action = some (.ok after)) :
    ∃ instr, perform m action.1 instr = some after ∧
      ((∃ pc, (m.cpu action.1).thread = .scheduler pc ∧ instr = schedInstr m pc) ∨
        ∃ p pc, (m.cpu action.1).thread = .process p pc ∧
          Executes initproc m action.1 p pc instr) := by
  unfold exec at hexec
  split at hexec
  case h_1 => cases hexec
  case h_2 => cases hexec
  case h_3 instr hdecode =>
    simp only [map_eq_some_iff, Except.ok.injEq] at hexec
    obtain ⟨_, hperf, rfl⟩ := hexec
    exact ⟨instr, hperf, decode_ok hdecode⟩

/-! ## What the operations do to the locks -/

def Legal (t : Thread n) : Instr n → Prop
  | .jump next | .newSleep next | .setCpuProc _ next =>
    threadProc next = threadProc t ∧ threadLocks next = threadLocks t
  | .acquireProc q next =>
    threadProc t = none ∧ threadProc next = some q ∧ threadLocks next = threadLocks t
  | .releaseProc q next =>
    threadProc t = some q ∧ threadProc next = none ∧ threadLocks next = threadLocks t
  | .acquireLock lk next =>
    threadProc next = threadProc t ∧
      ∀ other, other ∈ threadLocks next ↔ other = lk ∨ other ∈ threadLocks t
  | .releaseLock lk next =>
    threadProc next = threadProc t ∧ lk ∈ threadLocks t ∧
      ∀ other, other ∈ threadLocks next ↔ other ≠ lk ∧ other ∈ threadLocks t
  | .sleepRelease call next =>
    threadProc next = threadProc t ∧ threadLocks t = [call.lk] ∧ threadLocks next = []
  | .write q _ next | .allocate q next | .die q _ next | .reap _ q next =>
    threadProc t = some q ∧ threadProc next = some q ∧ threadLocks next = threadLocks t
  | .setParent _ _ next =>
    Lock.wait ∈ threadLocks t ∧ threadProc next = threadProc t ∧ threadLocks next = threadLocks t
  | .toScheduler p resume =>
    (∃ pc, t = .process p pc) ∧ threadProc t = some p ∧ threadLocks t = [] ∧ parked resume = true
  | .toProcess p resume => t = .scheduler (.switch p) ∧ resume = .clearProc p

theorem sched_ok {resume : Pc n}
    (hsched : sched m c p resume = .ok instr) : instr = .toScheduler p resume := by
  unfold sched at hsched
  split at hsched
  · cases hsched
  · split at hsched
    · cases hsched
    · cases hsched
      rfl

def SleepsIn (p : Fin n) : Pc n → Prop
  | .yieldAcquire ret | .yieldSet ret | .yieldSwitch ret | .yieldRelease ret => SleepsIn p ret
  | .sleepAcquire k | .sleepReleaseLk k | .sleepSetChan k | .sleepSetState k
  | .sleepSwitch k | .sleepClearChan k | .sleepRelease k | .sleepReacquire k =>
    k.inWait = true → k.chan = .proc p ∧ k.lk = .wait
  | _ => True

omit [DecidableEq C] in
theorem schedInstr_legal (m : Machine n C) (pc : SchedPc n) :
    Legal (.scheduler pc) (schedInstr m pc) := by
  fun_cases schedInstr m pc <;>
    simp [Legal, threadProc, threadLocks, schedHeld]

omit [DecidableEq C] in
theorem interruptible_free (hintr : interruptible p pc = true) :
    heldProc p pc = none ∧ heldLocks pc = [] := by
  unfold interruptible at hintr
  split at hintr
  · cases hintr
  · simpa using hintr

theorem executes_legal (hyield : YieldsUnlocked p pc)
    (hsleep : SleepsIn p pc) (hexecutes : Executes initproc m c p pc instr) :
    Legal (.process p pc) instr := by
  rcases hexecutes with ⟨good, hinstr⟩ | ⟨hintr, rfl⟩ | ⟨held, choice, rfl, hcall⟩
  · revert hinstr
    fun_cases procInstr initproc m c p good pc <;> intro hinstr
    all_goals try simp only [some.injEq, Except.ok.injEq, reduceCtorEq] at hinstr
    all_goals try have hinstr := sched_ok hinstr
    all_goals try subst hinstr
    -- `sleepReacquire`
    case case13 k =>
      have hlocks := heldLocks_sleepReturn k fun hin => (hsleep hin).2
      simp [Legal, threadProc, threadLocks, hlocks]
      simp [heldProc, heldLocks]
    all_goals try exact ⟨rfl, rfl⟩
    all_goals simp only [Legal, threadProc, threadLocks, heldProc_wakeReturn, heldLocks_wakeReturn]
    all_goals simp_all [heldProc, heldLocks, parked, YieldsUnlocked, heldReturn]
  · have hfree := interruptible_free hintr
    exact ⟨hfree.1.symm, hfree.2.symm⟩
  · revert hcall
    fun_cases call initproc m p held choice <;> intro hcall
    all_goals try simp only [some.injEq, Except.ok.injEq, reduceCtorEq] at hcall
    all_goals try subst hcall
    all_goals try exact ⟨rfl, rfl⟩
    all_goals simp_all [Legal, threadProc, threadLocks, heldProc, heldLocks, and_comm]

/-! ## The lock table -/

def nextThread (m : Machine n C) (c : C) : Instr n → Thread n
  | .jump next | .newSleep next | .setCpuProc _ next | .acquireProc _ next
  | .releaseProc _ next | .acquireLock _ next | .releaseLock _ next
  | .sleepRelease _ next | .write _ _ next | .allocate _ next | .die _ _ next
  | .reap _ _ next | .setParent _ _ next => next
  | .toScheduler _ _ => .scheduler (m.cpu c).context
  | .toProcess p _ => .process p (m.proc p).context

theorem perform_thread (hperf : perform m c instr = some after) :
    (after.cpu c).thread = nextThread m c instr := by
  cases instr <;> simp only [perform, ite_none_right_eq_some, some.injEq] at hperf
  all_goals obtain ⟨_, rfl⟩ := hperf
  all_goals simp [goto, nextThread]

theorem perform_cpu_other {other : C}
    (hperf : perform m c instr = some after) (ho : other ≠ c) : after.cpu other = m.cpu other := by
  cases instr <;> simp only [perform, ite_none_right_eq_some, some.injEq] at hperf
  all_goals obtain ⟨_, rfl⟩ := hperf
  all_goals simp [goto, setProc, ho]

/-- The lock words say what the positions of the threads say. -/
structure Locked (m : Machine n C) : Prop where
  proc : Agrees m.plock fun c q => threadProc (m.cpu c).thread = some q
  other : Agrees m.lock fun c lk => lk ∈ threadLocks (m.cpu c).thread

section
variable {m after : Machine n C} {c : C}

omit [DecidableEq C] in
theorem Locked.keepProc (hlock : Locked m) (hothers : ∀ other, other ≠ c →
      (after.cpu other).thread = (m.cpu other).thread)
    (hsame : threadProc (after.cpu c).thread = threadProc (m.cpu c).thread) :
    Agrees m.plock fun c q => threadProc (after.cpu c).thread = some q :=
  hlock.proc.keep c (fun q => by rw [hsame]) fun other ho q => by rw [hothers other ho]

omit [DecidableEq C] in
theorem Locked.keepOther (hlock : Locked m) (hothers : ∀ other, other ≠ c →
      (after.cpu other).thread = (m.cpu other).thread)
    (hsame : threadLocks (after.cpu c).thread = threadLocks (m.cpu c).thread) :
    Agrees m.lock fun c lk => lk ∈ threadLocks (after.cpu c).thread :=
  hlock.other.keep c (fun lk => by rw [hsame]) fun other ho lk => by rw [hothers other ho]

/-- Every operation keeps the lock words right.  A `swtch` keeps them because
the thread it resumes was left holding just the lock of the process. -/
theorem Locked.perform (hlocked : Locked m) (hlegal : Legal (m.cpu c).thread instr)
    (hscheduler : ∀ p resume, instr = .toScheduler p resume → schedHeld (m.cpu c).context = some p)
    (hprocess : ∀ p resume, instr = .toProcess p resume → parked (m.proc p).context = true)
    (hperf : perform m c instr = some after) : Locked after := by
  have hothers : ∀ other, other ≠ c → (after.cpu other).thread =
      (m.cpu other).thread := fun other ho => by
    rw [perform_cpu_other hperf ho]
  have hthr := perform_thread hperf
  cases instr with
  | acquireProc q next =>
    obtain ⟨hnone, hnext, hlocks⟩ := hlegal
    simp only [Scheduling.perform, ite_none_right_eq_some, some.injEq] at hperf
    obtain ⟨hfree, hafter⟩ := hperf
    refine ⟨?_, ?_⟩
    · have hplock : after.plock = Function.update m.plock q (some c) := by
        rw [← hafter]
        rfl
      rw [hplock]
      refine hlocked.proc.acquire hfree (fun other => ?_)
        fun other ho key => by rw [hothers other ho]
      rw [hthr, hnone, show nextThread m c (.acquireProc q next) = next from rfl, hnext, some.injEq]
      simp [eq_comm]
    · have hlock : after.lock = m.lock := by
        rw [← hafter]
        rfl
      rw [hlock]
      exact hlocked.keepOther hothers (by rw [hthr]; exact hlocks)
  | releaseProc q next =>
    obtain ⟨hheld, hnext, hlocks⟩ := hlegal
    simp only [Scheduling.perform, some.injEq] at hperf
    subst hperf
    refine ⟨?_, hlocked.keepOther hothers (by rw [hthr]; exact hlocks)⟩
    refine hlocked.proc.release hheld (fun other => ?_) fun other ho key => by rw [hothers other ho]
    rw [hthr, hheld, show nextThread m c (.releaseProc q next) = next from rfl, hnext, some.injEq]
    simp [eq_comm]
  | acquireLock lk next =>
    obtain ⟨hproc, hnext⟩ := hlegal
    simp only [Scheduling.perform, ite_none_right_eq_some, some.injEq] at hperf
    obtain ⟨hfree, hafter⟩ := hperf
    refine ⟨?_, ?_⟩
    · have hplock : after.plock = m.plock := by
        rw [← hafter]
        rfl
      rw [hplock]
      exact hlocked.keepProc hothers (by rw [hthr]; exact hproc)
    · have hlock : after.lock = Function.update m.lock lk (some c) := by
        rw [← hafter]
        rfl
      rw [hlock]
      refine hlocked.other.acquire hfree (fun other => ?_)
        fun other ho key => by rw [hothers other ho]
      rw [hthr]
      exact hnext other
  | releaseLock lk next =>
    obtain ⟨hproc, hheld, hnext⟩ := hlegal
    simp only [Scheduling.perform, some.injEq] at hperf
    subst hperf
    refine ⟨hlocked.keepProc hothers (by rw [hthr]; exact hproc), ?_⟩
    refine hlocked.other.release hheld (fun other => ?_)
      fun other ho key => by rw [hothers other ho]
    rw [hthr]
    exact hnext other
  | sleepRelease call next =>
    obtain ⟨hproc, hheld, hnext⟩ := hlegal
    simp only [Scheduling.perform, some.injEq] at hperf
    subst hperf
    refine ⟨hlocked.keepProc hothers (by rw [hthr]; exact hproc), ?_⟩
    refine hlocked.other.release (by rw [hheld]; exact mem_singleton_self _)
      (fun other => ?_) fun other ho key => by rw [hothers other ho]
    rw [hthr, hheld, show nextThread m c (.sleepRelease call next) = next from rfl, hnext]
    simp
  | toScheduler p resume =>
    obtain ⟨_, hproc, hlocks, _⟩ := hlegal
    have hctx := hscheduler p resume rfl
    simp only [Scheduling.perform, some.injEq] at hperf
    subst hperf
    refine ⟨hlocked.keepProc hothers ?_, hlocked.keepOther hothers ?_⟩
    · rw [hthr, hproc]
      exact hctx
    · rw [hthr, hlocks]
      rfl
  | toProcess p resume =>
    obtain ⟨hswitch, _⟩ := hlegal
    have hheld := @parked_held n p _ (hprocess p resume rfl)
    simp only [Scheduling.perform, some.injEq] at hperf
    subst hperf
    refine ⟨hlocked.keepProc hothers ?_, hlocked.keepOther hothers ?_⟩
    · rw [hthr, hswitch]
      exact hheld.1
    · rw [hthr, hswitch]
      exact hheld.2
  | jump next | newSleep next | setCpuProc proc next =>
    simp only [Scheduling.perform, some.injEq] at hperf
    subst hperf
    exact ⟨hlocked.keepProc hothers (by rw [hthr]; exact hlegal.1),
      hlocked.keepOther hothers (by rw [hthr]; exact hlegal.2)⟩
  | setParent q parent next =>
    simp only [Scheduling.perform, some.injEq] at hperf
    subst hperf
    exact ⟨hlocked.keepProc hothers (by rw [hthr]; exact hlegal.2.1),
      hlocked.keepOther hothers (by rw [hthr]; exact hlegal.2.2)⟩
  | write q value next | allocate q next | die q status next | reap p q next =>
    obtain ⟨hheld, hnext, hlocks⟩ := hlegal
    simp only [Scheduling.perform, some.injEq] at hperf
    subst hperf
    exact ⟨hlocked.keepProc hothers (by rw [hthr, hheld]; exact hnext),
      hlocked.keepOther hothers (by rw [hthr]; exact hlocks)⟩

end

end Xv6.SchedulingLocks
