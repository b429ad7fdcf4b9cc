import Xv6.Proc.WaitSleep

/-!
# `exit` and `wait`

The parent of a process is protected by `wait_lock`.  `exit` hands the children to
`init`, wakes the parent up and only then becomes a zombie, all under `wait_lock`;
`wait` looks for zombies and goes to sleep under the same lock.
-/

namespace Xv6.ExitWait

open Interleaving LockTable Scheduling SchedulingLocks Nat Option RunningProcess SchedulingSteps
open SleepWakeup WaitSleep

variable {n : ℕ} {C : Type} [DecidableEq C]
variable {index : ℕ} {q r : Fin n} {w : WakeCall n} {status : ℤ}

/-! ## Families -/

/-- A process that has been created and has not exited. -/
def Alive (state : ProcState) : Prop := state = .sleeping ∨ state = .runnable ∨ state = .running

def Childless (m : Machine n C) (p : Fin n) (bound : ℕ) : Prop :=
  ∀ q : Fin n, q < bound → (m.proc q).parent ≠ some p

def NoZombie (m : Machine n C) (p : Fin n) (bound : ℕ) : Prop :=
  ∀ q : Fin n, q < bound → (m.proc q).parent = some p → (m.proc q).state ≠ .zombie

def HasChild (m : Machine n C) (p : Fin n) : Prop := ∃ q, (m.proc q).parent = some p

def KinWake (initproc : Fin n) (m : Machine n C) (p : Fin n) (w : WakeCall n) :
    Prop :=
  match w.after with
  | .run _ => True
  | .reparent _ next => p ≠ initproc ∧ w.chan = some (.proc initproc) ∧ Childless m p next
  | .exitOwn _ => p ≠ initproc ∧ w.chan = (m.proc p).parent.map .proc ∧ Childless m p n

/-- What is known about the family of `p` at a position. -/
def Kin (initproc : Fin n) (m : Machine n C) (p : Fin n) : Pc n → Prop
  | .yieldAcquire ret | .yieldSet ret | .yieldSwitch ret | .yieldRelease ret => Kin initproc m p ret
  | .forkBuild np | .forkRelease np | .forkAcquireWait np | .forkSetParent np =>
    (m.proc np).parent = none
  | .forkReleaseWait np | .forkAcquire np | .forkSetState np => (m.proc np).parent ≠ none
  | .exitAcquireWait _ => p ≠ initproc
  | .reparent _ index => p ≠ initproc ∧ Childless m p index
  | .wakeNext w _ | .wakeTest w _ | .wakeRelease w _ => KinWake initproc m p w
  | .exitWakeParent _ => p ≠ initproc ∧ Childless m p n
  | .exitAcquire _ | .exitSetState _ =>
    p ≠ initproc ∧ Childless m p n ∧ ∀ parent, (m.proc p).parent = some parent → Awake m parent
  | .waitNext havekids index => NoZombie m p index ∧ (havekids = true → HasChild m p)
  | .waitTest q => (m.proc q).parent = some p ∧ NoZombie m p q
  | .waitSkip q => (m.proc q).parent = some p ∧ NoZombie m p (q + 1)
  | .sleepAcquire k | .sleepReleaseLk k => k.inWait = true → NoZombie m p n ∧ HasChild m p
  | .sleepSetChan k | .sleepSetState k | .sleepSwitch k | .sleepClearChan k =>
    k.inWait = true → HasChild m p
  | _ => True

section
variable {initproc : Fin n} {m after : Machine n C} {c : C} {p : Fin n}
  {pc next : Pc n} {instr : Instr n}

omit [DecidableEq C] in
theorem Childless.succ (hchildless : Childless m p index)
    (hi : index < n) (hpar : (m.proc ⟨index, hi⟩).parent ≠ some p) : Childless m p (index + 1) := by
  intro q hq
  by_cases hlast : q.val = index
  · subst hlast
    exact hpar
  · exact hchildless q (by omega)

omit [DecidableEq C] in
theorem Childless.all (hchildless : Childless m p index) (hi : ¬ index < n) : Childless m p n :=
  fun q hq => hchildless q (by omega)

omit [DecidableEq C] in
theorem NoZombie.succ (hnone : NoZombie m p index)
    (hi : index < n) (hstate : (m.proc ⟨index, hi⟩).parent = some p →
      (m.proc ⟨index, hi⟩).state ≠ .zombie) : NoZombie m p (index + 1) := by
  intro q hq
  by_cases hlast : q.val = index
  · subst hlast
    exact hstate
  · exact hnone q (by omega)

omit [DecidableEq C] in
theorem NoZombie.all (hnone : NoZombie m p index) (hi : ¬ index < n) : NoZombie m p n :=
  fun q hq => hnone q (by omega)

/-- An operation that changes no parent and makes no zombie. -/
def Plain (m : Machine n C) : Instr n → Prop
  | .setParent _ _ _ | .die _ _ _ | .reap _ _ _ => False
  | .write q value _ => value.parent = (m.proc q).parent ∧
      (value.state = .zombie → (m.proc q).state = .zombie)
  | _ => True

theorem perform_plain (hplain : Plain m instr)
    (hperf : perform m c instr = some after) (q : Fin n) :
    (after.proc q).parent = (m.proc q).parent ∧
      ((after.proc q).state = .zombie → (m.proc q).state = .zombie) := by
  cases instr <;> simp only [perform, ite_none_right_eq_some, some.injEq] at hperf
  all_goals obtain ⟨_, rfl⟩ := hperf
  case setParent => exact hplain.elim
  case die => exact hplain.elim
  case reap => exact hplain.elim
  case write r value next =>
    by_cases hq : q = r
    · subst hq
      simpa [goto, setProc, Plain] using hplain
    · simp [goto, setProc, hq]
  case allocate r next => by_cases hq : q = r <;> simp [goto, setProc, hq]
  case toScheduler r resume => by_cases hq : q = r <;> simp [goto, setProc, hq]
  all_goals exact ⟨rfl, id⟩

/-- How the knowledge of a process grows with its own operations.  Two of them
change a parent. -/
theorem executes_kin (hkin : Kin initproc m p pc)
    (horphan : ∀ q, (m.proc q).state = .unused → (m.proc q).parent = none)
    (hawake : ∀ w index status, pc = .wakeNext w index → ¬ index < n → w.after = .exitOwn status →
      ∀ parent, (m.proc p).parent = some parent → Awake m parent)
    (hexecutes : Executes initproc m c p pc instr) (htarget : target instr = some next) :
    (Kin initproc m p next ∧ Plain m instr) ∨ (∀ other : Machine n C, Kin initproc other p next) ∨
      (∃ np cont, instr = .setParent np p cont ∧ next = .forkReleaseWait np) ∨
      ∃ (status : ℤ) (q : Fin n) (cont : Thread n), pc = .reparent status q ∧
        instr = .setParent q initproc cont ∧ next = .wakeNext
          ⟨some (.proc initproc), .reparent status (q + 1)⟩ 0 := by
  rcases hexecutes with ⟨good, hinstr⟩ | ⟨hintr, rfl⟩ | ⟨held, choice, rfl, hcall⟩
  · revert hinstr
    fun_cases procInstr initproc m c p good pc <;> intro hinstr
    all_goals try simp only [some.injEq, Except.ok.injEq, reduceCtorEq] at hinstr
    all_goals try have hinstr := sched_ok hinstr
    all_goals try subst hinstr
    all_goals simp only [target, some.injEq] at htarget
    all_goals subst htarget
    all_goals try exact .inr (.inl fun _ => trivial)
    all_goals try exact .inl ⟨hkin, trivial⟩
    all_goals try exact .inl ⟨hkin, rfl, by simp⟩
    -- `sleepReleaseLk`
    case case7 k => exact .inl ⟨fun hwait => (hkin hwait).2, trivial⟩
    -- `sleepReacquire`
    case case13 k =>
      unfold sleepReturn
      split
      · exact .inl ⟨⟨fun q hq => absurd hq (not_lt_zero _), fun h => by cases h⟩, trivial⟩
      · exact .inr (.inl fun _ => trivial)
    -- `wakeNext`
    case case16 w index hi =>
      cases hafter : w.after with
      | run held => exact .inr (.inl fun _ => trivial)
      | reparent status start =>
        simp only [Kin, KinWake, hafter] at hkin
        exact .inl ⟨⟨hkin.1, hkin.2.2⟩, trivial⟩
      | exitOwn status =>
        simp only [Kin, KinWake, hafter] at hkin
        exact .inl ⟨⟨hkin.1, hkin.2.2, hawake w index status rfl hi hafter⟩, trivial⟩
    -- `allocTest`
    case case28 q hunused => exact .inl ⟨horphan q hunused, trivial⟩
    -- `forkSetParent`
    case case36 np => exact .inr (.inr (.inl ⟨np, _, rfl, rfl⟩))
    -- `exitAcquireWait`
    case case42 status => exact .inl ⟨⟨hkin, fun q hq => absurd hq (not_lt_zero _)⟩, trivial⟩
    -- `reparent`
    case case43 status index hi hpar =>
      exact .inr (.inr (.inr ⟨status, ⟨index, hi⟩, _, rfl, rfl, rfl⟩))
    case case44 status index hi hpar => exact .inl ⟨⟨hkin.1, hkin.2.succ hi hpar⟩, trivial⟩
    case case45 status index hi => exact .inl ⟨⟨hkin.1, hkin.2.all hi⟩, trivial⟩
    -- `exitWakeParent`
    case case46 status => exact .inl ⟨⟨hkin.1, rfl, hkin.2⟩, trivial⟩
    -- `waitAcquire`
    case case52 =>
      exact .inl ⟨⟨fun q hq => absurd hq (not_lt_zero _), fun h => by cases h⟩, trivial⟩
    -- `waitNext`
    case case53 havekids index hi hpar => exact .inl ⟨⟨hpar, hkin.1⟩, trivial⟩
    case case54 havekids index hi hpar =>
      exact .inl ⟨⟨hkin.1.succ hi fun hchild => absurd hchild hpar, hkin.2⟩, trivial⟩
    case case56 havekids index hi hstay =>
      push Not at hstay
      exact .inl ⟨fun _ => ⟨hkin.1.all hi, hkin.2 (by simpa using hstay.1)⟩, trivial⟩
    -- `waitTest`
    case case59 np hstate => exact .inl ⟨⟨hkin.1, hkin.2.succ np.isLt fun _ => hstate⟩, trivial⟩
    -- `waitSkip`
    case case60 np => exact .inl ⟨⟨hkin.2, fun _ => ⟨np, hkin.1⟩⟩, trivial⟩
  · cases htarget
    exact .inl ⟨hkin, trivial⟩
  · revert hcall
    fun_cases call initproc m p held choice <;> intro hcall
    all_goals try simp only [some.injEq, Except.ok.injEq, reduceCtorEq] at hcall
    all_goals try subst hcall
    all_goals simp only [target, some.injEq] at htarget
    all_goals subst htarget
    all_goals try exact .inr (.inl fun _ => trivial)
    -- `sleep`
    case case5 => exact .inr (.inl fun _ hwait => by cases hwait)
    -- `exit`
    case case12 status hheld hinit => exact .inl ⟨hinit, trivial⟩

omit [DecidableEq C] in
/-- The knowledge of a process is stable when its new child and its having a
child are, and, while it holds `wait_lock`, all parents, zombies and sleepers. -/
theorem Kin.mono (hkin : Kin initproc m p pc) (hyields : YieldsUnlocked p pc)
    (hsleeps : SleepsIn p pc) (hfork : ∀ np, forking pc = some np →
      ((after.proc np).parent = none ↔ (m.proc np).parent = none))
    (hchild : HasChild m p → HasChild after p)
    (hlock : Lock.wait ∈ heldLocks pc → (∀ q, (after.proc q).parent = (m.proc q).parent) ∧
      (∀ q, (after.proc q).state = .zombie → (m.proc q).state = .zombie) ∧
      ∀ q, Awake m q → Awake after q) : Kin initproc after p pc := by
  have hchildless : (∀ q, (after.proc q).parent = (m.proc q).parent) →
      ∀ bound, Childless m p bound → Childless after p bound :=
    fun hpar bound hnone q hq => by rw [hpar q]; exact hnone q hq
  have hnoZombie : (∀ q, (after.proc q).parent = (m.proc q).parent) →
      (∀ q, (after.proc q).state = .zombie → (m.proc q).state = .zombie) →
      ∀ bound, NoZombie m p bound → NoZombie after p bound :=
    fun hpar hzombie bound hnone q hq hchild hstate =>
      hnone q hq (by rw [← hpar q]; exact hchild) (hzombie q hstate)
  have hwake : ∀ w, (Lock.wait ∈ heldReturn w.after →
      ∀ q, (after.proc q).parent = (m.proc q).parent) →
      KinWake initproc m p w → KinWake initproc after p w := by
    intro w hpar hw
    unfold KinWake at hw ⊢
    split at hw
    case h_1 => trivial
    case h_2 hafter =>
      have hpar := hpar (by simp [hafter, heldReturn])
      exact ⟨hw.1, hw.2.1, hchildless hpar _ hw.2.2⟩
    case h_3 hafter =>
      have hpar := hpar (by simp [hafter, heldReturn])
      exact ⟨hw.1, by rw [hpar p]; exact hw.2.1, hchildless hpar _ hw.2.2⟩
  induction pc with
  | yieldAcquire ret ih | yieldSet ret ih | yieldSwitch ret ih | yieldRelease ret ih =>
    exact ih hkin hyields.2.2 hsleeps hfork fun h => by simp [hyields.2.1] at h
  | forkBuild np | forkRelease np | forkAcquireWait np
  | forkSetParent np => exact (hfork np rfl).mpr hkin
  | forkReleaseWait np | forkAcquire np
  | forkSetState np => exact fun hnone => hkin ((hfork np rfl).mp hnone)
  | exitAcquireWait status => exact hkin
  | reparent status index | exitWakeParent status =>
    obtain ⟨hpar, _, _⟩ := hlock (by simp [heldLocks])
    exact ⟨hkin.1, hchildless hpar _ hkin.2⟩
  | wakeNext w index | wakeTest w q
  | wakeRelease w q => exact hwake w (fun h => (hlock h).1) hkin
  | exitAcquire status | exitSetState status =>
    obtain ⟨hpar, _, hawake⟩ := hlock (by simp [heldLocks])
    refine ⟨hkin.1, hchildless hpar _ hkin.2.1, fun parent hp => ?_⟩
    exact hawake parent (hkin.2.2 parent (by rw [← hpar p]; exact hp))
  | waitNext havekids index =>
    obtain ⟨hpar, hzombie, _⟩ := hlock (by simp [heldLocks])
    exact ⟨hnoZombie hpar hzombie _ hkin.1, fun h => hchild (hkin.2 h)⟩
  | waitTest q | waitSkip q =>
    obtain ⟨hpar, hzombie, _⟩ := hlock (by simp [heldLocks])
    exact ⟨by rw [hpar q]; exact hkin.1, hnoZombie hpar hzombie _ hkin.2⟩
  | sleepAcquire k | sleepReleaseLk k =>
    intro hwait
    obtain ⟨hpar, hzombie, _⟩ := hlock (by
      simp [heldLocks, (hsleeps hwait).2])
    exact ⟨hnoZombie hpar hzombie _ (hkin hwait).1, hchild (hkin hwait).2⟩
  | sleepSetChan k | sleepSetState k | sleepSwitch k
  | sleepClearChan k => exact fun hwait => hchild (hkin hwait)
  | _ => trivial

/-! ## Steps of one process seen by the others -/

/-- A scheduled wakeup for `init` that has not reached `init` yet. -/
def Notifying (initproc : Fin n) (m : Machine n C) : Prop :=
  ∃ c p pc w index status start, (m.cpu c).thread = .process p pc ∧
    progress pc = some (w, index) ∧ w.after = .reparent status start ∧
    index ≤ initproc

/-- The families of the processes. -/
structure Family (initproc : Fin n) (m : Machine n C) : Prop where
  parentAlive : ∀ q parent, (m.proc q).parent = some parent → Alive (m.proc parent).state
  initAlive : Alive (m.proc initproc).state
  orphan : ∀ q, (m.proc q).state = .unused → (m.proc q).parent = none
  hasParent : ∀ q, q ≠ initproc → Alive (m.proc q).state ∨ (m.proc q).state = .zombie →
    (m.proc q).parent ≠ none
  kin : ∀ p, Kin initproc m p (m.pos p)
  /-- A process asleep in `wait` has no zombie child, unless a wakeup is on its
  way to `init`. -/
  quiet : ∀ p k q, k.inWait = true → Dozing m p k →
    (m.proc q).parent = some p → (m.proc q).state = .zombie →
    p = initproc ∧ Notifying initproc m

theorem Family.own (hfamily : Family initproc m)
    (hstep : ProcessStep initproc m after c p pc next instr) : Kin initproc m p pc :=
  hstep.pos ▸ hfamily.kin p

theorem parent_kept (hfamily : Family initproc m)
    (hstep : ProcessStep initproc m after c p pc next instr)
    (hfree : Lock.wait ∉ heldLocks pc) (q : Fin n) : (after.proc q).parent = (m.proc q).parent := by
  have hkin := hfamily.own hstep
  have hchange := executes_change hstep.executes hstep.perform q
  generalize after.proc q = value at hchange ⊢
  cases hchange with
  | abandon hpc =>
    rw [hpc] at hkin
    exact hkin.symm
  | adopt hpc | inherits status hpc _ | reap hpc _ => simp [hpc, heldLocks] at hfree
  | _ => rfl

theorem zombie_kept (hstep : ProcessStep initproc m after c p pc next instr)
    (hexit : ∀ status, pc ≠ .exitSetState status) (q : Fin n)
    (hzombie : (after.proc q).state = .zombie) : (m.proc q).state = .zombie := by
  have hchange := executes_change hstep.executes hstep.perform q
  generalize after.proc q = value at hchange hzombie
  cases hchange with
  | kill pid held hpc =>
    by_cases hsleep : (m.proc q).state = .sleeping
    · simp [hsleep] at hzombie
    · simpa [hsleep] using hzombie
  | die status _ hpc => exact absurd hpc (hexit status)
  | same => exact hzombie
  | setChan => exact hzombie
  | clearChan => exact hzombie
  | adopt => exact hzombie
  | inherits => exact hzombie
  | stop => exact hzombie
  | abandon => simp [freed] at hzombie
  | reap => simp [freed] at hzombie
  | _ => simp at hzombie

theorem child_kept (hfamily : Family initproc m)
    (hstep : ProcessStep initproc m after c p pc next instr)
    (hr : r ≠ p) (hpar : (m.proc q).parent = some r) : (after.proc q).parent = some r := by
  have hkin := hfamily.own hstep
  have hchange := executes_change hstep.executes hstep.perform q
  generalize after.proc q = value at hchange ⊢
  cases hchange with
  | abandon hpc | adopt hpc =>
    rw [hpc] at hkin
    exact absurd (hkin.symm.trans hpar) (by simp)
  | inherits status hpc hchild => exact absurd (Option.some.inj (hpar.symm.trans hchild)) hr
  | reap hpc _ =>
    rw [hpc] at hkin
    exact absurd (Option.some.inj (hpar.symm.trans hkin.1)) hr
  | _ => exact hpar

theorem forked_kept (hstep : ProcessStep initproc m after c p pc next instr) {np : Fin n}
    (hr : r ≠ p) (hforks : forking (m.pos r) = some np) :
    (after.proc np).parent = none ↔ (m.proc np).parent = none := by
  have hused := hstep.placed.forks r np hforks
  have ho : forking pc ≠ some np := fun hpc =>
    hr (hstep.placed.forksOnce r p np hforks (by rw [hstep.pos]; exact hpc))
  have hchange := executes_change hstep.executes hstep.perform np
  generalize after.proc np = value at hchange ⊢
  cases hchange with
  | abandon hpc | adopt hpc => exact absurd (by rw [hpc]; rfl) ho
  | inherits status hpc hchild => simp [hchild]
  | reap hpc hzombie =>
    rw [hused] at hzombie
    cases hzombie
  | _ => exact Iff.rfl

theorem wait_held (hstep : ProcessStep initproc m after c p pc next instr)
    (hr : r ≠ p) (hwait : Lock.wait ∈ heldLocks (m.pos r)) :
    Lock.wait ∉ heldLocks pc := by
  intro hpc
  have hlive : ∃ cpu, Executing m r cpu := by
    by_contra hnone
    push Not at hnone
    have hheld := @parked_held n r _ (hstep.placed.stopped r hnone).2
    rw [hheld.2] at hwait
    cases hwait
  obtain ⟨cpu, rpc, hcpu⟩ := hlive
  have hpos := hstep.placed.pos cpu r rpc hcpu
  have hsame := hstep.locked.other.unique (show Lock.wait ∈ threadLocks (m.cpu cpu).thread by
      rw [hcpu, ← hpos]
      exact hwait)
    (show Lock.wait ∈ threadLocks (m.cpu c).thread by
      rw [hstep.thread]
      exact hpc)
  subst hsame
  rw [hstep.thread] at hcpu
  cases hcpu
  exact hr rfl

theorem Kin.others (hfamily : Family initproc m)
    (hstep : ProcessStep initproc m after c p pc next instr)
    (hr : r ≠ p) : Kin initproc after r (after.pos r) := by
  rcases hstep.others r hr with hkept | ⟨hnew, _⟩
  · rw [hkept]
    refine (hfamily.kin r).mono (hstep.placed.yields r) (hstep.placed.sleeps r)
      (fun np => forked_kept hstep hr) ?_ (fun hwait => ?_)
    · rintro ⟨q, hq⟩
      exact ⟨q, child_kept hfamily hstep hr hq⟩
    · have hfree := wait_held hstep hr hwait
      refine ⟨parent_kept hfamily hstep hfree, zombie_kept hstep ?_,
        fun q => Awake.process hstep hfree⟩
      intro status hpc
      simp [hpc, heldLocks] at hfree
  · rw [hnew]
    trivial

theorem parent_awake (hfamily : Family initproc m) (hscanned : Scanned m) (hdrowsy : Drowsy m)
    (hstep : ProcessStep initproc m after c p pc next instr)
    (hpc : pc = .wakeNext w index) (hi : ¬ index < n)
    (hafter : w.after = .exitOwn status) (parent : Fin n)
    (hpar : (m.proc p).parent = some parent) : Awake m parent := by
  have hkin := hfamily.own hstep
  rw [hpc] at hkin
  simp only [Kin, KinWake, hafter, hpar, map_some] at hkin
  have hlock : m.lock .wait = some c := by
    refine (hstep.locked.other c .wait).mpr ?_
    show Lock.wait ∈ threadLocks (m.cpu c).thread
    rw [hstep.thread, hpc]
    simp [threadLocks, heldLocks, hafter, heldReturn]
  refine awake_of_gone hstep.placed hdrowsy hlock fun id hid => ?_
  rw [← hkin.2.1]
  exact hscanned c p pc w index hstep.thread (by rw [hpc]; rfl) .wait
    (by simp [hafter, heldReturn]) id hid parent (by omega)

theorem Kin.self (hfamily : Family initproc m) (hscanned : Scanned m)
    (hdrowsy : Drowsy m) (hplace : Placed after)
    (hstep : ProcessStep initproc m after c p pc next instr) : Kin initproc after p next := by
  have hkin := hfamily.own hstep
  have hyields := hplace.yields p
  have hsleeps := hplace.sleeps p
  rw [hstep.self] at hyields hsleeps
  have hperf := hstep.perform
  rcases executes_kin hkin hfamily.orphan (fun w index status hpc hi hafter =>
    parent_awake hfamily hscanned hdrowsy hstep hpc hi hafter)
    hstep.executes hstep.target with
    ⟨hnext, hplain⟩ | hany | ⟨np, cont, rfl, rfl⟩ | ⟨status, q, cont, hpc, rfl, rfl⟩
  · have hsame := perform_plain hplain hperf
    refine hnext.mono hyields hsleeps (fun np _ => by rw [(hsame np).1]) ?_ ?_
    · rintro ⟨q, hq⟩
      exact ⟨q, by rw [(hsame q).1]; exact hq⟩
    · intro hwait
      refine ⟨fun q => (hsame q).1, fun q => (hsame q).2, fun q hawake k hin hdozing => ?_⟩
      rcases hdozing.before hstep with hbefore | ⟨_, _, hsleep⟩
      · exact hawake k hin hbefore
      · simp [hsleep, heldLocks] at hwait
  · exact hany after
  · cases hperf
    simp [Kin, goto, setProc]
  · rw [hpc] at hkin
    cases hperf
    refine ⟨hkin.1, rfl, ?_⟩
    intro r hr
    by_cases hrq : r = q
    · simpa [goto, setProc, hrq] using Ne.symm hkin.1
    · have hlt : r.val < q.val := by
        have hne : r.val ≠ q.val := fun hval => hrq (Fin.ext hval)
        omega
      simpa [goto, setProc, hrq] using hkin.2 r hlt

/-! ## Every step -/

theorem alive_kept (hstep : ProcessStep initproc m after c p pc next instr)
    (halive : Alive (m.proc r).state)
    (hexit : ∀ status, r = p → pc ≠ .exitSetState status) : Alive (after.proc r).state := by
  have hchange := executes_change hstep.executes hstep.perform r
  have hforks := hstep.placed.forks p r
  rw [hstep.pos] at hforks
  generalize after.proc r = value at hchange ⊢
  cases hchange with
  | kill pid held hpc =>
    by_cases hsleep : (m.proc r).state = .sleeping
    · simp [hsleep, Alive]
    · simpa [hsleep] using halive
  | allocate _ hunused => simp [Alive, hunused] at halive
  | abandon hpc => simp [Alive, hforks (by rw [hpc]; rfl)] at halive
  | die status hr hpc => exact absurd hpc (hexit status hr)
  | reap _ hzombie => simp [Alive, hzombie] at halive
  | same => exact halive
  | setChan => exact halive
  | clearChan => exact halive
  | adopt => exact halive
  | inherits => exact halive
  | stop => exact halive
  | _ => simp [Alive]

theorem parent_before (hstep : ProcessStep initproc m after c p pc next instr)
    (hpar : (after.proc q).parent = some r) :
    (m.proc q).parent = some r ∨ (r = p ∧ pc = .forkSetParent q) ∨
      (r = initproc ∧ (m.proc q).parent = some p ∧ ∃ status, pc = .reparent status q) := by
  have hchange := executes_change hstep.executes hstep.perform q
  generalize after.proc q = value at hchange hpar
  cases hchange with
  | adopt hpc => exact .inr (.inl ⟨(Option.some.inj hpar).symm, hpc⟩)
  | inherits status hpc hchild =>
    exact .inr (.inr ⟨(Option.some.inj hpar).symm, hchild, status, hpc⟩)
  | abandon => simp [freed] at hpar
  | reap => simp [freed] at hpar
  | _ => exact .inl hpar

theorem executes_reparent (hpar : (m.proc q).parent = some p)
    (hexecutes : Executes initproc m c p (.reparent status q) instr)
    (htarget : target instr = some next) :
    next = .wakeNext ⟨some (.proc initproc), .reparent status (q + 1)⟩ 0 := by
  rcases hexecutes with ⟨good, hinstr⟩ | ⟨hintr, _⟩ | ⟨_, _, hpc, _⟩
  · simp only [procInstr, q.isLt, dite_true, Fin.eta, hpar, if_true,
      some.injEq, Except.ok.injEq] at hinstr
    subst hinstr
    cases htarget
    rfl
  · simp [interruptible, heldLocks] at hintr
  · cases hpc

theorem executes_forward (hprog : progress pc = some (w, index)) (hheld : heldLocks pc ≠ [])
    (hexecutes : Executes initproc m c p pc instr) (htarget : target instr = some next) :
    progress next = some (w, index) ∨ n ≤ index ∨ progress next = some (w, index + 1) ∧
        (index = p ∨ ∃ q : Fin n, pc = .wakeTest w q ∧ index = q) := by
  rcases hexecutes with ⟨good, hinstr⟩ | ⟨hintr, _⟩ | ⟨_, _, rfl, _⟩
  · revert hinstr
    fun_cases procInstr initproc m c p good pc <;> intro hinstr
    all_goals simp only [progress, reduceCtorEq, some.injEq, Prod.mk.injEq] at hprog
    all_goals obtain ⟨rfl, rfl⟩ := hprog
    all_goals simp only [some.injEq, Except.ok.injEq] at hinstr
    all_goals subst hinstr
    all_goals cases htarget
    all_goals simp_all [progress]
  · exact absurd (interruptible_free hintr).2 hheld
  · cases hprog

omit [DecidableEq C] in
theorem Kin.wake (hkin : Kin initproc m p pc)
    (hprog : progress pc = some (w, index)) : KinWake initproc m p w := by
  cases pc <;> cases hprog <;> exact hkin

theorem Notifying.process (hfamily : Family initproc m)
    (hplace : Placed after) (hlocked : Locked after) (hdrowsy : Drowsy after)
    (hstep : ProcessStep initproc m after c p pc next instr)
    (hnotifying : Notifying initproc m) {k : SleepCall n}
    (hwait : k.inWait = true) (hdozing : Dozing after initproc k) : Notifying initproc after := by
  obtain ⟨cpu, x, xpc, w, index, status, start, hthr, hprog, hafter, hi⟩ := hnotifying
  by_cases hc : cpu = c
  · subst hc
    rw [hstep.thread] at hthr
    cases hthr
    have hkin := hfamily.own hstep
    have hwake := hkin.wake hprog
    simp only [KinWake, hafter] at hwake
    have hheld : heldLocks pc = [.wait] := by
      rw [progress_locks hprog, hafter]
      rfl
    -- The CPU stays with the wakeup.
    have hstays : ∀ index, progress next = some (w, index) →
        (after.cpu cpu).thread = .process p next := by
      intro index hnext
      rcases hstep.stays with hstays | hparked
      · exact hstays
      · rw [progress_not_parked hnext] at hparked
        cases hparked
    rcases executes_forward hprog (by simp [hheld]) hstep.executes hstep.target
      with hsame | hdone | ⟨hnext, hself | ⟨q, hpc, hq⟩⟩
    · exact ⟨cpu, p, next, w, index, status, start, hstays _ hsame, hsame, hafter, hi⟩
    · omega
    · have hne : p.val ≠ initproc.val := fun hval => hwake.1 (Fin.ext hval)
      exact ⟨cpu, p, next, w, index + 1, status, start, hstays _ hnext, hnext, hafter, by omega⟩
    · by_cases hinit : q = initproc
      · subst hinit
        have hlock : after.lock .wait = some cpu := by
          refine (hlocked.other cpu .wait).mpr ?_
          show Lock.wait ∈ threadLocks (after.cpu cpu).thread
          rw [hstays _ hnext]
          simp [threadLocks, progress_locks hnext, hafter, heldReturn]
        refine absurd hdozing (awake_of_gone hplace hdrowsy hlock (fun id _ => ?_) k hwait)
        rw [← hwake.2.1]
        exact Gone.wakeTest hstep hpc (entering_of_progress hnext) id
      · have hne : q.val ≠ initproc.val := fun hval => hinit (Fin.ext hval)
        exact ⟨cpu, p, next, w, index + 1, status, start, hstays _ hnext, hnext, hafter, by omega⟩
  · exact ⟨cpu, x, xpc, w, index, status, start,
      by rw [hstep.cpus cpu hc]; exact hthr, hprog, hafter, hi⟩

theorem Family.process (hfamily : Family initproc m) (hscanned : Scanned m)
    (hdrowsy : Drowsy m) (hplace : Placed after) (hlock : Locked after) (hdrowsy' : Drowsy after)
    (hstep : ProcessStep initproc m after c p pc next instr) : Family initproc after := by
  have hkin := hfamily.own hstep
  have hlive := (hstep.placed.live c p pc hstep.thread).1
  refine ⟨?_, ?_, ?_, ?_, ?_, ?_⟩
  · intro q r hpar
    rcases parent_before hstep hpar with hold | ⟨rfl, hpc⟩ | ⟨rfl, _, status, hpc⟩
    · refine alive_kept hstep (hfamily.parentAlive q r hold) fun status hr hpc => ?_
      rw [hpc] at hkin
      exact hkin.2.1 q q.isLt (hr ▸ hold)
    · refine alive_kept hstep ?_ fun status _ => by simp [hpc]
      rw [hlive, hpc]
      simp [Alive, expected]
    · exact alive_kept hstep hfamily.initAlive fun status _ => by simp [hpc]
  · refine alive_kept hstep hfamily.initAlive fun status hr hpc => ?_
    rw [hpc] at hkin
    exact hkin.1 hr.symm
  · intro q hunused
    have horphan := hfamily.orphan q
    have hforks := hstep.placed.forks p q
    rw [hstep.pos] at hforks
    have hchange := executes_change hstep.executes hstep.perform q
    generalize after.proc q = value at hchange hunused ⊢
    cases hchange with
    | kill pid held hpc =>
      by_cases hsleep : (m.proc q).state = .sleeping
      · simp [hsleep] at hunused
      · exact horphan (by simpa [hsleep] using hunused)
    | abandon => rfl
    | reap => rfl
    | adopt hpc => exact absurd hunused (by simp [hforks (by rw [hpc]; rfl)])
    | inherits status hpc hchild => simp [horphan hunused] at hchild
    | same => exact horphan hunused
    | setChan => exact horphan hunused
    | clearChan => exact horphan hunused
    | stop => exact horphan hunused
    | _ => simp at hunused
  · intro q hq hstate
    have hpar := hfamily.hasParent q hq
    have hchange := executes_change hstep.executes hstep.perform q
    generalize after.proc q = value at hchange hstate ⊢
    cases hchange with
    | kill pid held hpc =>
      refine hpar ?_
      by_cases hsleep : (m.proc q).state = .sleeping
      · exact .inl (.inl hsleep)
      · simpa [hsleep] using hstate
    | yield ret hqp hpc | sleep k hqp hpc
    | die status hqp hpc => exact hpar (by simp [hqp, hlive, hpc, expected, Alive])
    | wake w hpc hsleep hchan => exact hpar (.inl (.inl hsleep))
    | allocate => simp [Alive] at hstate
    | abandon | reap => simp [Alive, freed] at hstate
    | adopt => simp
    | inherits => simp
    | ready hpc =>
      rw [hpc] at hkin
      exact hkin
    | same => exact hpar hstate
    | setChan => exact hpar hstate
    | clearChan => exact hpar hstate
    | stop => exact hpar hstate
  · intro r
    by_cases hr : r = p
    · rw [hr, hstep.self]
      exact Kin.self hfamily hscanned hdrowsy hplace hstep
    · exact Kin.others hfamily hstep hr
  · intro r k q hwait hdozing hpar hzombie
    rcases hdozing.before hstep with hbefore | ⟨rfl, hpc, _⟩
    · have hpositions : m.pos r = .sleepSetChan k ∨ m.pos r = .sleepSetState k ∨
          m.pos r = .sleepSwitch k ∨ m.pos r = .sleepClearChan k := by
        rcases hbefore with hpos | hpos | ⟨hpos | hpos, _⟩ <;> simp [hpos]
      rcases parent_before hstep hpar with hold | ⟨rfl, hpc⟩ | ⟨rfl, hchild, status, hpc⟩
      · by_cases hexit : ∃ status, pc = .exitSetState status ∧ q = p
        · obtain ⟨status, hpc, rfl⟩ := hexit
          rw [hpc] at hkin
          exact absurd hbefore (hkin.2.2 r hold k hwait)
        · have hstate : (m.proc q).state = .zombie := by
            have hchange := executes_change hstep.executes hstep.perform q
            by_cases hpc : ∃ status, pc = .exitSetState status
            · obtain ⟨status, hpc⟩ := hpc
              have hqp : q ≠ p := fun hqp => hexit ⟨status, hpc, hqp⟩
              generalize after.proc q = value at hchange hzombie
              cases hchange <;> simp_all
            · exact zombie_kept hstep (fun status h => hpc ⟨status, h⟩) q hzombie
          obtain ⟨hr, hnotifying⟩ := hfamily.quiet r k q hwait hbefore hold hstate
          subst hr
          exact ⟨rfl, hnotifying.process hfamily hplace hlock hdrowsy' hstep hwait hdozing⟩
      · rw [hstep.pos, hpc] at hpositions
        simp at hpositions
      · refine ⟨rfl, ?_⟩
        have hnext := executes_reparent hchild (hpc ▸ hstep.executes) hstep.target
        rcases hstep.stays with hstays | hparked
        · exact ⟨c, p, next, _, 0, status, q + 1, hstays, by rw [hnext]; rfl, rfl, zero_le _⟩
        · rw [hnext] at hparked
          cases hparked
    · -- The process has just looked at all its children.
      rw [hpc] at hkin
      have hstate := zombie_kept hstep (fun status => by simp [hpc]) q hzombie
      rcases parent_before hstep hpar with hold | ⟨_, hpc'⟩ | ⟨_, _, status, hpc'⟩
      · exact absurd hstate ((hkin hwait).1 q q.isLt hold)
      · rw [hpc] at hpc'
        cases hpc'
      · rw [hpc] at hpc'
        cases hpc'

omit [DecidableEq C] in
theorem Family.scheduler (hfamily : Family initproc m) (hplace : Placed m)
    (hstep : SchedulerStep m after c) : Family initproc after := by
  have hpar : ∀ q, (after.proc q).parent = (m.proc q).parent := by
    intro q
    rcases hstep.proc q with hsame | ⟨_, hrun⟩
    · rw [hsame]
    · rw [hrun]
  have hstate : ∀ q, (after.proc q).state = (m.proc q).state ∨
      (m.proc q).state = .runnable ∧ (after.proc q).state = .running := by
    intro q
    rcases hstep.proc q with hsame | ⟨hrunnable, hrun⟩
    · exact .inl (by rw [hsame])
    · exact .inr ⟨hrunnable, by rw [hrun]⟩
  have halive : ∀ q, Alive (m.proc q).state → Alive (after.proc q).state := by
    intro q hq
    rcases hstate q with hsame | ⟨_, hrun⟩
    · rwa [hsame]
    · simp [hrun, Alive]
  have hzombie : ∀ q, (after.proc q).state = .zombie → (m.proc q).state = .zombie := by
    intro q hq
    rcases hstate q with hsame | ⟨_, hrun⟩
    · rwa [hsame] at hq
    · rw [hrun] at hq
      cases hq
  refine ⟨?_, halive _ hfamily.initAlive, ?_, ?_, ?_, ?_⟩
  · intro q r hq
    rw [hpar q] at hq
    exact halive r (hfamily.parentAlive q r hq)
  · intro q hq
    rw [hpar q]
    rcases hstate q with hsame | ⟨_, hrun⟩
    · exact hfamily.orphan q (by rw [← hsame]; exact hq)
    · rw [hrun] at hq
      cases hq
  · intro q hq hlive
    rw [hpar q]
    refine hfamily.hasParent q hq ?_
    rcases hstate q with hsame | ⟨hrunnable, _⟩
    · rwa [hsame] at hlive
    · exact .inl (.inr (.inl hrunnable))
  · intro r
    rw [hstep.pos]
    refine (hfamily.kin r).mono (hplace.yields r) (hplace.sleeps r)
      (fun np _ => by rw [hpar np]) ?_ fun _ => ⟨hpar, hzombie, ?_⟩
    · rintro ⟨q, hq⟩
      exact ⟨q, by rw [hpar q]; exact hq⟩
    · intro q hawake k hwait hdozing
      exact hawake k hwait (hdozing.scheduler hstep)
  · intro r k q hwait hdozing hq hzomb
    rw [hpar q] at hq
    obtain ⟨hr, cpu, x, xpc, w, index, status, start, hthr, hrest⟩ :=
      hfamily.quiet r k q hwait (hdozing.scheduler hstep) hq (hzombie q hzomb)
    exact ⟨hr, cpu, x, xpc, w, index, status, start, hstep.kept cpu x xpc hthr, hrest⟩

end

end Xv6.ExitWait
