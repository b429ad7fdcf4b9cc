import Xv6.Proc.SleepWakeup

/-!
# Asleep in `wait`

What is known about a process between the release of its spinlock in `sleep` and
its wakeup, and what a holder of the spinlock knows about it: once a wakeup on its
channel has passed it, the process is no longer asleep and cannot fall asleep
again before the spinlock is released.
-/

namespace Xv6.WaitSleep

open Interleaving LockTable Scheduling SchedulingLocks List Option RunningProcess SchedulingSteps
open SleepWakeup

variable {n : ℕ} {C : Type} [DecidableEq C]
variable {q : Fin n} {value : Proc n}

/-- The call `k` of `sleep` by `p` has released its spinlock and has not been
woken up. -/
def Dozing (m : Machine n C) (p : Fin n) (k : SleepCall n) : Prop :=
  m.pos p = .sleepSetChan k ∨ m.pos p = .sleepSetState k ∨
    (m.pos p = .sleepSwitch k ∨ m.pos p = .sleepClearChan k) ∧ (m.proc p).state = .sleeping

structure Drowsy (m : Machine n C) : Prop where
  /-- The history has the calls that have released their spinlock. -/
  recorded : ∀ p k, Dozing m p k → k.id ∈ m.released k.lk
  /-- The fields of the process say where it sleeps. -/
  chan : ∀ p k, Dozing m p k → m.pos p = .sleepSetChan k ∨ (m.proc p).chan = some k.chan
  number : ∀ p k, Dozing m p k → (m.proc p).state = .sleeping → (m.proc p).sleepId = k.id
  /-- Nothing is recorded while the spinlock is held. -/
  held : ∀ lk c, m.lock lk = some c → m.seen lk = m.released lk

section
variable {initproc : Fin n} {m after : Machine n C} {c : C} {p : Fin n}
  {pc next : Pc n} {instr : Instr n} {k : SleepCall n}

theorem executes_sleep (hyields : YieldsUnlocked p pc)
    (hexecutes : Executes initproc m c p pc instr) (htarget : target instr = some next) :
    (next = .sleepSetChan k → pc = .sleepReleaseLk k ∧ ∃ after, instr = .sleepRelease k after) ∧
    (next = .sleepSetState k → pc = .sleepSetChan k ∧ ∃ after,
      instr = .write p { m.proc p with chan := some k.chan } after) ∧
      (next = .sleepSwitch k → pc = .sleepSetState k ∧ ∃ after,
        instr = .write p { m.proc p with state := .sleeping, sleepId := k.id } after) ∧
      (next = .sleepClearChan k → pc = .sleepSwitch k ∧ instr = .toScheduler p next) := by
  rcases hexecutes with ⟨good, hinstr⟩ | ⟨hintr, rfl⟩ | ⟨held, choice, rfl, hcall⟩
  · revert hinstr
    fun_cases procInstr initproc m c p good pc <;> intro hinstr
    all_goals try simp only [some.injEq, Except.ok.injEq, reduceCtorEq] at hinstr
    all_goals try have hinstr := sched_ok hinstr
    all_goals try subst hinstr
    all_goals simp only [target, some.injEq] at htarget
    all_goals subst htarget
    case case5 ret =>
      obtain ⟨hproc, _, _⟩ := hyields
      refine ⟨?_, ?_, ?_, ?_⟩ <;> rintro rfl <;> simp [heldProc] at hproc
    case case13 k =>
      unfold sleepReturn
      split <;> simp
    case case16 w _ _ =>
      unfold wakeReturn
      split <;> simp
    all_goals simp_all
  · simp only [target, some.injEq] at htarget
    subst htarget
    simp
  · revert hcall
    fun_cases call initproc m p held choice <;> intro hcall
    all_goals try simp only [some.injEq, Except.ok.injEq, reduceCtorEq] at hcall
    all_goals try subst hcall
    all_goals simp only [target, some.injEq] at htarget
    all_goals subst htarget
    all_goals simp

omit [DecidableEq C] in
theorem sleeping_of_change
    (hchange : Change initproc m p pc q value) (hq : q ≠ p) (hstate : value.state = .sleeping) :
    (m.proc q).state = .sleeping ∧ value.chan = (m.proc q).chan ∧
      value.sleepId = (m.proc q).sleepId := by
  cases hchange with
  | same => exact ⟨hstate, rfl, rfl⟩
  | yield _ hqp => exact absurd hqp hq
  | setChan _ hqp => exact absurd hqp hq
  | sleep _ hqp => exact absurd hqp hq
  | clearChan _ hqp => exact absurd hqp hq
  | wake => simp at hstate
  | kill => by_cases hsleep : (m.proc q).state = .sleeping <;> simp [hsleep] at hstate
  | allocate => simp at hstate
  | abandon => simp [freed] at hstate
  | adopt => exact ⟨hstate, rfl, rfl⟩
  | ready => simp at hstate
  | inherits => exact ⟨hstate, rfl, rfl⟩
  | die => simp at hstate
  | reap => simp [freed] at hstate
  | stop _ hqp => exact absurd hqp hq

/-- A call that dozes after a step dozed before it, or has just released its
spinlock. -/
theorem Dozing.before (hstep : ProcessStep initproc m after c p pc next instr)
    (hdozing : Dozing after q k) :
    Dozing m q k ∨ q = p ∧ pc = .sleepReleaseLk k ∧ next = .sleepSetChan k := by
  by_cases hq : q = p
  · subst hq
    obtain ⟨hsetChan, hsetState, hswitch, hclear⟩ :=
      @executes_sleep n C _ initproc m c q pc next instr k hstep.yields hstep.executes hstep.target
    unfold Dozing at hdozing ⊢
    rw [hstep.self] at hdozing
    rw [hstep.pos]
    rcases hdozing with hnext | hnext | ⟨hnext | hnext, hsleep⟩
    · exact .inr ⟨rfl, (hsetChan hnext).1, hnext⟩
    · exact .inl (.inl (hsetState hnext).1)
    · exact .inl (.inr (.inl (hswitch hnext).1))
    · obtain ⟨hpc, hinstr⟩ := hclear hnext
      refine .inl (.inr (.inr ⟨.inl hpc, ?_⟩))
      rw [(hstep.placed.live c q pc hstep.thread).1, hpc]
      rfl
  · refine .inl ?_
    unfold Dozing at hdozing ⊢
    rcases hstep.others q hq with hkept | ⟨hnew, _⟩
    · rw [hkept] at hdozing
      rcases hdozing with hpos | hpos | ⟨hpos, hsleep⟩
      · exact .inl hpos
      · exact .inr (.inl hpos)
      · exact .inr (.inr ⟨hpos, (sleeping_of_change
          (executes_change hstep.executes hstep.perform q) hq hsleep).1⟩)
    · rw [hnew] at hdozing
      simp at hdozing

omit [DecidableEq C] in
theorem chan_of_change
    (hchange : Change initproc m p pc q value) (hq : q ≠ p) (hrun : (m.proc q).state = .running)
    (hforks : forking pc ≠ some q) : value.chan = (m.proc q).chan := by
  cases hchange with
  | yield _ hqp => exact absurd hqp hq
  | setChan _ hqp => exact absurd hqp hq
  | sleep _ hqp => exact absurd hqp hq
  | clearChan _ hqp => exact absurd hqp hq
  | abandon hpc =>
    rw [hpc] at hforks
    exact absurd rfl hforks
  | reap _ hzombie =>
    rw [hrun] at hzombie
    cases hzombie
  | _ => rfl

theorem perform_held (hheld : ∀ lk c, m.lock lk = some c → m.seen lk = m.released lk)
    (hperf : perform m c instr = some after) (lk : Lock) (cpu : C)
    (hlock : after.lock lk = some cpu) : after.seen lk = after.released lk := by
  cases instr <;> simp only [perform, ite_none_right_eq_some, some.injEq] at hperf
  all_goals obtain ⟨_, rfl⟩ := hperf
  case acquireLock lock next hfree =>
    by_cases hlk : lk = lock
    · simp [goto, hlk]
    · simp only [goto, Function.update_of_ne hlk] at hlock ⊢
      exact hheld lk cpu hlock
  case releaseLock lock next =>
    by_cases hlk : lk = lock
    · simp [goto, hlk] at hlock
    · simp only [goto, Function.update_of_ne hlk] at hlock ⊢
      exact hheld lk cpu hlock
  case sleepRelease call next =>
    by_cases hlk : lk = call.lk
    · simp [goto, hlk] at hlock
    · simp only [goto, Function.update_of_ne hlk] at hlock ⊢
      exact hheld lk cpu hlock
  all_goals exact hheld lk cpu hlock

omit [DecidableEq C] in
theorem entering_running (hplace : Placed m) {id : ℕ}
    (hentering : entering (m.pos q) = some id) : (m.proc q).state = .running := by
  obtain ⟨cpu, hcpu, _⟩ := entering_live hplace hentering
  rw [(hplace.live cpu q _ hcpu).1]
  cases hpos : m.pos q <;> simp_all [entering, expected]

theorem Drowsy.process (hdrowsy : Drowsy m) (hplace : Placed after)
    (hstep : ProcessStep initproc m after c p pc next instr) : Drowsy after := by
  have hsleep := fun k => @executes_sleep n C _ initproc m c p pc next instr k
    hstep.yields hstep.executes hstep.target
  refine ⟨?_, ?_, ?_, perform_held hdrowsy.held hstep.perform⟩
  · intro q k hdozing
    obtain ⟨_, _, _, hrel⟩ := perform_history hstep.perform
    rcases hdozing.before hstep with hbefore | ⟨_, hpc, hnext⟩
    · have hid := hdrowsy.recorded q k hbefore
      rcases hrel k.lk with hsame | ⟨call, _, _, _, hcons⟩
      · rw [hsame]
        exact hid
      · rw [hcons]
        exact mem_cons_of_mem _ hid
    · obtain ⟨_, cont, hinstr⟩ := (hsleep k).1 hnext
      have hperf := hstep.perform
      rw [hinstr] at hperf
      cases hperf
      simp [goto]
  · intro q k hdozing
    by_cases hq : q = p
    · subst hq
      have hperf := hstep.perform
      have hposition := hdozing
      unfold Dozing at hposition
      rw [hstep.self] at hposition ⊢
      have hold : ∀ hbefore : Dozing m q k, pc ≠ .sleepSetChan k →
          (m.proc q).chan = some k.chan := fun hbefore hpc =>
        (hdrowsy.chan q k hbefore).resolve_left (by rw [hstep.pos]; exact hpc)
      rcases hposition with hnext | hnext | ⟨hnext | hnext, _⟩
      · exact .inl hnext
      · obtain ⟨_, cont, hinstr⟩ := (hsleep k).2.1 hnext
        rw [hinstr] at hperf
        cases hperf
        exact .inr (by simp [goto, setProc])
      · obtain ⟨hpc, cont, hinstr⟩ := (hsleep k).2.2.1 hnext
        have hchan := hold (.inr (.inl (by rw [hstep.pos, hpc]))) (by simp [hpc])
        rw [hinstr] at hperf
        cases hperf
        exact .inr (by simpa [goto, setProc] using hchan)
      · obtain ⟨hpc, hinstr⟩ := (hsleep k).2.2.2 hnext
        have hchan := hold (.inr (.inr ⟨.inl (by rw [hstep.pos, hpc]), by
          rw [(hstep.placed.live c q pc hstep.thread).1, hpc]
          rfl⟩)) (by simp [hpc])
        rw [hinstr] at hperf
        cases hperf
        exact .inr (by simpa [goto, setProc] using hchan)
    · have hchange := executes_change hstep.executes hstep.perform q
      rcases hdozing.before hstep with hbefore | ⟨hqp, _⟩
      · rcases hstep.others q hq with hkept | ⟨hnew, _⟩
        · rw [hkept]
          rcases hdrowsy.chan q k hbefore with hpos | hchan
          · exact .inl hpos
          · right
            rw [← hchan]
            have hkeeps : (m.proc q).state = .running → (after.proc q).chan = (m.proc q).chan := by
              intro hrun
              refine chan_of_change hchange hq hrun fun hforks => ?_
              have hused := hstep.placed.forks p q (by rw [hstep.pos]; exact hforks)
              rw [hrun] at hused
              cases hused
            rcases hdozing with hpos | hpos | ⟨_, hsleeping⟩
            · rw [hkept] at hpos
              exact hkeeps (entering_running hstep.placed (by rw [hpos]; rfl))
            · rw [hkept] at hpos
              exact hkeeps (entering_running hstep.placed (by rw [hpos]; rfl))
            · exact (sleeping_of_change hchange hq hsleeping).2.1
        · unfold Dozing at hdozing
          rw [hnew] at hdozing
          simp at hdozing
      · exact absurd hqp hq
  · intro q k hdozing hsleeping
    have hnotEntering : entering (after.pos q) = none := by
      cases hentering : entering (after.pos q) with
      | none => rfl
      | some id =>
        rw [entering_running hplace hentering] at hsleeping
        cases hsleeping
    by_cases hq : q = p
    · subst hq
      have hperf := hstep.perform
      unfold Dozing at hdozing
      rw [hstep.self] at hdozing hnotEntering
      rcases hdozing with hnext | hnext | ⟨hnext | hnext, _⟩
      · rw [hnext] at hnotEntering
        cases hnotEntering
      · rw [hnext] at hnotEntering
        cases hnotEntering
      · obtain ⟨_, cont, hinstr⟩ := (hsleep k).2.2.1 hnext
        rw [hinstr] at hperf
        cases hperf
        simp [goto, setProc]
      · obtain ⟨hpc, hinstr⟩ := (hsleep k).2.2.2 hnext
        have hstate : (m.proc q).state = .sleeping := by
          rw [(hstep.placed.live c q pc hstep.thread).1, hpc]
          rfl
        have hnumber := hdrowsy.number q k (.inr (.inr
          ⟨.inl (by rw [hstep.pos, hpc]), hstate⟩)) hstate
        rw [hinstr] at hperf
        cases hperf
        simpa [goto, setProc] using hnumber
    · obtain ⟨hstate, _, hid⟩ := sleeping_of_change
        (executes_change hstep.executes hstep.perform q) hq hsleeping
      rcases hdozing.before hstep with hbefore | ⟨hqp, _⟩
      · rw [hid]
        exact hdrowsy.number q k hbefore hstate
      · exact absurd hqp hq

omit [DecidableEq C] in
theorem Dozing.scheduler (hstep : SchedulerStep m after c)
    (hdozing : Dozing after q k) : Dozing m q k := by
  unfold Dozing at hdozing ⊢
  rw [hstep.pos] at hdozing
  rcases hdozing with hpos | hpos | ⟨hpos, hsleep⟩
  · exact .inl hpos
  · exact .inr (.inl hpos)
  · refine .inr (.inr ⟨hpos, ?_⟩)
    rcases hstep.proc q with hsame | ⟨_, hrun⟩
    · rwa [hsame] at hsleep
    · rw [hrun] at hsleep
      cases hsleep

omit [DecidableEq C] in
theorem Drowsy.scheduler (hdrowsy : Drowsy m) (hstep : SchedulerStep m after c) : Drowsy after := by
  refine ⟨?_, ?_, ?_, ?_⟩
  · intro q k hdozing
    rw [hstep.released]
    exact hdrowsy.recorded q k (hdozing.scheduler hstep)
  · intro q k hdozing
    rw [hstep.pos]
    rcases hstep.proc q with hsame | ⟨_, hrun⟩
    · rw [hsame]
      exact hdrowsy.chan q k (hdozing.scheduler hstep)
    · rw [hrun]
      exact hdrowsy.chan q k (hdozing.scheduler hstep)
  · intro q k hdozing hsleep
    rcases hstep.proc q with hsame | ⟨_, hrun⟩
    · rw [hsame] at hsleep ⊢
      exact hdrowsy.number q k (hdozing.scheduler hstep) hsleep
    · rw [hrun] at hsleep
      cases hsleep
  · rw [hstep.lock, hstep.seen, hstep.released]
    exact hdrowsy.held

/-! ## Awake processes -/

def Awake (m : Machine n C) (p : Fin n) : Prop := ∀ k, k.inWait = true → ¬ Dozing m p k

omit [DecidableEq C] in
theorem awake_of_gone (hplace : Placed m) (hdrowsy : Drowsy m) {holder : C}
    (hlock : m.lock .wait = some holder)
    (hgone : ∀ id ∈ m.seen .wait, Gone m (some (.proc q)) id q) : Awake m q := by
  intro k hwait hdozing
  have hsleeps := hplace.sleeps q
  have hcall : k.chan = .proc q ∧ k.lk = .wait := by
    rcases hdozing with hpos | hpos | ⟨hpos | hpos, _⟩ <;> rw [hpos] at hsleeps <;>
      exact hsleeps hwait
  have hrec := hdrowsy.recorded q k hdozing
  rw [hcall.2, ← hdrowsy.held .wait holder hlock] at hrec
  obtain ⟨hasleep, hentering⟩ := hgone k.id hrec
  have hchan := hdrowsy.chan q k hdozing
  have hnumber := hdrowsy.number q k hdozing
  rcases hdozing with hpos | hpos | ⟨hpos | hpos, hsleep⟩
  · exact hentering (by rw [hpos]; rfl)
  · exact hentering (by rw [hpos]; rfl)
  · refine hasleep ⟨hsleep, ?_, hnumber hsleep⟩
    rw [← hcall.1]
    exact hchan.resolve_left (by simp [hpos])
  · refine hasleep ⟨hsleep, ?_, hnumber hsleep⟩
    rw [← hcall.1]
    exact hchan.resolve_left (by simp [hpos])

theorem Awake.process (hstep : ProcessStep initproc m after c p pc next instr)
    (hfree : Lock.wait ∉ heldLocks pc) (hawake : Awake m q) : Awake after q := by
  intro k hwait hdozing
  rcases hdozing.before hstep with hbefore | ⟨rfl, hpc, _⟩
  · exact hawake k hwait hbefore
  · have hsleeps := hstep.sleeps
    rw [hpc] at hsleeps
    refine hfree ?_
    rw [hpc]
    simp [heldLocks, (hsleeps hwait).2]

end

end Xv6.WaitSleep
