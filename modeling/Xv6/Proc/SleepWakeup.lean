import Xv6.Proc.SchedulingSteps

/-!
# No lost wakeup

`sleep` takes `p->lock` before it gives up its spinlock, and `wakeup` tests each
process under `p->lock`.  Each call of `sleep` has a number; when `wakeup` is past
a process, no call that had released a spinlock the waker acquired later is
asleep on the channel there or on its way to sleep.
-/

namespace Xv6.SleepWakeup

open Interleaving LockTable Scheduling SchedulingLocks List Option RunningProcess SchedulingSteps

variable {n : ℕ} {C : Type} [DecidableEq C]
variable {pc : Pc n} {q : Fin n} {id index : ℕ} {w : WakeCall n}

/-! ## Numbered calls -/

/-- A call of `sleep` that has not released its spinlock. -/
def pending : Pc n → Option ℕ
  | .sleepAcquire k | .sleepReleaseLk k => some k.id
  | _ => none

/-- A call of `sleep` that has released its spinlock and is not yet asleep. -/
def entering : Pc n → Option ℕ
  | .sleepSetChan k | .sleepSetState k => some k.id
  | _ => none

@[simp]
theorem pending_wakeReturn (after : WakeReturn) : pending (wakeReturn after : Pc n) = none := by
  cases after <;> rfl

@[simp]
theorem entering_wakeReturn (after : WakeReturn) : entering (wakeReturn after : Pc n) = none := by
  cases after <;> rfl

@[simp]
theorem pending_sleepReturn (k : SleepCall n) : pending (sleepReturn k) = none := by
  unfold sleepReturn
  split <;> rfl

@[simp]
theorem entering_sleepReturn (k : SleepCall n) : entering (sleepReturn k) = none := by
  unfold sleepReturn
  split <;> rfl

theorem pending_locked {p : Fin n} (hproc : heldProc p pc = none)
    (hlocks : heldLocks pc = []) : pending pc = none ∧ entering pc = none := by
  cases pc <;> first | exact ⟨rfl, rfl⟩ | (cases hproc; done) | cases hlocks

section
variable {initproc : Fin n} {m after : Machine n C} {c : C} {p : Fin n}
  {pc next : Pc n} {instr : Instr n}

theorem executes_calls (hyields : YieldsUnlocked p pc)
    (hexecutes : Executes initproc m c p pc instr) (htarget : target instr = some next) :
    (∀ id, entering next = some id → entering pc = some id ∨ pending pc = some id) ∧
    (∀ id, pending next = some id → pending pc = some id ∨
      id = m.sleeps ∧ ∃ after, instr = .newSleep after) ∧
    ∀ k after, instr = .sleepRelease k after → pc = .sleepReleaseLk k ∧ next = .sleepSetChan k := by
  rcases hexecutes with ⟨good, hinstr⟩ | ⟨hintr, rfl⟩ | ⟨held, choice, rfl, hcall⟩
  · revert hinstr
    fun_cases procInstr initproc m c p good pc <;> intro hinstr
    all_goals try simp only [some.injEq, Except.ok.injEq, reduceCtorEq] at hinstr
    all_goals try have hinstr := sched_ok hinstr
    all_goals try subst hinstr
    all_goals simp only [target, some.injEq] at htarget
    all_goals subst htarget
    -- `yieldRelease`
    case case5 ret =>
      have hnone := pending_locked hyields.1 hyields.2.1
      simp [hnone]
    -- `sleepReacquire`
    case case13 k => simp
    -- `wakeNext`
    case case16 w _ _ => simp
    all_goals try (refine ⟨fun _ h => ?_, fun _ h => ?_, fun _ _ h => ?_⟩ <;> (cases h; done))
    all_goals simp [pending, entering]
  · simp only [target, some.injEq] at htarget
    subst htarget
    simp [pending, entering]
  · revert hcall
    fun_cases call initproc m p held choice <;> intro hcall
    all_goals try simp only [some.injEq, Except.ok.injEq, reduceCtorEq] at hcall
    all_goals try subst hcall
    all_goals simp only [target, some.injEq] at htarget
    all_goals subst htarget
    all_goals simp [pending, entering]

theorem perform_history (hperf : perform m c instr = some after) : m.sleeps ≤ after.sleeps ∧
    (∀ next, instr = .newSleep next → after.sleeps = m.sleeps + 1) ∧
    (∀ lk, after.seen lk = m.seen lk ∨ m.lock lk = none ∧ after.seen lk = m.released lk) ∧
    ∀ lk, after.released lk = m.released lk ∨ ∃ k next, instr = .sleepRelease k next ∧ lk = k.lk ∧
        after.released lk = k.id :: m.released lk := by
  cases instr <;> simp only [perform, ite_none_right_eq_some, some.injEq] at hperf
  all_goals obtain ⟨_, rfl⟩ := hperf
  case acquireLock lock next hfree =>
    refine ⟨le_rfl, by simp, fun lk => ?_, fun lk => .inl rfl⟩
    by_cases hlk : lk = lock
    · subst hlk
      exact .inr ⟨hfree, by simp [goto]⟩
    · exact .inl (by simp [goto, hlk])
  case sleepRelease k next =>
    refine ⟨le_rfl, by simp, fun lk => .inl rfl, fun lk => ?_⟩
    by_cases hlk : lk = k.lk
    · exact .inr ⟨k, next, rfl, hlk, by simp [goto, hlk]⟩
    · exact .inl (by simp [goto, hlk])
  all_goals simp [goto, setProc]

end

/-- The calls have different numbers, and what the history of the spinlocks says
is true. -/
structure Numbered (m : Machine n C) : Prop where
  fresh : ∀ p id, pending (m.pos p) = some id → id < m.sleeps
  distinct : ∀ p q id, pending (m.pos p) = some id → pending (m.pos q) = some id → p = q
  released : ∀ lk id, id ∈ m.released lk ∨ id ∈ m.seen lk →
    id < m.sleeps ∧ ∀ p, pending (m.pos p) ≠ some id

/-! ## Every step -/

section
variable {initproc : Fin n} {m after : Machine n C} {c : C} {p : Fin n}
  {pc next : Pc n} {instr : Instr n}

theorem pending_others (hstep : ProcessStep initproc m after c p pc next instr)
    (hq : q ≠ p) (hpending : pending (after.pos q) = some id) :
    pending (m.pos q) = some id := by
  rcases hstep.others q hq with hkept | ⟨hnew, _⟩
  · rwa [hkept] at hpending
  · rw [hnew] at hpending
    simp [pending] at hpending

theorem Numbered.process (hnumbered : Numbered m)
    (hstep : ProcessStep initproc m after c p pc next instr) : Numbered after := by
  obtain ⟨_, hpending, hrelease⟩ := executes_calls hstep.yields hstep.executes hstep.target
  obtain ⟨hsleeps, hnew, hseen, hrel⟩ := perform_history hstep.perform
  have hown : ∀ id, pending (after.pos p) = some id →
      pending (m.pos p) = some id ∨ id = m.sleeps ∧ after.sleeps = m.sleeps + 1 := by
    intro id hid
    rw [hstep.self] at hid
    rw [hstep.pos]
    rcases hpending id hid with hold | ⟨hid, _, hinstr⟩
    · exact .inl hold
    · exact .inr ⟨hid, hnew _ hinstr⟩
  have hany : ∀ q id, pending (after.pos q) = some id → id < m.sleeps →
      pending (m.pos q) = some id := by
    intro q id hid hlt
    by_cases hq : q = p
    · subst hq
      rcases hown id hid with hold | ⟨hid, _⟩
      · exact hold
      · omega
    · exact pending_others hstep hq hid
  refine ⟨?_, ?_, ?_⟩
  · intro q id hid
    by_cases hq : q = p
    · subst hq
      rcases hown id hid with hold | ⟨hid, hafter⟩
      · exact lt_of_lt_of_le (hnumbered.fresh q id hold) hsleeps
      · omega
    · exact lt_of_lt_of_le (hnumbered.fresh q id (pending_others hstep hq hid)) hsleeps
  · intro q r id hq hr
    by_cases hlt : id < m.sleeps
    · exact hnumbered.distinct q r id (hany q id hq hlt) (hany r id hr hlt)
    · -- A new number belongs to the process that has just called `sleep`.
      have hcaller : ∀ q, pending (after.pos q) = some id → q = p := by
        intro q hq
        by_contra hqp
        exact hlt (hnumbered.fresh q id (pending_others hstep hqp hq))
      rw [hcaller q hq, hcaller r hr]
  · intro lk id hid
    have hcases : (id ∈ m.released lk ∨ id ∈ m.seen lk) ∨
        ∃ k next, instr = .sleepRelease k next ∧ id = k.id := by
      rcases hid with hid | hid
      · rcases hrel lk with hsame | ⟨k, next, hinstr, _, hcons⟩
        · exact .inl (.inl (hsame ▸ hid))
        · rw [hcons, mem_cons] at hid
          rcases hid with hid | hid
          · exact .inr ⟨k, next, hinstr, hid⟩
          · exact .inl (.inl hid)
      · rcases hseen lk with hsame | ⟨_, hsame⟩
        · exact .inl (.inr (hsame ▸ hid))
        · exact .inl (.inl (hsame ▸ hid))
    rcases hcases with hold | ⟨k, next', hinstr, hid⟩
    · obtain ⟨hlt, hnone⟩ := hnumbered.released lk id hold
      exact ⟨lt_of_lt_of_le hlt hsleeps, fun q hq => hnone q (hany q id hq hlt)⟩
    · obtain ⟨hpc, hnext⟩ := hrelease k next' hinstr
      have hpend : pending (m.pos p) = some id := by
        rw [hstep.pos, hpc, hid]
        rfl
      have hlt := hnumbered.fresh p id hpend
      refine ⟨lt_of_lt_of_le hlt hsleeps, fun q hq => ?_⟩
      have hqp := hnumbered.distinct q p id (hany q id hq hlt) hpend
      rw [hqp, hstep.self, hnext] at hq
      simp [pending] at hq

end

/-! ## The scan of `wakeup` -/

def progress : Pc n → Option (WakeCall n × ℕ)
  | .wakeNext w index => some (w, index)
  | .wakeTest w q => some (w, q)
  | .wakeRelease w q => some (w, q + 1)
  | _ => none

/-- A call of `sleep` by `q` is not asleep on `chan`, nor on its way to sleep. -/
def Gone (m : Machine n C) (chan : Option (Chan n)) (id : ℕ) (q : Fin n) : Prop :=
  ¬ ((m.proc q).state = .sleeping ∧ (m.proc q).chan = chan ∧
    (m.proc q).sleepId = id) ∧ entering (m.pos q) ≠ some id

def Scanned (m : Machine n C) : Prop :=
  ∀ c p pc w index, (m.cpu c).thread = .process p pc →
    progress pc = some (w, index) → ∀ lk ∈ heldReturn w.after,
    ∀ id ∈ m.seen lk, ∀ q : Fin n, q < index → Gone m w.chan id q

theorem progress_locks (hprog : progress pc = some (w, index)) :
    heldLocks pc = heldReturn w.after := by
  cases pc <;> cases hprog <;> rfl

theorem progress_not_parked (hprog : progress pc = some (w, index)) : parked pc = false := by
  cases pc <;> cases hprog <;> rfl

theorem entering_not_parked (hentering : entering pc = some id) :
    parked pc = false := by
  cases pc <;> cases hentering <;> rfl

@[simp]
theorem progress_wakeReturn (after : WakeReturn) : progress (wakeReturn after : Pc n) = none := by
  cases after <;> rfl

@[simp]
theorem progress_sleepReturn (k : SleepCall n) : progress (sleepReturn k) = none := by
  unfold sleepReturn
  split <;> rfl

section
variable {initproc : Fin n} {m after : Machine n C} {c : C} {p : Fin n}
  {pc next : Pc n} {instr : Instr n}

theorem executes_progress (hyields : YieldsUnlocked p pc)
    (hexecutes : Executes initproc m c p pc instr) (htarget : target instr = some next)
    (hprog : progress next = some (w, index)) :
    index = 0 ∨ progress pc = some (w, index) ∨ heldLocks next = [] ∨
      (pc = .wakeNext w p ∧ index = p + 1) ∨ ∃ q : Fin n, pc = .wakeTest w q ∧ index = q + 1 := by
  rcases hexecutes with ⟨good, hinstr⟩ | ⟨hintr, rfl⟩ | ⟨held, choice, rfl, hcall⟩
  · revert hinstr
    fun_cases procInstr initproc m c p good pc <;> intro hinstr
    all_goals try simp only [some.injEq, Except.ok.injEq, reduceCtorEq] at hinstr
    all_goals try have hinstr := sched_ok hinstr
    all_goals try subst hinstr
    all_goals simp only [target, some.injEq] at htarget
    all_goals subst htarget
    case case13 k => simp at hprog
    case case16 w _ _ => simp at hprog
    case case5 ret => exact .inr (.inr (.inl hyields.2.1))
    all_goals try (cases hprog; done)
    all_goals simp_all [progress]
  · simp only [target, some.injEq] at htarget
    subst htarget
    simp [progress] at hprog
  · revert hcall
    fun_cases call initproc m p held choice <;> intro hcall
    all_goals try simp only [some.injEq, Except.ok.injEq, reduceCtorEq] at hcall
    all_goals try subst hcall
    all_goals simp only [target, some.injEq] at htarget
    all_goals subst htarget
    all_goals try (cases hprog; done)
    all_goals simp_all [progress]

theorem executes_wakeTest (hexecutes : Executes initproc m c p (.wakeTest w q) instr)
    (hperf : perform m c instr = some after) :
    ¬ ((after.proc q).state = .sleeping ∧ (after.proc q).chan = w.chan) := by
  rcases hexecutes with ⟨good, hinstr⟩ | ⟨hintr, _⟩ | ⟨_, _, hpc, _⟩
  · simp only [procInstr] at hinstr
    split at hinstr
    · simp only [some.injEq, Except.ok.injEq] at hinstr
      subst hinstr
      cases hperf
      simp [goto, setProc]
    · rename_i htest
      simp only [some.injEq, Except.ok.injEq] at hinstr
      subst hinstr
      cases hperf
      exact htest
  · simp [interruptible, heldProc] at hintr
  · cases hpc

omit [DecidableEq C] in
theorem entering_live (hplace : Placed m) (hentering : entering (m.pos q) = some id) :
    ∃ c, (m.cpu c).thread = .process q (m.pos q) ∧ threadProc (m.cpu c).thread = some q := by
  have hlive : ∃ c, Executing m q c := by
    by_contra hnone
    push Not at hnone
    have hparked := (hplace.stopped q hnone).2
    rw [entering_not_parked hentering] at hparked
    cases hparked
  obtain ⟨c, pc, hthr⟩ := hlive
  have hpos := hplace.pos c q pc hthr
  refine ⟨c, by rw [hpos]; exact hthr, ?_⟩
  rw [hpos] at hentering
  rw [hthr]
  cases pc <;> first | rfl | cases hentering

theorem Gone.process (hstep : ProcessStep initproc m after c p pc next instr)
    {chan : Option (Chan n)} (hgone : Gone m chan id q)
    (hrel : ∀ r, pending (m.pos r) ≠ some id) : Gone after chan id q := by
  obtain ⟨hasleep, hentering⟩ := hgone
  refine ⟨?_, ?_⟩
  · have hchange := executes_change hstep.executes hstep.perform q
    have hlive := (hstep.placed.live c p pc hstep.thread).1
    generalize after.proc q = value at hchange ⊢
    cases hchange with
    | same => exact hasleep
    | yield ret hq hpc => simp
    | setChan k hq hpc | clearChan k hq hpc => simp [hq, hlive, hpc, expected]
    | sleep k hq hpc =>
      rintro ⟨_, _, hid⟩
      refine hentering ?_
      rw [hq, hstep.pos, hpc, ← hid]
      rfl
    | wake w hpc hstate hchan => simp
    | kill pid held hpc => by_cases hstate : (m.proc q).state = .sleeping <;> simp [hstate]
    | allocate hpc hstate => simp
    | abandon hpc => simp [freed]
    | adopt hpc => exact hasleep
    | ready hpc => simp
    | inherits status hpc hpar => exact hasleep
    | die status hq hpc => simp
    | reap hpc hstate => simp [freed]
    | stop resume hq hparked => exact hasleep
  · by_cases hq : q = p
    · subst hq
      rw [hstep.self]
      rw [hstep.pos] at hentering
      intro hnext
      rcases (executes_calls hstep.yields hstep.executes hstep.target).1 id hnext with
        hold | hold
      · exact hentering hold
      · exact hrel q (by rw [hstep.pos]; exact hold)
    · rcases hstep.others q hq with hkept | ⟨hnew, _⟩
      · rwa [hkept]
      · simp [hnew, entering]

theorem entering_of_progress (hprog : progress pc = some (w, index)) : entering pc = none := by
  cases pc <;> cases hprog <;> rfl

theorem Gone.wakeTest (hstep : ProcessStep initproc m after c p pc next instr)
    (hpc : pc = .wakeTest w q)
    (hentering : entering next = none) (id : ℕ) : Gone after w.chan id q := by
  have htest := executes_wakeTest (hpc ▸ hstep.executes) hstep.perform
  refine ⟨fun hasleep => htest ⟨hasleep.1, hasleep.2.1⟩, ?_⟩
  by_cases hq : q = p
  · rw [hq, hstep.self, hentering]
    simp
  · rcases hstep.others q hq with hkept | ⟨hnew, _⟩
    · rw [hkept]
      intro hid
      obtain ⟨cpu, hcpu, hheld⟩ := entering_live hstep.placed hid
      have hsame := hstep.locked.proc.unique hheld (show threadProc (m.cpu c).thread = some q by
          rw [hstep.thread, hpc]
          rfl)
      subst hsame
      rw [hstep.thread] at hcpu
      cases hcpu
      exact hq rfl
    · simp [hnew, entering]

theorem Scanned.process (hscanned : Scanned m) (hnumbered : Numbered m)
    (hstep : ProcessStep initproc m after c p pc next instr) : Scanned after := by
  obtain ⟨_, _, hseen, _⟩ := perform_history hstep.perform
  -- A spinlock that a CPU holds keeps its history.
  have hheld : ∀ cpu r rpc lk, (m.cpu cpu).thread = .process r rpc →
      lk ∈ heldLocks rpc → after.seen lk = m.seen lk := by
    intro cpu r rpc lk hcpu hlk
    rcases hseen lk with hsame | ⟨hfree, _⟩
    · exact hsame
    · refine absurd ?_ (@Agrees.free _ _ _ _ hstep.locked.other cpu lk hfree)
      rw [hcpu]
      exact hlk
  have hkeep : ∀ lk id chan q, id ∈ m.seen lk → Gone m chan id q →
      Gone after chan id q := fun lk id chan q hid hgone =>
    hgone.process hstep (hnumbered.released lk id (.inr hid)).2
  intro cpu r rpc w index hcpu hprog lk hlk id hid q hq
  by_cases hc : cpu = c
  · subst hc
    obtain ⟨rfl, rfl⟩ := hstep.moved r rpc hcpu
    rcases executes_progress hstep.yields hstep.executes hstep.target hprog with
      hzero | hsame | hnone | ⟨hpc, hi⟩ | ⟨s, hpc, hi⟩
    · omega
    · rw [hheld cpu r pc lk hstep.thread (progress_locks hsame ▸ hlk)] at hid
      exact hkeep lk id w.chan q hid
        (hscanned cpu r pc w index hstep.thread hsame lk hlk id hid q hq)
    · rw [← progress_locks hprog, hnone] at hlk
      cases hlk
    · have hsame : progress pc = some (w, r.val) := by rw [hpc]; rfl
      rw [hheld cpu r pc lk hstep.thread (progress_locks hsame ▸ hlk)] at hid
      refine hkeep lk id w.chan q hid ?_
      by_cases hqr : q = r
      · subst hqr
        have hlive := (hstep.placed.live cpu q pc hstep.thread).1
        refine ⟨?_, ?_⟩
        · simp [hlive, hpc, expected]
        · rw [hstep.pos, entering_of_progress hsame]
          simp
      · exact hscanned cpu r pc w r hstep.thread hsame lk hlk id hid q (by
          have hne : q.val ≠ r.val := fun hval => hqr (Fin.ext hval)
          omega)
    · have hsame : progress pc = some (w, s.val) := by rw [hpc]; rfl
      rw [hheld cpu r pc lk hstep.thread (progress_locks hsame ▸ hlk)] at hid
      by_cases hqs : q = s
      · subst hqs
        exact Gone.wakeTest hstep hpc (entering_of_progress hprog) id
      · refine hkeep lk id w.chan q hid
          (hscanned cpu r pc w s hstep.thread hsame lk hlk id hid q ?_)
        have hne : q.val ≠ s.val := fun hval => hqs (Fin.ext hval)
        omega
  · rw [hstep.cpus cpu hc] at hcpu
    rw [hheld cpu r rpc lk hcpu (progress_locks hprog ▸ hlk)] at hid
    exact hkeep lk id w.chan q hid (hscanned cpu r rpc w index hcpu hprog lk hlk id hid q hq)

end

/-! ## Every run -/

section
variable {initproc : Fin n} {m after : Machine n C} {c : C}

omit [DecidableEq C] in
theorem Numbered.scheduler (hnumbered : Numbered m)
    (hstep : SchedulerStep m after c) : Numbered after := by
  refine ⟨?_, ?_, ?_⟩
  · rw [hstep.pos, hstep.sleeps]
    exact hnumbered.fresh
  · rw [hstep.pos]
    exact hnumbered.distinct
  · rw [hstep.pos, hstep.sleeps, hstep.released, hstep.seen]
    exact hnumbered.released

omit [DecidableEq C] in
theorem Gone.scheduler (hstep : SchedulerStep m after c)
    {chan : Option (Chan n)} (hgone : Gone m chan id q) :
    Gone after chan id q := by
  refine ⟨?_, by rw [hstep.pos]; exact hgone.2⟩
  rcases hstep.proc q with hsame | ⟨_, hrun⟩
  · rw [hsame]
    exact hgone.1
  · simp [hrun]

omit [DecidableEq C] in
theorem Scanned.scheduler (hscanned : Scanned m)
    (hstep : SchedulerStep m after c) : Scanned after := by
  intro cpu p pc w index hthr hprog lk hlk id hid q hq
  rw [hstep.seen] at hid
  rcases hstep.threads cpu p pc hthr with hc | hbefore
  · rw [hc] at hthr
    have hparked := hstep.resumed p pc hthr
    rw [progress_not_parked hprog] at hparked
    cases hparked
  · exact (hscanned cpu p pc w index hbefore hprog lk hlk id hid q hq).scheduler hstep

/-- What holds in every state of every run. -/
structure Waking (m : Machine n C) : Prop where
  placed : Placed m
  locked : Locked m
  numbered : Numbered m
  scanned : Scanned m

theorem step_waking {action : C × Choice} (hwaking : Waking m)
    (hexec : exec initproc m action = some (.ok after)) : Waking after := by
  obtain ⟨hplace, hlock⟩ := step_placed hwaking.placed hwaking.locked hexec
  rcases exec_cases hwaking.placed hwaking.locked hexec with
    ⟨p, pc, next, instr, hstep⟩ | ⟨hstep, _⟩
  · exact ⟨hplace, hlock, hwaking.numbered.process hstep,
      hwaking.scanned.process hwaking.numbered hstep⟩
  · exact ⟨hplace, hlock, hwaking.numbered.scheduler hstep, hwaking.scanned.scheduler hstep⟩

theorem runs_waking (hruns : Runs initproc m) : Waking m := by
  refine @Reachable.invariant _ _ _ _ _ _ Waking m hruns ?_ ?_
  · rintro _ rfl
    refine ⟨initial_placed initproc, initial_locked initproc, ?_, ?_⟩
    · refine ⟨?_, ?_, ?_⟩ <;> simp [initial, pending]
    · intro cpu p pc w index hthr
      simp [initial] at hthr
  · intro m action after hwaking _ hexec
    exact step_waking hwaking hexec

/-- No lost wakeup: when a call of `wakeup` has been through the table, no call of
`sleep` that released a spinlock before the waker acquired it is still asleep on
the channel, on any process. -/
theorem wakeup_wakes_released_sleepers (initproc : Fin n) (m : Machine n C)
    (hruns : Runs initproc m) (c : C) (waker : Fin n) (w : WakeCall n) (index : ℕ)
    (hwakeup : (m.cpu c).thread = .process waker (.wakeNext w index))
    (hdone : n ≤ index) (lk : Lock) (hlk : lk ∈ heldReturn w.after) (id : ℕ)
    (hid : id ∈ m.seen lk) (p : Fin n) :
    ¬ ((m.proc p).state = .sleeping ∧ (m.proc p).chan = w.chan ∧ (m.proc p).sleepId = id) :=
  ((runs_waking hruns).scanned c waker _ w index hwakeup rfl lk hlk id hid p
    (lt_of_lt_of_le p.isLt hdone)).1

end

/-- The first process forks, then sleeps with a spinlock; its child, on another
CPU, acquires the spinlock and calls `wakeup`. -/
def handover : List (Bool × Choice) :=
  List.replicate 5 (true, .go) ++ (true, .fork) :: List.replicate 13 (true, .go) ++
    List.replicate 8 (false, .go) ++
    (true, .acquire 7) :: (true, .sleep 3 7) :: List.replicate 7 (true, .go) ++
    (false, .acquire 7) :: (false, .wakeup 3) :: List.replicate 4 (false, .go)

theorem wakeup_wakes_released_sleepers_handover : ∃ m : Machine 2 Bool, Runs 0 m ∧
      (m.cpu false).thread = .process 1 (.wakeNext ⟨some (.other 3), .run [.other 7]⟩ 2) ∧
      0 ∈ m.seen (.other 7) ∧
      ¬ ((m.proc 0).state = .sleeping ∧ (m.proc 0).chan = some (.other 3) ∧
        (m.proc 0).sleepId = 0) := by
  obtain ⟨m, hruns, htest⟩ := @exists_reachable (Machine 2 Bool) (Bool × Choice)
    Panic (exec 0) (fun _ _ => True) (· = initial Bool 0) (fun _ _ => true)
    (fun m => decide ((m.cpu false).thread =
      .process 1 (.wakeNext ⟨some (.other 3), .run [.other 7]⟩ 2) ∧
      0 ∈ m.seen (.other 7)))
    (initial Bool 0) handover rfl (fun _ _ _ => trivial) (by decide +kernel)
  obtain ⟨hthread, hseen⟩ := of_decide_eq_true htest
  exact ⟨m, hruns, hthread, hseen, wakeup_wakes_released_sleepers 0 m hruns false 1
    _ 2 hthread le_rfl (.other 7) (by simp [heldReturn]) 0 hseen 0⟩

end Xv6.SleepWakeup
