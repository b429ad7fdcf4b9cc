import Xv6.Proc.RunningProcess

/-!
# What one step does to each process

An operation of a process changes at most one process record, in one of a few
ways, each at a known position; a scheduler changes only the state of the process
it has chosen.
-/

namespace Xv6.SchedulingSteps

open Function Option Interleaving Scheduling SchedulingLocks RunningProcess

variable {n : ℕ} {C : Type} [DecidableEq C]
variable {next : Pc n} {spc : SchedPc n}

/-- What an operation of `p` at `pc` can do to the record of `q`. -/
inductive Change (initproc : Fin n) (m : Machine n C) (p : Fin n) (pc : Pc n)
    (q : Fin n) : Proc n → Prop where
  | same : Change initproc m p pc q (m.proc q)
  | yield (ret : Pc n) : q = p → pc = .yieldSet ret →
      Change initproc m p pc q { m.proc q with state := .runnable }
  | setChan (k : SleepCall n) : q = p → pc = .sleepSetChan k →
      Change initproc m p pc q { m.proc q with chan := some k.chan }
  | sleep (k : SleepCall n) : q = p → pc = .sleepSetState k →
      Change initproc m p pc q { m.proc q with state := .sleeping, sleepId := k.id }
  | clearChan (k : SleepCall n) : q = p → pc = .sleepClearChan k →
      Change initproc m p pc q { m.proc q with chan := none }
  | wake (w : WakeCall n) : pc = .wakeTest w q → (m.proc q).state = .sleeping →
      (m.proc q).chan = w.chan →
      Change initproc m p pc q { m.proc q with state := .runnable }
  | kill (pid : ℕ) (held : List Lock) : pc = .killTest pid q held →
      Change initproc m p pc q { m.proc q with
          killed := true
          state := if (m.proc q).state = .sleeping then .runnable
            else (m.proc q).state }
  | allocate : pc = .allocTest q → (m.proc q).state = .unused →
      Change initproc m p pc q { m.proc q with
          pid := m.nextpid, state := .used, context := .forkret }
  | abandon : pc = .forkBuild q → Change initproc m p pc q (freed (m.proc q))
  | adopt : pc = .forkSetParent q → Change initproc m p pc q { m.proc q with parent := some p }
  | ready : pc = .forkSetState q → Change initproc m p pc q { m.proc q with state := .runnable }
  | inherits (status : ℤ) : pc = .reparent status q →
      (m.proc q).parent = some p →
      Change initproc m p pc q { m.proc q with parent := some initproc }
  | die (status : ℤ) : q = p → pc = .exitSetState status →
      Change initproc m p pc q { m.proc q with
          xstate := status, state := .zombie, exitId := m.exits.length }
  | reap : pc = .waitTest q → (m.proc q).state = .zombie →
      Change initproc m p pc q (freed (m.proc q))
  | stop (resume : Pc n) : q = p → parked resume = true →
      Change initproc m p pc q { m.proc q with context := resume }

/-- The position to which an operation takes the process that executes it. -/
def target : Instr n → Option (Pc n)
  | .jump (.process _ pc) | .newSleep (.process _ pc)
  | .acquireProc _ (.process _ pc) | .releaseProc _ (.process _ pc)
  | .acquireLock _ (.process _ pc) | .releaseLock _ (.process _ pc)
  | .sleepRelease _ (.process _ pc) | .setParent _ _ (.process _ pc)
  | .write _ _ (.process _ pc) | .allocate _ (.process _ pc)
  | .die _ _ (.process _ pc) | .reap _ _ (.process _ pc) => some pc
  | .toScheduler _ resume => some resume
  | _ => none

section
variable {initproc : Fin n} {m after : Machine n C} {c : C} {p : Fin n}
  {pc : Pc n} {instr : Instr n}

omit [DecidableEq C] in
theorem Change.update {r : Fin n} {value : Proc n}
    (hchange : Change initproc m p pc r value) (q : Fin n) :
    Change initproc m p pc q (update m.proc r value q) := by
  by_cases hq : q = r
  · subst hq
    rw [update_self]
    exact hchange
  · rw [update_of_ne hq]
    exact .same

theorem executes_change (hexecutes : Executes initproc m c p pc instr)
    (hperf : perform m c instr = some after) (q : Fin n) :
    Change initproc m p pc q (after.proc q) := by
  rcases hexecutes with ⟨good, hinstr⟩ | ⟨hintr, rfl⟩ | ⟨held, choice, rfl, hcall⟩
  · revert hinstr
    fun_cases procInstr initproc m c p good pc <;> intro hinstr
    all_goals try simp only [some.injEq, Except.ok.injEq, reduceCtorEq] at hinstr
    all_goals try have hinstr := sched_ok hinstr
    all_goals try subst hinstr
    all_goals simp only [perform, ite_none_right_eq_some, some.injEq] at hperf
    all_goals obtain ⟨_, rfl⟩ := hperf
    all_goals try exact .same
    all_goals refine Change.update ?_ q
    all_goals first
      | exact .yield _ rfl rfl
      | exact .setChan _ rfl rfl
      | exact .sleep _ rfl rfl
      | exact .clearChan _ rfl rfl
      | exact .wake _ rfl (by tauto) (by tauto)
      | exact .kill _ _ rfl
      | exact .allocate rfl (by assumption)
      | exact .abandon rfl
      | exact .adopt rfl
      | exact .ready rfl
      | exact .inherits _ rfl (by assumption)
      | exact .die _ rfl rfl
      | exact .reap rfl (by assumption)
      | exact .stop _ rfl rfl
  · cases hperf
    exact .same
  · revert hcall
    fun_cases call initproc m p held choice <;> intro hcall
    all_goals try simp only [some.injEq, Except.ok.injEq, reduceCtorEq] at hcall
    all_goals try subst hcall
    all_goals simp only [perform, ite_none_right_eq_some, some.injEq] at hperf
    all_goals obtain ⟨_, rfl⟩ := hperf
    all_goals exact .same

theorem goto_pos (middle : Machine n C) (next : Pc n) (q : Fin n)
    (hpos : q ≠ p → middle.pos q = m.pos q ∨ middle.pos q = .forkret ∧ (m.proc q).state = .unused) :
    (goto middle c (.process p next)).pos q = next ∧ q = p ∨
      q ≠ p ∧ ((goto middle c (.process p next)).pos q = m.pos q ∨
        (goto middle c (.process p next)).pos q = .forkret ∧ (m.proc q).state = .unused) := by
  by_cases hq : q = p
  · exact .inl ⟨by simp [goto, hq], hq⟩
  · exact .inr ⟨hq, by simpa [goto, hq] using hpos hq⟩

/-- Where the processes are after an operation of `p`: `p` has moved on, and a
new process is at `forkret`. -/
theorem steady_pos (hsteady : Steady m p pc instr) (hperf : perform m c instr = some after) :
    ∃ next, target instr = some next ∧ ∀ q, after.pos q = next ∧ q = p ∨
      q ≠ p ∧ (after.pos q = m.pos q ∨ after.pos q = .forkret ∧ (m.proc q).state = .unused) := by
  cases instr with
  | setCpuProc => exact hsteady.elim
  | toProcess => exact hsteady.elim
  | toScheduler q resume =>
    obtain ⟨rfl, _⟩ := hsteady
    cases hperf
    refine ⟨resume, rfl, fun r => ?_⟩
    by_cases hr : r = q
    · exact .inl ⟨by simp [goto, hr], hr⟩
    · exact .inr ⟨hr, .inl (by simp [goto, hr])⟩
  | write q value next =>
    obtain ⟨_, next, rfl, _⟩ := hsteady
    cases hperf
    exact ⟨next, rfl, fun r => goto_pos _ next r fun _ => .inl rfl⟩
  | allocate q next =>
    obtain ⟨hunused, rfl, _⟩ := hsteady
    cases hperf
    refine ⟨_, rfl, fun r => goto_pos _ _ r fun _ => ?_⟩
    by_cases hr : r = q
    · exact .inr ⟨by simp [setProc, hr], hr ▸ hunused⟩
    · exact .inl (by simp [setProc, hr])
  | die q status next =>
    obtain ⟨rfl, rfl⟩ := hsteady
    cases hperf
    exact ⟨_, rfl, fun r => goto_pos _ _ r fun _ => .inl rfl⟩
  | reap parent q next =>
    obtain ⟨_, rfl, _⟩ := hsteady
    cases hperf
    exact ⟨_, rfl, fun r => goto_pos _ _ r fun _ => .inl rfl⟩
  | acquireProc q next | acquireLock lk next =>
    obtain ⟨next, rfl, _⟩ := hsteady
    simp only [perform, ite_none_right_eq_some, some.injEq] at hperf
    obtain ⟨_, rfl⟩ := hperf
    exact ⟨next, rfl, fun r => goto_pos _ next r fun _ => .inl rfl⟩
  | jump next | newSleep next | releaseProc q next | releaseLock lk next
  | sleepRelease call next | setParent q parent next =>
    obtain ⟨next, rfl, _⟩ := hsteady
    cases hperf
    exact ⟨next, rfl, fun r => goto_pos _ next r fun _ => .inl rfl⟩

theorem steady_thread (hsteady : Steady m p pc instr) (hperf : perform m c instr = some after)
    (htarget : target instr = some next) {q : Fin n} {qpc : Pc n}
    (hthr : (after.cpu c).thread = .process q qpc) : q = p ∧ qpc = next := by
  rw [perform_thread hperf] at hthr
  cases instr with
  | setCpuProc => exact hsteady.elim
  | toProcess => exact hsteady.elim
  | toScheduler => cases hthr
  | write r value after =>
    obtain ⟨_, after, rfl, _⟩ := hsteady
    cases hthr
    cases htarget
    exact ⟨rfl, rfl⟩
  | allocate r after | reap parent r after =>
    obtain ⟨_, rfl, _⟩ := hsteady
    cases hthr
    cases htarget
    exact ⟨rfl, rfl⟩
  | die r status after =>
    obtain ⟨_, rfl⟩ := hsteady
    cases hthr
    cases htarget
    exact ⟨rfl, rfl⟩
  | _ =>
    obtain ⟨after, rfl, _⟩ := hsteady
    cases hthr
    cases htarget
    exact ⟨rfl, rfl⟩

theorem steady_stays (hlegal : Legal (.process p pc) instr)
    (hsteady : Steady m p pc instr) (hperf : perform m c instr = some after)
    (htarget : target instr = some next) :
    (after.cpu c).thread = .process p next ∨ parked next = true := by
  rw [perform_thread hperf]
  cases instr with
  | setCpuProc => exact hsteady.elim
  | toProcess => exact hsteady.elim
  | toScheduler q resume =>
    cases htarget
    exact .inr hlegal.2.2.2
  | write r value after =>
    obtain ⟨_, after, rfl, _⟩ := hsteady
    cases htarget
    exact .inl rfl
  | allocate r after | reap parent r after =>
    obtain ⟨_, rfl, _⟩ := hsteady
    cases htarget
    exact .inl rfl
  | die r status after =>
    obtain ⟨_, rfl⟩ := hsteady
    cases htarget
    exact .inl rfl
  | _ =>
    obtain ⟨after, rfl, _⟩ := hsteady
    cases htarget
    exact .inl rfl

theorem schedInstr_pos (hplace : Placed m) (hthr : (m.cpu c).thread = .scheduler spc)
    (hperf : perform m c (schedInstr m spc) = some after) : after.pos = m.pos := by
  revert hperf
  fun_cases schedInstr m spc <;> intro hperf
  all_goals simp only [perform, ite_none_right_eq_some, some.injEq] at hperf
  all_goals obtain ⟨_, rfl⟩ := hperf
  case case6 p =>
    have hquiet := (hplace.resuming c p (.inr hthr)).2
    obtain ⟨hctx, _⟩ := hplace.stopped p hquiet
    simp [goto, hctx]
  all_goals rfl

theorem schedInstr_proc (hperf : perform m c (schedInstr m spc) = some after) (q : Fin n) :
    after.proc q = m.proc q ∨ (m.proc q).state = .runnable ∧
      after.proc q = { m.proc q with state := .running } := by
  revert hperf
  fun_cases schedInstr m spc <;> intro hperf
  all_goals simp only [perform, ite_none_right_eq_some, some.injEq] at hperf
  all_goals obtain ⟨_, rfl⟩ := hperf
  case case3 p hrunnable =>
    by_cases hq : q = p
    · subst hq
      exact .inr ⟨hrunnable, by simp [goto, setProc]⟩
    · exact .inl (by simp [goto, setProc, hq])
  all_goals exact .inl rfl

/-! ## The two kinds of steps -/

/-- A step of a process, with everything that is known about it. -/
structure ProcessStep (initproc : Fin n) (m after : Machine n C) (c : C)
    (p : Fin n) (pc next : Pc n) (instr : Instr n) : Prop where
  placed : Placed m
  locked : Locked m
  thread : (m.cpu c).thread = .process p pc
  executes : Executes initproc m c p pc instr
  perform : Scheduling.perform m c instr = some after
  target : SchedulingSteps.target instr = some next
  self : after.pos p = next
  others : ∀ q, q ≠ p → after.pos q = m.pos q ∨ after.pos q = .forkret ∧ (m.proc q).state = .unused
  moved : ∀ q qpc, (after.cpu c).thread = .process q qpc → q = p ∧ qpc = next
  stays : (after.cpu c).thread = .process p next ∨ parked next = true
  cpus : ∀ other, other ≠ c → after.cpu other = m.cpu other

theorem ProcessStep.pos (hstep : ProcessStep initproc m after c p pc next instr) : m.pos p = pc :=
  hstep.placed.pos c p pc hstep.thread

theorem ProcessStep.yields (hstep : ProcessStep initproc m after c p pc next instr) :
    YieldsUnlocked p pc :=
  hstep.pos ▸ hstep.placed.yields p

theorem ProcessStep.sleeps (hstep : ProcessStep initproc m after c p pc next instr) :
    SleepsIn p pc :=
  hstep.pos ▸ hstep.placed.sleeps p

/-- A step of a scheduler, with everything that is known about it. -/
structure SchedulerStep (m after : Machine n C) (c : C) : Prop where
  pos : after.pos = m.pos
  proc : ∀ q, after.proc q = m.proc q ∨ (m.proc q).state = .runnable ∧
    after.proc q = { m.proc q with state := .running }
  threads : ∀ cpu p pc, (after.cpu cpu).thread = .process p pc → cpu = c ∨
    (m.cpu cpu).thread = .process p pc
  kept : ∀ cpu p pc, (m.cpu cpu).thread = .process p pc → (after.cpu cpu).thread = .process p pc
  resumed : ∀ p pc, (after.cpu c).thread = .process p pc → parked pc = true
  sleeps : after.sleeps = m.sleeps
  seen : after.seen = m.seen
  released : after.released = m.released
  lock : after.lock = m.lock
  exits : after.exits = m.exits
  reaped : after.reaped = m.reaped

theorem schedInstr_step (hplace : Placed m) (hthr : (m.cpu c).thread = .scheduler spc)
    (hperf : perform m c (schedInstr m spc) = some after) : SchedulerStep m after c := by
  refine ⟨schedInstr_pos hplace hthr hperf, schedInstr_proc hperf,
    fun cpu p pc hcpu => ?_, fun cpu p pc hcpu => ?_, ?_, ?_, ?_, ?_, ?_, ?_, ?_⟩
  · by_cases hc : cpu = c
    · exact .inl hc
    · rw [perform_cpu_other hperf hc] at hcpu
      exact .inr hcpu
  · have hc : cpu ≠ c := by
      intro hc
      rw [hc, hthr] at hcpu
      cases hcpu
    rw [perform_cpu_other hperf hc]
    exact hcpu
  all_goals
    revert hperf
    fun_cases schedInstr m spc <;> intro hperf
    all_goals simp only [perform, ite_none_right_eq_some, some.injEq] at hperf
    all_goals obtain ⟨_, rfl⟩ := hperf
    all_goals try rfl
  all_goals
    intro p pc hcpu
    simp only [goto, update_self] at hcpu
    cases hcpu
  have hquiet := (hplace.resuming c _ (.inr hthr)).2
  obtain ⟨hctx, hparked⟩ := hplace.stopped _ hquiet
  rw [hctx]
  exact hparked

end

theorem exec_cases {initproc : Fin n} {m after : Machine n C}
    {action : C × Choice} (hplace : Placed m) (hlock : Locked m)
    (hexec : exec initproc m action = some (.ok after)) :
    (∃ p pc next instr, ProcessStep initproc m after action.1 p pc next instr) ∨
      SchedulerStep m after action.1 ∧ ∃ spc, (m.cpu action.1).thread = .scheduler spc ∧
          perform m action.1 (schedInstr m spc) = some after := by
  obtain ⟨instr, hperf, ⟨spc, hthr, rfl⟩ | ⟨p, pc, hthr, hexecutes⟩⟩ := exec_ok hexec
  · exact .inr ⟨schedInstr_step hplace hthr hperf, spc, hthr, hperf⟩
  · have hpos := hplace.pos _ p pc hthr
    have hsteady := executes_steady (hpos ▸ hplace.yields p) (hpos ▸ hplace.sleeps p) hexecutes
    obtain ⟨next, htarget, hafter⟩ := steady_pos hsteady hperf
    refine .inl ⟨p, pc, next, instr, hplace, hlock, hthr, hexecutes, hperf,
      htarget, ?_, fun q hq => ?_,
      fun q qpc => steady_thread hsteady hperf htarget,
      steady_stays (executes_legal (hpos ▸ hplace.yields p)
        (hpos ▸ hplace.sleeps p) hexecutes) hsteady hperf htarget,
      fun other ho => perform_cpu_other hperf ho⟩
    · rcases hafter p with ⟨hself, _⟩ | ⟨hne, _⟩
      · exact hself
      · exact absurd rfl hne
    · rcases hafter q with ⟨_, hqp⟩ | ⟨_, hothers⟩
      · exact absurd hqp hq
      · exact hothers

end Xv6.SchedulingSteps
