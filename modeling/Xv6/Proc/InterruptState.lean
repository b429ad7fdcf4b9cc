import Xv6.Core.Interleaving

/-!
# The interrupt state of a kernel thread

`push_off` and `pop_off` of `kernel/spinlock.c`, and `scheduler` and `sched` of
`kernel/proc.c`, for any number of CPUs.  `noff` and `intena` are fields of the CPU but
belong to the thread that runs on it: a process that gives up the CPU keeps `intena` in a
local variable of `sched`, and may continue on another CPU.  `acquire` and `release` are
`push_off` and `pop_off` here, so locks may be released in any order.  Reading the state of
the interrupts and switching them off is one step of `push_off`: a trap between the two
returns with the same state.

A thread also records how many of its `push_off` calls are not undone, and the state of the
interrupts before the outermost of them.
-/

namespace Xv6.InterruptState

open Interleaving Function

inductive Failure where
  /-- "pop_off - interruptible" -/
  | interruptible
  /-- "pop_off" -/
  | popOff
  /-- "sched locks" -/
  | schedLocks
  /-- "sched interruptible" -/
  | schedInterruptible

/-- The fields of `struct cpu`, and whether interrupts are enabled. -/
structure Cpu where
  intr : Bool
  noff : ℕ
  intena : Bool

def pushOff (cpu : Cpu) : Cpu where
  intr := false
  intena := if cpu.noff = 0 then cpu.intr else cpu.intena
  noff := cpu.noff + 1

def popOff (cpu : Cpu) : Except Failure Cpu :=
  if cpu.intr then .error .interruptible
  else if cpu.noff < 1 then .error .popOff
  else .ok { cpu with
    noff := cpu.noff - 1
    intr := decide (cpu.noff - 1 = 0) && cpu.intena }

/-- The checks of `sched`, and the value of its local variable. -/
def sched (cpu : Cpu) : Except Failure Bool :=
  if cpu.noff ≠ 1 then .error .schedLocks
  else if cpu.intr then .error .schedInterruptible
  else .ok cpu.intena

structure Thread where
  depth : ℕ
  /-- Interrupts before the outermost `push_off` of the thread itself. -/
  outer : Option Bool
  /-- The local variable of `sched`. -/
  intena : Bool
  /-- The thread is new and begins in `forkret`. -/
  fresh : Bool

variable {C P : Type}

/-- The threads are the processes and, for each CPU, its scheduler. -/
structure State (C P : Type) where
  cpu : C → Cpu
  running : C → P ⊕ C
  thread : P ⊕ C → Thread

def State.current (s : State C P) (c : C) : Thread := s.thread (s.running c)

def State.Stopped (s : State C P) (x : P ⊕ C) : Prop := ∀ c, s.running c ≠ x

inductive Action (C P : Type) where
  | pushOff (c : C)
  | popOff (c : C)
  /-- `intr_on`, `intr_off`, or the entry to or the return from a trap -/
  | intr (c : C) (enable : Bool)
  | sched (c : C)
  /-- The scheduler switches to a process. -/
  | swtch (c : C) (p : P)
  /-- A process has ended and its slot is used for a new one. -/
  | restart (p : P)

/-- How threads use the calls: `pop_off` undoes a `push_off`, interrupts are switched only
outside of them, `sched` is called with `p->lock` alone, and the scheduler holds the lock of
a process that it switches to. -/
def Allowed (s : State C P) : Action C P → Prop
  | .pushOff _ => True
  | .popOff c => 0 < (s.current c).depth
  | .intr c _ => (s.current c).depth = 0
  | .sched c => (s.current c).depth = 1
  | .swtch c p => s.running c = .inr c ∧ (s.current c).depth = 1 ∧ s.Stopped (.inl p)
  | .restart p => s.Stopped (.inl p)

variable [DecidableEq C] [DecidableEq P]

def State.set (s : State C P) (c : C) (cpu : Cpu) (t : Thread) : State C P :=
  { s with
    cpu := update s.cpu c cpu
    thread := update s.thread (s.running c) t }

/-- The state before its `push_off` is recorded for a process only: what the scheduler finds
in `intena` is what the last process has left there. -/
def exec : System (State C P) (Action C P) Failure
  | s, .pushOff c =>
    let t := s.current c
    some (.ok (s.set c (pushOff (s.cpu c)) { t with
      depth := t.depth + 1
      outer := if t.depth = 0 then some (s.cpu c).intr else t.outer }))
  | s, .popOff c =>
    let t := s.current c
    some ((popOff (s.cpu c)).map fun cpu => s.set c cpu { t with depth := t.depth - 1 })
  | s, .intr c enable => some (.ok (s.set c { s.cpu c with intr := enable } (s.current c)))
  | s, .sched c =>
    match s.running c with
    | .inr _ => none
    | .inl p => some ((sched (s.cpu c)).map fun intena => { s with
        running := update s.running c (.inr c)
        thread := update s.thread (.inl p) { s.thread (.inl p) with intena := intena } })
  | s, .swtch c p =>
    let t := s.thread (.inl p)
    some (.ok {
      running := update s.running c (.inl p)
      cpu := update s.cpu c
        { s.cpu c with intena := if t.fresh then (s.cpu c).intena else t.intena }
      thread := update
        (update s.thread (.inr c) { s.thread (.inr c) with outer := none }) (.inl p)
        (if t.fresh then { t with depth := 1, outer := none, fresh := false } else t) })
  | s, .restart p =>
    some (.ok { s with
      thread := update s.thread (.inl p) { s.thread (.inl p) with fresh := true } })

/-- Every CPU is in its scheduler and every process is new. -/
structure Initial (s : State C P) : Prop where
  running : ∀ c, s.running c = .inr c
  cpu : ∀ c, (s.cpu c).noff = 0
  scheduler : ∀ c, (s.thread (.inr c)).depth = 0
  process : ∀ p, (s.thread (.inl p)).fresh = true

/-! ## The invariant -/

/-- The fields of a CPU are those of the thread on it. -/
structure Runs (cpu : Cpu) (t : Thread) : Prop where
  depth : cpu.noff = t.depth
  off : 0 < cpu.noff → cpu.intr = false
  outer : ∀ b, t.outer = some b → 0 < t.depth → cpu.intena = b

/-- A process that has called `sched` has kept its `intena`. -/
def Rests : P ⊕ C → Thread → Prop
  | .inl _, t => t.fresh = true ∨ t.depth = 1 ∧ ∀ b, t.outer = some b → t.intena = b
  | .inr _, t => t.depth = 1 ∧ t.outer = none

structure Sound (s : State C P) : Prop where
  runs : ∀ c, Runs (s.cpu c) (s.current c)
  injective : s.running.Injective
  own : ∀ c other, s.running c = .inr other → other = c
  rests : ∀ x, s.Stopped x → Rests x (s.thread x)

variable {s after : State C P} {c : C} {cpu : Cpu} {t : Thread}

theorem Sound.switch (hsound : Sound s) {x : P ⊕ C} {thread : P ⊕ C → Thread}
    (hfree : ∀ other, other ≠ c → s.running other ≠ x) (hown : ∀ other, x = .inr other → other = c)
    (hruns : Runs cpu (thread x))
    (hrests : s.running c ≠ x → Rests (s.running c) (thread (s.running c)))
    (hothers : ∀ y, y ≠ x → y ≠ s.running c → thread y = s.thread y) :
    Sound ⟨update s.cpu c cpu, update s.running c x, thread⟩ := by
  constructor
  · intro other
    unfold State.current
    by_cases ho : other = c
    · subst ho
      simpa only [update_self] using hruns
    · simp only [update_of_ne ho]
      rw [hothers _ (hfree other ho) (fun heq => ho (hsound.injective heq))]
      exact hsound.runs other
  · intro first second heq
    dsimp only at heq
    by_cases hfst : first = c <;> by_cases hsnd : second = c
    · rw [hfst, hsnd]
    · rw [hfst, update_self, update_of_ne hsnd] at heq
      exact absurd heq.symm (hfree second hsnd)
    · rw [hsnd, update_self, update_of_ne hfst] at heq
      exact absurd heq (hfree first hfst)
    · rw [update_of_ne hfst, update_of_ne hsnd] at heq
      exact hsound.injective heq
  · intro first other heq
    dsimp only at heq
    by_cases hfst : first = c
    · rw [hfst, update_self] at heq
      exact (hown other heq).trans hfst.symm
    · rw [update_of_ne hfst] at heq
      exact hsound.own first other heq
  · intro y hstopped
    unfold State.Stopped at hstopped
    dsimp only at hstopped ⊢
    have hx : y ≠ x := fun heq => hstopped c (by rw [heq, update_self])
    by_cases hold : y = s.running c
    · rw [hold]
      exact hrests (hold ▸ hx)
    · rw [hothers y hx hold]
      refine hsound.rests y fun other ho => ?_
      by_cases hc : other = c
      · exact hold (by rw [← ho, hc])
      · exact hstopped other (by rw [update_of_ne hc, ho])

theorem Sound.set (hsound : Sound s) (hruns : Runs cpu t) : Sound (s.set c cpu t) := by
  have hswitch : Sound ⟨update s.cpu c cpu,
      update s.running c (s.running c),
      update s.thread (s.running c) t⟩ := hsound.switch
    (fun other ho heq => ho (hsound.injective heq)) (hsound.own c)
    (by rwa [update_self]) (fun h => absurd rfl h)
    (fun y hy _ => update_of_ne hy _ _)
  rwa [update_eq_self] at hswitch

theorem Runs.pushOff (hruns : Runs cpu t) :
    Runs (pushOff cpu) { t with
      depth := t.depth + 1
      outer := if t.depth = 0 then some cpu.intr else t.outer } where
  depth := congrArg (· + 1) hruns.depth
  off _ := rfl
  outer b hb _ := by
    unfold InterruptState.pushOff
    by_cases hzero : t.depth = 0
    · simp only [hzero, if_true, Option.some.injEq] at hb
      simp [hruns.depth, hzero, hb]
    · simp only [hzero, if_false] at hb
      simp [hruns.depth, hzero, hruns.outer b hb (Nat.pos_of_ne_zero hzero)]

/-- Neither panic of `pop_off` is possible, and the outermost one restores the interrupts. -/
theorem Runs.popOff (hruns : Runs cpu t) (hdepth : 0 < t.depth) :
    ∃ after, popOff cpu = .ok after ∧ Runs after { t with depth := t.depth - 1 } ∧
        (t.depth = 1 → ∀ b, t.outer = some b → after.intr = b) := by
  have hnoff : 0 < cpu.noff := hruns.depth ▸ hdepth
  have hpop : InterruptState.popOff cpu = .ok { cpu with
      noff := cpu.noff - 1
      intr := decide (cpu.noff - 1 = 0) && cpu.intena } := by
    rw [InterruptState.popOff, if_neg (by rw [hruns.off hnoff]; exact Bool.false_ne_true),
      if_neg (by omega)]
  refine ⟨_, hpop, ⟨?_, ?_, ?_⟩, ?_⟩
  · exact congrArg (· - 1) hruns.depth
  · intro hmore
    simp only [Bool.and_eq_false_iff, decide_eq_false_iff_not]
    exact .inl (Nat.ne_of_gt hmore)
  · intro b hb _
    exact hruns.outer b hb hdepth
  · intro hone b hb
    simp [hruns.depth, hone, hruns.outer b hb hdepth]

theorem Runs.sched (hruns : Runs cpu t) (hdepth : t.depth = 1) : sched cpu = .ok cpu.intena := by
  have hnoff : cpu.noff = 1 := hruns.depth.trans hdepth
  rw [InterruptState.sched, if_neg (not_not.mpr hnoff),
    if_neg (by rw [hruns.off (by omega)]; exact Bool.false_ne_true)]

theorem Sound.exec (hsound : Sound s) {action : Action C P} (hallow : Allowed s action)
    (hexec : exec s action = some (.ok after)) : Sound after := by
  cases action with
  | pushOff c =>
    cases hexec
    exact hsound.set (hsound.runs c).pushOff
  | popOff c =>
    obtain ⟨cpu, hpop, hruns, -⟩ := (hsound.runs c).popOff hallow
    rw [InterruptState.exec, hpop] at hexec
    cases hexec
    exact hsound.set hruns
  | intr c enable =>
    cases hexec
    have hruns := hsound.runs c
    have hzero : (s.cpu c).noff = 0 := hruns.depth.trans hallow
    exact hsound.set ⟨hruns.depth, fun h => absurd hzero (Nat.ne_of_gt h), hruns.outer⟩
  | sched c =>
    have hruns := hsound.runs c
    cases hrun : s.running c with
    | inr other => simp [InterruptState.exec, hrun] at hexec
    | inl p =>
      simp only [InterruptState.exec, hrun, hruns.sched hallow] at hexec
      cases hexec
      rw [Allowed, State.current, hrun] at hallow
      rw [State.current, hrun] at hruns
      -- The scheduler of the CPU rests, so it has the one `push_off` to undo.
      have hfree : ∀ other, s.running other ≠ .inr c := by
        intro other heq
        have hc := hsound.own other c heq
        rw [← hc, hrun] at heq
        cases heq
      obtain ⟨hdepth, houter⟩ := hsound.rests (.inr c) hfree
      have hswitch : Sound ⟨update s.cpu c (s.cpu c),
          update s.running c (.inr c), update s.thread (.inl p)
            { s.thread (.inl p) with intena := (s.cpu c).intena }⟩ := hsound.switch
        (fun other _ => hfree other) (fun other heq => (Sum.inr.inj heq).symm)
        ⟨by simpa [hdepth] using hruns.depth.trans hallow, hruns.off, by simp [houter]⟩
        (fun _ => by
          rw [hrun, update_self]
          exact .inr ⟨hallow, fun b hb => hruns.outer b hb (by omega)⟩)
        (fun y _ hy => update_of_ne (by rwa [hrun] at hy) _ _)
      rwa [update_eq_self] at hswitch
  | swtch c p =>
    obtain ⟨hrun, hdepth, hstopped⟩ := hallow
    cases hexec
    have hruns := hsound.runs c
    have hnoff : (s.cpu c).noff = 1 := hruns.depth.trans hdepth
    rw [State.current, hrun] at hdepth
    refine hsound.switch (fun other _ => hstopped other) nofun ?_ (fun _ => ?_) (fun y hp hc => ?_)
    · rw [update_self]
      cases hfresh : (s.thread (.inl p)).fresh with
      | false =>
        obtain ⟨hone, hkept⟩ := (hsound.rests _ hstopped).resolve_left (by simp [hfresh])
        exact ⟨hnoff.trans hone.symm, hruns.off, fun b hb _ => hkept b hb⟩
      | true => exact ⟨hnoff, hruns.off, nofun⟩
    · rw [hrun, update_of_ne Sum.inr_ne_inl, update_self]
      exact ⟨hdepth, rfl⟩
    · rw [hrun] at hc
      rw [update_of_ne hp, update_of_ne hc]
  | restart p =>
    cases hexec
    constructor
    · intro c
      unfold State.current
      dsimp only
      rw [update_of_ne (hallow c)]
      exact hsound.runs c
    · exact hsound.injective
    · exact hsound.own
    · intro x hstopped
      dsimp only
      by_cases hx : x = .inl p
      · subst hx
        exact .inl (by rw [update_self])
      · rw [update_of_ne hx]
        exact hsound.rests x hstopped

omit [DecidableEq C] [DecidableEq P] in
theorem Initial.sound (hinit : Initial s) : Sound s := by
  have hscheduler (c : C) : (s.current c).depth = 0 := by
    rw [State.current, hinit.running, hinit.scheduler]
  constructor
  · intro c
    exact ⟨(hinit.cpu c).trans (hscheduler c).symm,
      fun h => absurd (hinit.cpu c) (Nat.ne_of_gt h),
      fun _ _ h => absurd (hscheduler c) (Nat.ne_of_gt h)⟩
  · intro first second heq
    simpa [hinit.running] using heq
  · intro c other heq
    simpa [hinit.running, eq_comm] using heq
  · rintro (p | c) hstopped
    · exact .inl (hinit.process p)
    · exact absurd (hinit.running c) (hstopped c)

/-- In every run: interrupts are off where `noff` is positive, `noff` is the depth of the
running thread, no call panics, and the outermost `pop_off` of a process gives it back the
interrupts that it had before. -/
theorem interrupts_restored (hreachable : Reachable exec Allowed Initial s) :
    (∀ c, 0 < (s.cpu c).noff → (s.cpu c).intr = false) ∧
    (∀ c, (s.cpu c).noff = (s.current c).depth) ∧
    (∀ action failure, Allowed s action → exec s action ≠ some (.error failure)) ∧
    ∀ c p b after, s.running c = .inl p → (s.thread (.inl p)).depth = 1 →
      (s.thread (.inl p)).outer = some b → exec s (.popOff c) = some (.ok after) →
      (after.cpu c).intr = b ∧ (after.thread (.inl p)).depth = 0 := by
  have hsound : Sound s := hreachable.invariant (fun _ hinitial => hinitial.sound)
    fun _ _ _ hsound hallowed hexec => hsound.exec hallowed hexec
  refine ⟨fun c => (hsound.runs c).off, fun c => (hsound.runs c).depth, ?_, ?_⟩
  · intro action failure hallowed hexec
    cases action with
    | popOff c =>
      obtain ⟨cpu, hpop, -⟩ := (hsound.runs c).popOff hallowed
      rw [InterruptState.exec, hpop] at hexec
      cases hexec
    | sched c =>
      rw [InterruptState.exec] at hexec
      cases hrunning : s.running c with
      | inr other => simp [hrunning] at hexec
      | inl p =>
        simp only [hrunning, (hsound.runs c).sched hallowed] at hexec
        cases hexec
    | pushOff | intr | swtch | restart => cases hexec
  · intro c p b after hrunning hdepth houter hexec
    have hcurrent : s.current c = s.thread (.inl p) := by rw [State.current, hrunning]
    obtain ⟨cpu, hpop, -, hback⟩ := (hsound.runs c).popOff (by rw [hcurrent]; omega)
    rw [InterruptState.exec, hpop] at hexec
    cases hexec
    rw [hcurrent] at hback
    simp only [State.set, hrunning, update_self, hcurrent, hdepth]
    exact ⟨hback hdepth b houter, trivial⟩

def boot : State Bool Unit where
  cpu _ := ⟨true, 0, false⟩
  running := .inr
  thread _ := ⟨0, none, false, true⟩

/-- The process leaves `forkret`, enables interrupts and gives up its CPU; it continues on the
other one. -/
theorem interrupts_restored_moved : ∃ s : State Bool Unit,
    Reachable exec Allowed Initial s ∧ s.running true = .inl () ∧ (s.cpu true).intr = false ∧
      ∀ after, exec s (.popOff true) = some (.ok after) → (after.cpu true).intr = true := by
  have hboot : Reachable exec Allowed Initial boot :=
    .start ⟨fun _ => rfl, fun _ => rfl, fun _ => rfl, fun _ => rfl⟩
  have hacquire := hboot.next (show Allowed _ (.pushOff false) from trivial) rfl
  have hswtch := hacquire.next
    (show Allowed _ (.swtch false ()) from ⟨rfl, rfl, fun _ => Sum.inr_ne_inl⟩) rfl
  have hrelease := hswtch.next (show Allowed _ (.popOff false) from Nat.one_pos) rfl
  have hon := hrelease.next (show Allowed _ (.intr false true) from rfl) rfl
  have hyield := hon.next (show Allowed _ (.pushOff false) from trivial) rfl
  have hsched := hyield.next (show Allowed _ (.sched false) from rfl) rfl
  have hother := hsched.next (show Allowed _ (.pushOff true) from trivial) rfl
  have hmoved := hother.next
    (show Allowed _ (.swtch true ()) from ⟨rfl, rfl, by intro c; cases c <;> exact Sum.inr_ne_inl⟩)
    rfl
  refine ⟨_, hmoved, rfl, rfl, fun after hexec => ?_⟩
  exact ((interrupts_restored hmoved).2.2.2 true () true after rfl rfl rfl hexec).1

end Xv6.InterruptState
