import Xv6.Proc.ExitWait

/-!
# Exit statuses and freed slots

Every exit is numbered.  A zombie carries the number, the pid and the status of an
exit that no `wait` has returned; a slot is freed under its lock, from a zombie or
from a slot that was free when the lock was acquired.
-/

namespace Xv6.ExitStatus

open Interleaving LockTable Scheduling SchedulingLocks List Nat Option RunningProcess
open SchedulingSteps SleepWakeup WaitSleep ExitWait

variable {n : ℕ} {C : Type} [DecidableEq C]
variable {q : Fin n} {spc : SchedPc n} {action : C × Choice}

/-! ## The exits -/

structure Ledger (m : Machine n C) : Prop where
  bounded : ∀ e ∈ m.exits, e.id < m.exits.length
  distinct : (m.exits.map Exit.id).Nodup
  zombie : ∀ q, (m.proc q).state = .zombie →
    ⟨(m.proc q).exitId, (m.proc q).pid, (m.proc q).xstate⟩ ∈ m.exits
  unreaped : ∀ q, (m.proc q).state = .zombie → (m.proc q).exitId ∉ m.reaped.map Reaped.exitId
  zombies : ∀ q r, (m.proc q).state = .zombie → (m.proc r).state = .zombie →
    (m.proc q).exitId = (m.proc r).exitId → q = r
  reaped : ∀ r ∈ m.reaped, ⟨r.exitId, r.pid, r.status⟩ ∈ m.exits
  once : (m.reaped.map Reaped.exitId).Nodup

section
variable {initproc : Fin n} {m after : Machine n C} {c : C} {p : Fin n}
  {pc next : Pc n} {instr : Instr n}

theorem executes_exit (hexecutes : Executes initproc m c p pc instr) :
    (∀ q status cont, instr = .die q status cont → q = p ∧ pc = .exitSetState status) ∧
    (∀ parent q cont, instr = .reap parent q cont →
      parent = p ∧ pc = .waitTest q ∧ (m.proc q).state = .zombie) ∧
    ∀ status, pc = .exitSetState status → ∃ cont, instr = .die p status cont := by
  rcases hexecutes with ⟨good, hinstr⟩ | ⟨hintr, rfl⟩ | ⟨held, choice, rfl, hcall⟩
  · revert hinstr
    fun_cases procInstr initproc m c p good pc <;> intro hinstr
    all_goals try simp only [some.injEq, Except.ok.injEq, reduceCtorEq] at hinstr
    all_goals try have hinstr := sched_ok hinstr
    all_goals try subst hinstr
    all_goals try (refine ⟨fun _ _ _ h => ?_, fun _ _ _ h => ?_, fun _ h => ?_⟩ <;> (cases h; done))
    all_goals simp_all
  · refine ⟨by simp, by simp, fun status hpc => ?_⟩
    simp [hpc, interruptible, heldProc] at hintr
  · revert hcall
    fun_cases call initproc m p held choice <;> intro hcall
    all_goals try simp only [some.injEq, Except.ok.injEq, reduceCtorEq] at hcall
    all_goals try subst hcall
    all_goals simp

theorem perform_ledger (hperf : perform m c instr = some after) :
    (after.exits = m.exits ∧ after.reaped = m.reaped) ∨
      (∃ q status cont, instr = .die q status cont) ∨
      ∃ parent q cont, instr = .reap parent q cont := by
  cases instr <;> simp only [perform, ite_none_right_eq_some, some.injEq] at hperf
  all_goals obtain ⟨_, rfl⟩ := hperf
  case die q status next => exact .inr (.inl ⟨q, status, next, rfl⟩)
  case reap parent q next => exact .inr (.inr ⟨parent, q, next, rfl⟩)
  all_goals exact .inl ⟨rfl, rfl⟩

theorem zombie_record (hstep : ProcessStep initproc m after c p pc next instr)
    (hzombie : (after.proc q).state = .zombie)
    (hexit : ∀ status, q = p → pc ≠ .exitSetState status) :
    (m.proc q).state = .zombie ∧ (after.proc q).exitId = (m.proc q).exitId ∧
      (after.proc q).pid = (m.proc q).pid ∧ (after.proc q).xstate = (m.proc q).xstate := by
  have hchange := executes_change hstep.executes hstep.perform q
  generalize after.proc q = value at hchange hzombie ⊢
  cases hchange with
  | kill pid held hpc =>
    by_cases hsleep : (m.proc q).state = .sleeping
    · simp [hsleep] at hzombie
    · exact ⟨by simpa [hsleep] using hzombie, rfl, rfl, rfl⟩
  | die status hq hpc => exact absurd hpc (hexit status hq)
  | same | setChan | clearChan | adopt | inherits | stop => exact ⟨hzombie, rfl, rfl, rfl⟩
  | abandon => simp [freed] at hzombie
  | reap => simp [freed] at hzombie
  | _ => simp at hzombie

omit [DecidableEq C] in
theorem Ledger.keep (hled : Ledger m) (hexits : after.exits = m.exits)
    (hreaped : after.reaped = m.reaped) (hrecord : ∀ q, (after.proc q).state = .zombie →
      (m.proc q).state = .zombie ∧ (after.proc q).exitId = (m.proc q).exitId ∧
        (after.proc q).pid = (m.proc q).pid ∧
        (after.proc q).xstate = (m.proc q).xstate) : Ledger after := by
  refine ⟨?_, ?_, ?_, ?_, ?_, ?_, ?_⟩
  · rw [hexits]
    exact hled.bounded
  · rw [hexits]
    exact hled.distinct
  · intro q hq
    obtain ⟨hzombie, hid, hpid, hstatus⟩ := hrecord q hq
    rw [hexits, hid, hpid, hstatus]
    exact hled.zombie q hzombie
  · intro q hq
    obtain ⟨hzombie, hid, _⟩ := hrecord q hq
    rw [hreaped, hid]
    exact hled.unreaped q hzombie
  · intro q r hq hr hsame
    obtain ⟨hq, hqid, _⟩ := hrecord q hq
    obtain ⟨hr, hrid, _⟩ := hrecord r hr
    exact hled.zombies q r hq hr (by rw [← hqid, ← hrid]; exact hsame)
  · rw [hexits, hreaped]
    exact hled.reaped
  · rw [hreaped]
    exact hled.once

omit [DecidableEq C] in
theorem Ledger.die (hled : Ledger m) {status : ℤ}
    (hexits : after.exits = ⟨m.exits.length, (m.proc p).pid, status⟩ :: m.exits)
    (hreaped : after.reaped = m.reaped)
    (hself : after.proc p = { m.proc p with
      xstate := status, state := .zombie, exitId := m.exits.length })
    (hothers : ∀ q, q ≠ p → after.proc q = m.proc q) : Ledger after := by
  have hfresh : m.exits.length ∉ m.exits.map Exit.id := by
    intro hmem
    obtain ⟨e, he, hid⟩ := mem_map.mp hmem
    exact absurd (hled.bounded e he) (by omega)
  have hzombieId : ∀ q, (m.proc q).state = .zombie →
      (m.proc q).exitId ∈ m.exits.map Exit.id := fun q hq =>
    mem_map.mpr ⟨_, hled.zombie q hq, rfl⟩
  refine ⟨?_, ?_, ?_, ?_, ?_, ?_, ?_⟩
  · intro e he
    rw [hexits, mem_cons] at he
    rw [hexits, length_cons]
    rcases he with rfl | he
    · exact lt_succ_self _
    · exact lt_succ_of_lt (hled.bounded e he)
  · rw [hexits, map_cons, nodup_cons]
    exact ⟨hfresh, hled.distinct⟩
  · intro q hq
    rw [hexits]
    by_cases hqp : q = p
    · rw [hqp, hself]
      exact mem_cons_self
    · rw [hothers q hqp] at hq ⊢
      exact mem_cons_of_mem _ (hled.zombie q hq)
  · intro q hq
    rw [hreaped]
    by_cases hqp : q = p
    · rw [hqp, hself]
      intro hmem
      obtain ⟨r, hr, hid⟩ := mem_map.mp hmem
      have hbound := hled.bounded _ (hled.reaped r hr)
      change r.exitId < _ at hbound
      change r.exitId = m.exits.length at hid
      omega
    · rw [hothers q hqp] at hq ⊢
      exact hled.unreaped q hq
  · intro q r hq hr hsame
    by_cases hqp : q = p <;> by_cases hrp : r = p
    · rw [hqp, hrp]
    · rw [hothers r hrp] at hr hsame
      rw [hqp, hself] at hsame
      change m.exits.length = (m.proc r).exitId at hsame
      exact absurd (hsame ▸ hzombieId r hr) hfresh
    · rw [hothers q hqp] at hq hsame
      rw [hrp, hself] at hsame
      change (m.proc q).exitId = m.exits.length at hsame
      exact absurd (hsame ▸ hzombieId q hq) hfresh
    · rw [hothers q hqp] at hq hsame
      rw [hothers r hrp] at hr hsame
      exact hled.zombies q r hq hr hsame
  · intro r hr
    rw [hexits]
    rw [hreaped] at hr
    exact mem_cons_of_mem _ (hled.reaped r hr)
  · rw [hreaped]
    exact hled.once

omit [DecidableEq C] in
theorem Ledger.reap (hled : Ledger m) (parent : Fin n)
    (hzombie : (m.proc q).state = .zombie) (hexits : after.exits = m.exits)
    (hreaped : after.reaped = ⟨parent, (m.proc q).pid, (m.proc q).xstate,
      (m.proc q).exitId⟩ :: m.reaped) (hself : after.proc q = freed (m.proc q))
    (hothers : ∀ r, r ≠ q → after.proc r = m.proc r) : Ledger after := by
  have hnot : ∀ r, (after.proc r).state = .zombie → r ≠ q := by
    intro r hr hrq
    rw [hrq, hself] at hr
    simp [freed] at hr
  refine ⟨?_, ?_, ?_, ?_, ?_, ?_, ?_⟩
  · rw [hexits]
    exact hled.bounded
  · rw [hexits]
    exact hled.distinct
  · intro r hr
    have hrq := hnot r hr
    rw [hothers r hrq] at hr ⊢
    rw [hexits]
    exact hled.zombie r hr
  · intro r hr
    have hrq := hnot r hr
    rw [hothers r hrq] at hr ⊢
    rw [hreaped, map_cons, mem_cons, not_or]
    exact ⟨fun hid => hrq (hled.zombies r q hr hzombie hid), hled.unreaped r hr⟩
  · intro r s hr hs hsame
    have hrq := hnot r hr
    have hsq := hnot s hs
    rw [hothers r hrq] at hr hsame
    rw [hothers s hsq] at hs hsame
    exact hled.zombies r s hr hs hsame
  · intro r hr
    rw [hexits]
    rw [hreaped, mem_cons] at hr
    rcases hr with rfl | hr
    · exact hled.zombie q hzombie
    · exact hled.reaped r hr
  · rw [hreaped, map_cons, nodup_cons]
    exact ⟨hled.unreaped q hzombie, hled.once⟩

theorem Ledger.process (hled : Ledger m)
    (hstep : ProcessStep initproc m after c p pc next instr) : Ledger after := by
  obtain ⟨hdie, hreap, hexit⟩ := executes_exit hstep.executes
  have hperf := hstep.perform
  rcases perform_ledger hperf with ⟨hexits, hreaped⟩ | ⟨q, status, cont, hinstr⟩ |
    ⟨parent, q, cont, hinstr⟩
  · refine hled.keep hexits hreaped fun q hq => ?_
    refine zombie_record hstep hq fun status hqp hpc => ?_
    obtain ⟨cont, hinstr⟩ := hexit status hpc
    subst hinstr
    cases hperf
    exact absurd hexits (cons_ne_self _ _)
  · obtain ⟨rfl, hpc⟩ := hdie q status cont hinstr
    subst hinstr
    cases hperf
    exact hled.die rfl rfl (by simp [goto, setProc]) fun r hr => by simp [goto, setProc, hr]
  · obtain ⟨rfl, hpc, hzombie⟩ := hreap parent q cont hinstr
    subst hinstr
    cases hperf
    exact hled.reap parent hzombie rfl rfl (by simp [goto, setProc])
      fun r hr => by simp [goto, setProc, hr]

omit [DecidableEq C] in
theorem Ledger.scheduler (hled : Ledger m) (hstep : SchedulerStep m after c) : Ledger after := by
  refine hled.keep hstep.exits hstep.reaped fun q hq => ?_
  rcases hstep.proc q with hsame | ⟨_, hrun⟩
  · rw [hsame] at hq ⊢
    exact ⟨hq, rfl, rfl, rfl⟩
  · rw [hrun] at hq
    cases hq

/-! ## Sections of a process lock -/

/-- What a section of the lock of a process knows about the slot. -/
structure Sections (m : Machine n C) : Prop where
  tested : ∀ c p q, (m.cpu c).thread = .process p (.allocTest q) ∨
    (m.cpu c).thread = .process p (.waitTest q) → m.before q = (m.proc q).state
  built : ∀ c p q, (m.cpu c).thread = .process p (.forkBuild q) → m.before q = .unused
  freed : ∀ q, m.plock q ≠ none → (m.proc q).state = .unused →
    m.before q = .unused ∨ m.before q = .zombie

theorem perform_before (hperf : perform m c instr = some after) (q : Fin n) :
    (after.before q = m.before q ∧ ∀ cont, instr ≠ .acquireProc q cont) ∨
      (m.plock q = none ∧ after.before q = (m.proc q).state ∧
        after.proc = m.proc ∧ ∃ cont, instr = .acquireProc q cont) := by
  cases instr <;> simp only [perform, ite_none_right_eq_some, some.injEq] at hperf
  all_goals obtain ⟨_, rfl⟩ := hperf
  case acquireProc r next hfree =>
    by_cases hq : q = r
    · subst hq
      exact .inr ⟨hfree, by simp [goto], rfl, next, rfl⟩
    · refine .inl ⟨by simp [goto, hq], fun cont hinstr => ?_⟩
      cases hinstr
      exact hq rfl
  all_goals exact .inl ⟨rfl, by simp⟩

theorem perform_plock (hperf : perform m c instr = some after)
    (hheld : after.plock q ≠ none) : m.plock q ≠ none ∨ ∃ cont, instr = .acquireProc q cont := by
  cases instr <;> simp only [perform, ite_none_right_eq_some, some.injEq] at hperf
  all_goals obtain ⟨_, rfl⟩ := hperf
  case acquireProc r next hfree =>
    by_cases hq : q = r
    · subst hq
      exact .inr ⟨next, rfl⟩
    · exact .inl (by simpa [goto, hq] using hheld)
  case releaseProc r next =>
    by_cases hq : q = r
    · simp [goto, hq] at hheld
    · exact .inl (by simpa [goto, hq] using hheld)
  all_goals exact .inl hheld

theorem state_kept (hstep : ProcessStep initproc m after c p pc next instr)
    (hlock : heldProc p pc ≠ some q) : (after.proc q).state = (m.proc q).state := by
  have hchange := executes_change hstep.executes hstep.perform q
  generalize after.proc q = value at hchange ⊢
  cases hchange with
  | yield ret hq hpc | sleep k hq hpc
  | die status hq hpc => simp [hpc, heldProc, hq] at hlock
  | wake w hpc | kill pid held hpc | allocate hpc | abandon hpc | ready hpc
  | reap hpc => simp [hpc, heldProc] at hlock
  | _ => rfl

theorem executes_tested (hyields : YieldsUnlocked p pc)
    (hexecutes : Executes initproc m c p pc instr) (htarget : target instr = some next)
    {q : Fin n} :
    (next = .allocTest q ∨ next = .waitTest q → ∃ cont, instr = .acquireProc q cont) ∧
    (next = .forkBuild q → pc = .allocTest q ∧ (m.proc q).state = .unused) := by
  rcases hexecutes with ⟨good, hinstr⟩ | ⟨hintr, rfl⟩ | ⟨held, choice, rfl, hcall⟩
  · revert hinstr
    fun_cases procInstr initproc m c p good pc <;> intro hinstr
    all_goals try simp only [some.injEq, Except.ok.injEq, reduceCtorEq] at hinstr
    all_goals try have hinstr := sched_ok hinstr
    all_goals try subst hinstr
    all_goals simp only [target, some.injEq] at htarget
    all_goals subst htarget
    case case5 ret =>
      obtain ⟨hproc, _, _⟩ := hyields
      refine ⟨?_, ?_⟩
      · rintro (rfl | rfl) <;> simp [heldProc] at hproc
      · rintro rfl
        simp [heldProc] at hproc
    case case13 k =>
      unfold sleepReturn
      split <;> simp
    case case16 w _ _ =>
      unfold wakeReturn
      split <;> simp
    case case28 r hunused =>
      refine ⟨by simp, fun hbuild => ?_⟩
      cases hbuild
      exact ⟨rfl, hunused⟩
    all_goals simp
  · cases htarget
    simp
  · revert hcall
    fun_cases call initproc m p held choice <;> intro hcall
    all_goals try simp only [some.injEq, Except.ok.injEq, reduceCtorEq] at hcall
    all_goals try subst hcall
    all_goals simp only [target, some.injEq] at htarget
    all_goals subst htarget
    all_goals simp

theorem Sections.process (hsections : Sections m)
    (hstep : ProcessStep initproc m after c p pc next instr) : Sections after := by
  have hperf := hstep.perform
  -- Another CPU that holds a process lock sees no change.
  have ho : ∀ cpu q, cpu ≠ c → threadProc (m.cpu cpu).thread = some q →
      after.before q = m.before q ∧ (after.proc q).state = (m.proc q).state := by
    intro cpu q hcpu hheld
    refine ⟨?_, state_kept hstep fun hp => ?_⟩
    · rcases perform_before hperf q with ⟨hsame, _⟩ | ⟨hfree, _⟩
      · exact hsame
      · exact absurd hheld (@Agrees.free _ _ _ _ hstep.locked.proc cpu q hfree)
    · refine hcpu (hstep.locked.proc.unique hheld
        (show threadProc (m.cpu c).thread = some q from ?_))
      rw [hstep.thread]
      exact hp
  have hnext := fun q => @executes_tested n C _ initproc m c p pc next instr
    hstep.yields hstep.executes hstep.target q
  refine ⟨?_, ?_, ?_⟩
  · intro cpu r q hthr
    by_cases hc : cpu = c
    · subst hc
      have htest : next = .allocTest q ∨ next = .waitTest q := by
        rcases hthr with hthr | hthr
        · exact .inl (hstep.moved r _ hthr).2.symm
        · exact .inr (hstep.moved r _ hthr).2.symm
      obtain ⟨cont, hinstr⟩ := (hnext q).1 htest
      rcases perform_before hperf q with ⟨_, hnot⟩ | ⟨_, hbefore, hproc, _⟩
      · exact absurd hinstr (hnot cont)
      · rw [hbefore, hproc]
    · rw [hstep.cpus cpu hc] at hthr
      obtain ⟨hbefore, hstate⟩ := ho cpu q hc (by
        rcases hthr with hthr | hthr <;> rw [hthr] <;> rfl)
      rw [hbefore, hstate]
      exact hsections.tested cpu r q hthr
  · intro cpu r q hthr
    by_cases hc : cpu = c
    · subst hc
      obtain ⟨hpc, hunused⟩ := (hnext q).2 (hstep.moved r _ hthr).2.symm
      have hbefore := hsections.tested cpu p q (.inl (by rw [hstep.thread, hpc]))
      rcases perform_before hperf q with ⟨hsame, _⟩ | ⟨hfree, _⟩
      · rw [hsame, hbefore, hunused]
      · refine absurd ?_ (@Agrees.free _ _ _ _ hstep.locked.proc cpu q hfree)
        rw [hstep.thread, hpc]
        rfl
    · rw [hstep.cpus cpu hc] at hthr
      obtain ⟨hbefore, _⟩ := ho cpu q hc (by rw [hthr]; rfl)
      rw [hbefore]
      exact hsections.built cpu r q hthr
  · intro q hheld hunused
    rcases perform_before hperf q with ⟨hsame, hnot⟩ | ⟨_, hbefore, hproc, _⟩
    · rw [hsame]
      have hwasHeld : m.plock q ≠ none := by
        rcases perform_plock hperf hheld with hheld | ⟨cont, hinstr⟩
        · exact hheld
        · exact absurd hinstr (hnot cont)
      have hchange := executes_change hstep.executes hperf q
      generalize after.proc q = value at hchange hunused
      cases hchange with
      | abandon hpc => exact .inl (hsections.built c p q (by rw [hstep.thread, hpc]))
      | reap hpc hzombie =>
        exact .inr ((hsections.tested c p q (.inr (by rw [hstep.thread, hpc]))).trans hzombie)
      | kill pid held hpc =>
        refine hsections.freed q hwasHeld ?_
        by_cases hsleep : (m.proc q).state = .sleeping
        · simp [hsleep] at hunused
        · simpa [hsleep] using hunused
      | same | setChan | clearChan | adopt | inherits
      | stop => exact hsections.freed q hwasHeld hunused
      | _ => simp at hunused
    · rw [hproc] at hunused
      exact .inl (hbefore.trans hunused)

theorem schedInstr_kept (hperf : perform m c (schedInstr m spc) = some after)
    (hlock : schedHeld spc ≠ some q) : after.proc q = m.proc q := by
  revert hperf
  fun_cases schedInstr m spc <;> intro hperf
  all_goals simp only [perform, ite_none_right_eq_some, some.injEq] at hperf
  all_goals obtain ⟨_, rfl⟩ := hperf
  case case3 p hrunnable =>
    have hq : q ≠ p := fun hq => hlock (by rw [hq]; rfl)
    simp [goto, setProc, hq]
  all_goals rfl

theorem Sections.scheduled (hsections : Sections m) (hplace : Placed m)
    (hlock : Locked m) (hthr : (m.cpu c).thread = .scheduler spc)
    (hperf : perform m c (schedInstr m spc) = some after) : Sections after := by
  have hstep := schedInstr_step hplace hthr hperf
  -- A CPU that holds a process lock sees no change.
  have ho : ∀ cpu r rpc q, (m.cpu cpu).thread = .process r rpc →
      heldProc r rpc = some q → after.before q = m.before q ∧
        (after.proc q).state = (m.proc q).state := by
    intro cpu r rpc q hcpu hheld
    have howns : threadProc (m.cpu cpu).thread = some q := by
      rw [hcpu]
      exact hheld
    refine ⟨?_, ?_⟩
    · rcases perform_before hperf q with ⟨hsame, _⟩ | ⟨hfree, _⟩
      · exact hsame
      · exact absurd howns (@Agrees.free _ _ _ _ hlock.proc cpu q hfree)
    · rw [schedInstr_kept hperf fun hsched => ?_]
      have hsame := hlock.proc.unique howns (show threadProc (m.cpu c).thread = some q by
          rw [hthr]
          exact hsched)
      rw [hsame, hthr] at hcpu
      cases hcpu
  have hprocess : ∀ cpu r rpc, (after.cpu cpu).thread = .process r rpc →
      parked rpc = true ∨ (m.cpu cpu).thread = .process r rpc := by
    intro cpu r rpc hcpu
    rcases hstep.threads cpu r rpc hcpu with rfl | hbefore
    · exact .inl (hstep.resumed r rpc hcpu)
    · exact .inr hbefore
  refine ⟨?_, ?_, ?_⟩
  · rintro cpu r q (hcpu | hcpu)
    · rcases hprocess cpu r _ hcpu with hparked | hbefore
      · cases hparked
      · obtain ⟨hsame, hstate⟩ := ho cpu r _ q hbefore rfl
        rw [hsame, hstate]
        exact hsections.tested cpu r q (.inl hbefore)
    · rcases hprocess cpu r _ hcpu with hparked | hbefore
      · cases hparked
      · obtain ⟨hsame, hstate⟩ := ho cpu r _ q hbefore rfl
        rw [hsame, hstate]
        exact hsections.tested cpu r q (.inr hbefore)
  · intro cpu r q hcpu
    rcases hprocess cpu r _ hcpu with hparked | hbefore
    · cases hparked
    · rw [(ho cpu r _ q hbefore rfl).1]
      exact hsections.built cpu r q hbefore
  · intro q hheld hunused
    have hstate : (m.proc q).state = .unused := by
      rcases hstep.proc q with hsame | ⟨_, hrun⟩
      · rwa [hsame] at hunused
      · rw [hrun] at hunused
        cases hunused
    rcases perform_before hperf q with ⟨hsame, hnot⟩ | ⟨_, hbefore, _⟩
    · rw [hsame]
      rcases perform_plock hperf hheld with hheld | ⟨cont, hinstr⟩
      · exact hsections.freed q hheld hstate
      · exact absurd hinstr (hnot cont)
    · exact .inl (hbefore.trans hstate)

end

/-! ## Every run -/

/-- What holds in every state of every run. -/
structure Agreed (initproc : Fin n) (m : Machine n C) : Prop extends Waking m where
  drowsy : Drowsy m
  family : Family initproc m
  ledger : Ledger m
  sections : Sections m

section
variable {initproc : Fin n} {m after : Machine n C}

theorem step_agreed (hagreed : Agreed initproc m)
    (hexec : exec initproc m action = some (.ok after)) : Agreed initproc after := by
  have hwaking := step_waking hagreed.toWaking hexec
  rcases exec_cases hagreed.placed hagreed.locked hexec with
    ⟨p, pc, next, instr, hstep⟩ | ⟨hstep, spc, hthr, hperf⟩
  · have hdrowsy := hagreed.drowsy.process hwaking.placed hstep
    exact ⟨hwaking, hdrowsy, hagreed.family.process hagreed.scanned hagreed.drowsy
      hwaking.placed hwaking.locked hdrowsy hstep, hagreed.ledger.process hstep,
      hagreed.sections.process hstep⟩
  · exact ⟨hwaking, hagreed.drowsy.scheduler hstep, hagreed.family.scheduler hagreed.placed hstep,
      hagreed.ledger.scheduler hstep,
      hagreed.sections.scheduled hagreed.placed hagreed.locked hthr hperf⟩

omit [DecidableEq C] in
theorem initial_family (initproc : Fin n) : Family initproc (initial C initproc) := by
  refine ⟨?_, ?_, ?_, ?_, ?_, ?_⟩
  · simp [initial]
  · simp [initial, Alive]
  · simp [initial]
  · intro q hq
    simp [initial, hq, Alive]
  · intro p
    trivial
  · simp [initial]

theorem runs_agreed (hruns : Runs initproc m) : Agreed initproc m := by
  refine @Reachable.invariant _ _ _ _ _ _ (Agreed initproc) m hruns ?_ ?_
  · rintro _ rfl
    refine ⟨runs_waking (.start rfl), ?_, initial_family initproc, ?_, ?_⟩
    · refine ⟨?_, ?_, ?_, ?_⟩ <;> simp [initial, Dozing]
    · refine ⟨?_, ?_, ?_, ?_, ?_, ?_, ?_⟩
      all_goals simp [initial]
      all_goals intro q
      all_goals split <;> simp
    · refine ⟨?_, ?_, ?_⟩ <;> simp [initial]
  · intro m action after hagreed _ hexec
    exact step_agreed hagreed hexec

def AsleepInWait (m : Machine n C) (p : Fin n) : Prop :=
  (m.proc p).state = .sleeping ∧ ∃ k : SleepCall n, k.inWait = true ∧
    (m.pos p = .sleepSwitch k ∨ m.pos p = .sleepClearChan k)

omit [DecidableEq C] in
theorem not_notifying (hlock : Locked m) (hfree : m.lock .wait = none) :
    ¬ Notifying initproc m := by
  rintro ⟨cpu, x, xpc, w, index, status, start, hthr, hprog, hafter, _⟩
  refine hlock.other.free hfree (show Lock.wait ∈ threadLocks (m.cpu cpu).thread from ?_)
  rw [hthr]
  simp [threadLocks, progress_locks hprog, hafter, heldReturn]

theorem reaped_step (hagreed : Agreed initproc m)
    (hexec : exec initproc m action = some (.ok after)) :
    after.reaped = m.reaped ∨ ∃ parent q, (m.proc q).parent = some parent ∧
      (m.proc q).state = .zombie ∧ (after.proc q).state = .unused ∧
      after.reaped =
        ⟨parent, (m.proc q).pid, (m.proc q).xstate, (m.proc q).exitId⟩ :: m.reaped := by
  rcases exec_cases hagreed.placed hagreed.locked hexec with
    ⟨p, pc, next, instr, hstep⟩ | ⟨hstep, _⟩
  · obtain ⟨hdie, hreap, _⟩ := executes_exit hstep.executes
    have hperf := hstep.perform
    rcases perform_ledger hperf with ⟨_, hreaped⟩ | ⟨q, status, cont, rfl⟩ |
      ⟨parent, q, cont, hinstr⟩
    · exact .inl hreaped
    · cases hperf
      exact .inl rfl
    · obtain ⟨rfl, hpc, hzombie⟩ := hreap parent q cont hinstr
      have hkin := hagreed.family.own hstep
      rw [hpc] at hkin
      subst hinstr
      cases hperf
      exact .inr ⟨parent, q, hkin.1, hzombie, by simp [goto, setProc, freed], rfl⟩
  · exact .inl hstep.reaped

/-- `exit` and `wait` agree in every state of every run: a zombie has a parent
that is neither unused nor a zombie; every status is returned at most once, to the
parent of the zombie that has it and with its pid; a section of a process lock that
leaves the slot unused found it unused or a zombie; and with `wait_lock` free a
process asleep in `wait` has a child and no zombie child. -/
theorem exit_wait_agree (initproc : Fin n) (m : Machine n C) (hruns : Runs initproc m) :
    (∀ q, (m.proc q).state = .zombie → ∃ parent,
      (m.proc q).parent = some parent ∧ (m.proc parent).state ≠ .unused ∧
        (m.proc parent).state ≠ .zombie) ∧
    ((m.exits.map Exit.id).Nodup ∧ (m.reaped.map Reaped.exitId).Nodup ∧
      ∀ r ∈ m.reaped, ⟨r.exitId, r.pid, r.status⟩ ∈ m.exits) ∧
    (∀ action after, exec initproc m action = some (.ok after) →
      after.reaped = m.reaped ∨ ∃ parent q, (m.proc q).parent = some parent ∧
        (m.proc q).state = .zombie ∧ (after.proc q).state = .unused ∧
        after.reaped = ⟨parent, (m.proc q).pid, (m.proc q).xstate, (m.proc q).exitId⟩ :: m.reaped) ∧
    (∀ q, m.plock q ≠ none → (m.proc q).state = .unused →
      m.before q = .unused ∨ m.before q = .zombie) ∧
    (m.lock .wait = none → ∀ p, AsleepInWait m p → HasChild m p ∧ ∀ q, (m.proc q).parent = some p →
        (m.proc q).state ≠ .zombie) := by
  have hagreed := runs_agreed hruns
  refine ⟨?_, ?_, ?_, hagreed.sections.freed, ?_⟩
  · intro q hzombie
    have hinit : q ≠ initproc := by
      intro hinit
      have halive := hagreed.family.initAlive
      rw [← hinit, hzombie] at halive
      simp [Alive] at halive
    obtain ⟨parent, hparent⟩ := ne_none_iff_exists'.mp
      (hagreed.family.hasParent q hinit (.inr hzombie))
    have halive := hagreed.family.parentAlive q parent hparent
    refine ⟨parent, hparent, ?_, ?_⟩ <;>
      rcases halive with hstate | hstate | hstate <;> simp [hstate]
  · exact ⟨hagreed.ledger.distinct, hagreed.ledger.once, hagreed.ledger.reaped⟩
  · exact fun action after hexec => reaped_step hagreed hexec
  · rintro hfree p ⟨hsleeping, k, hwait, hpos⟩
    have hkin := hagreed.family.kin p
    refine ⟨?_, fun q hparent hzombie => ?_⟩
    · rcases hpos with hpos | hpos <;> rw [hpos] at hkin <;> exact hkin hwait
    · exact not_notifying hagreed.locked hfree (hagreed.family.quiet p k q hwait
        (.inr (.inr ⟨hpos, hsleeping⟩)) hparent hzombie).2

end

/-- The first process forks a child and waits for it. -/
def forkAndWait : List (Bool × Choice) :=
  List.replicate 5 (true, .go) ++ (true, .fork) :: List.replicate 13 (true, .go) ++
    (true, .wait) :: List.replicate 11 (true, .go)

theorem exit_wait_agree_waiting :
    ∃ m : Machine 2 Bool, Runs 0 m ∧ m.lock .wait = none ∧ AsleepInWait m 0 ∧
      HasChild m 0 ∧ ∀ q, (m.proc q).parent = some 0 → (m.proc q).state ≠ .zombie := by
  obtain ⟨m, hruns, htest⟩ := @exists_reachable (Machine 2 Bool) (Bool × Choice)
    Panic (exec 0) (fun _ _ => True) (· = initial Bool 0) (fun _ _ => true)
    (fun m => decide (m.lock .wait = none ∧ (m.proc 0).state = .sleeping ∧
      m.pos 0 = .sleepClearChan ⟨.proc 0, .wait, 0, true⟩))
    (initial Bool 0) forkAndWait rfl (fun _ _ _ => trivial) (by decide +kernel)
  obtain ⟨hfree, hsleeping, hpos⟩ := of_decide_eq_true htest
  have hasleep : AsleepInWait m 0 := ⟨hsleeping, _, rfl, .inr hpos⟩
  exact ⟨m, hruns, hfree, hasleep, (exit_wait_agree 0 m hruns).2.2.2.2 hfree 0 hasleep⟩

end Xv6.ExitStatus
