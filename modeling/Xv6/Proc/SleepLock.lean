import Xv6.Core.Interleaving
import Xv6.Panic

/-!
# Sleep locks

`kernel/sleeplock.c` for any number of processes, one statement at a time.  `sleep` takes
`p->lock`, releases the spinlock and makes the process `SLEEPING` in one action, and `kill`
can make a sleeper run again at any time.
-/

namespace Xv6.SleepLock

open Interleaving Function

inductive Pos where
  | idle
  /-- Before `acquire(&lk->lk)` in `acquiresleep`, or at the end of `sleep`. -/
  | acquire
  | test
  | asleep
  | take
  /-- Before the `release` of `acquiresleep`. -/
  | taken
  | holds
  /-- Before `acquire(&lk->lk)` in `releasesleep`. -/
  | giveBack
  | clear
  | wake
  /-- Before the `release` of `releasesleep`. -/
  | woken
  deriving DecidableEq

/-- Between `acquire(&lk->lk)` and `release(&lk->lk)`. -/
abbrev Pos.spins (pos : Pos) : Prop := pos ∈ [test, take, taken, clear, wake, woken]

/-- From `lk->locked = 1` to `lk->locked = 0`. -/
abbrev Pos.owns (pos : Pos) : Prop := pos ∈ [taken, holds, giveBack, clear]

structure State (P : Type) where
  lk : Option P
  locked : Bool
  pid : Option P
  pos : P → Pos

inductive Action (P : Type) where
  | next (p : P)
  | kill (victim : P)

section
variable {P : Type} [DecidableEq P] {t after : State P} {p : P} {pos : Pos}

def setPos (t : State P) (p : P) (pos : Pos) : State P := { t with pos := update t.pos p pos }

def rouse : Pos → Pos
  | .asleep => .acquire
  | pos => pos

def next (t : State P) (p : P) : Option (State P) :=
  match t.pos p with
  | .idle => some (setPos t p .acquire)
  | .acquire => if t.lk = none then some (setPos { t with lk := some p } p .test) else none
  | .test =>
    if t.locked then some (setPos { t with lk := none } p .asleep) else some (setPos t p .take)
  | .asleep => none
  | .take => some (setPos { t with locked := true, pid := some p } p .taken)
  | .taken => some (setPos { t with lk := none } p .holds)
  | .holds => some (setPos t p .giveBack)
  | .giveBack => if t.lk = none then some (setPos { t with lk := some p } p .clear) else none
  | .clear => some (setPos { t with locked := false, pid := none } p .wake)
  | .wake => some (setPos { t with pos := fun q => rouse (t.pos q) } p .woken)
  | .woken => some (setPos { t with lk := none } p .idle)

/-- What `holdingsleep` computes for `p`. -/
def holdingsleep (t : State P) (p : P) : Bool := t.locked && decide (t.pid = some p)

def exec (t : State P) : Action P → Option (Except Panic (State P))
  | .next p => (next t p).map .ok
  | .kill victim => some (.ok (setPos t victim (rouse (t.pos victim))))

def initial : State P := ⟨none, false, none, fun _ => .idle⟩

structure Sound (t : State P) : Prop where
  spin : ∀ p, t.lk = some p ↔ (t.pos p).spins
  owner : ∀ p, t.pid = some p ↔ (t.pos p).owns
  locked : t.locked = t.pid.isSome
  free : ∀ p, t.pos p = .take → t.pid = none
  /-- Who sleeps waits for an owner, or is about to be woken. -/
  sleeper : ∀ q, t.pos q = .asleep → t.pid.isSome ∨ ∃ p, t.pos p = .wake

/-- What happens to one of the two locks when `p` goes on: nothing, it is taken or given back. -/
def Changes (holds : Pos → Prop) (p : P) (before now : Option P) (old pos : Pos) : Prop :=
  now = before ∧ (holds pos ↔ holds old) ∨ before = none ∧ now = some p ∧ holds pos ∨
    holds old ∧ now = none ∧ ¬holds pos

theorem Changes.agree {holds : Pos → Prop} {place : P → Pos} {before now : Option P}
    (hchanges : Changes holds p before now (place p) pos)
    (hbefore : ∀ q, before = some q ↔ holds (place q)) (q : P) :
    now = some q ↔ holds (update place p pos q) := by
  by_cases hq : q = p
  · subst hq
    rw [update_self]
    rcases hchanges with ⟨rfl, hsame⟩ | ⟨-, rfl, hnew⟩ | ⟨-, rfl, hnew⟩
    · rw [hsame, hbefore]
    · simp [hnew]
    · simp [hnew]
  · rw [update_of_ne hq, ← hbefore q]
    rcases hchanges with ⟨rfl, -⟩ | ⟨rfl, rfl, -⟩ | ⟨hold, rfl, -⟩
    · rfl
    · simp [Ne.symm hq]
    · simp [(hbefore p).mpr hold, Ne.symm hq]

theorem Sound.move (hsound : Sound t) (hpos : after.pos = update t.pos p pos)
    (hspin : Changes Pos.spins p t.lk after.lk (t.pos p) pos)
    (howner : Changes Pos.owns p t.pid after.pid (t.pos p) pos)
    (hlocked : after.locked = after.pid.isSome) (htake : pos = .take → after.pid = none)
    (hinside : after.pid = t.pid ∨ (t.pos p).spins) (hsleep : pos = .asleep → after.pid.isSome)
    (hclear : t.pid.isSome → after.pid.isSome ∨ pos = .wake)
    (hwake : t.pos p ≠ .wake ∨ ∀ q, t.pos q ≠ .asleep) : Sound after := by
  refine ⟨?_, ?_, hlocked, fun q hq => ?_, fun q hq => ?_⟩
  · rw [hpos]
    exact hspin.agree hsound.spin
  · rw [hpos]
    exact howner.agree hsound.owner
  · by_cases hqp : q = p
    · exact htake (by rwa [hpos, hqp, update_self] at hq)
    · rw [hpos, update_of_ne hqp] at hq
      -- The process at `take` has the spinlock, so `p` has not changed the owner.
      have hholder := (hsound.spin q).mpr (by rw [hq]; decide)
      rcases hinside with hsame | hspins
      · rw [hsame, hsound.free q hq]
      · exact absurd (Option.some.inj (hholder.symm.trans ((hsound.spin p).mpr hspins))) hqp
  · by_cases hqp : q = p
    · exact .inl (hsleep (by rwa [hpos, hqp, update_self] at hq))
    · rw [hpos, update_of_ne hqp] at hq
      rcases hsound.sleeper q hq with howned | ⟨w, hw⟩
      · refine (hclear howned).imp_right fun hnew => ⟨p, ?_⟩
        rw [hpos, update_self, hnew]
      · have hwp : w ≠ p := fun hsame => hwake.resolve_right (· q hq) (by rwa [← hsame])
        exact .inr ⟨w, by rwa [hpos, update_of_ne hwp]⟩

theorem rouse_cases (pos : Pos) : rouse pos ≠ .asleep ∧ ((rouse pos).spins ↔ pos.spins) ∧
    ((rouse pos).owns ↔ pos.owns) ∧ (rouse pos = .take → pos = .take) ∧
    (pos ≠ .asleep → rouse pos = pos) := by
  cases pos <;> decide

theorem Sound.wakeup (hsound : Sound t) (hpos : t.pos p = .wake) :
    Sound (setPos { t with pos := fun q => rouse (t.pos q) } p .woken) := by
  have hroused : Sound { t with pos := fun q => rouse (t.pos q) } :=
    ⟨fun q => (hsound.spin q).trans (rouse_cases _).2.1.symm,
      fun q => (hsound.owner q).trans (rouse_cases _).2.2.1.symm, hsound.locked,
      fun q hq => hsound.free q ((rouse_cases _).2.2.2.1 hq),
      fun q hq => absurd hq (rouse_cases _).1⟩
  refine hroused.move rfl ?_ ?_ ?_ ?_ ?_ ?_ ?_ (.inr fun q => (rouse_cases _).1)
  all_goals simp_all [Changes, setPos, rouse, hsound.locked]

theorem sound_next (hsound : Sound t) (hnext : next t p = some after) : Sound after := by
  have hlocked := hsound.locked
  have hfree := hsound.free p
  unfold next at hnext
  split at hnext
  case h_10 hpos =>
    cases hnext
    exact hsound.wakeup hpos
  all_goals try split at hnext
  all_goals cases hnext
  all_goals refine hsound.move rfl ?_ ?_ ?_ ?_ ?_ ?_ ?_ ?_
  all_goals simp_all [Changes, setPos]

theorem sound_kill (hsound : Sound t) (victim : P) :
    Sound (setPos t victim (rouse (t.pos victim))) := by
  by_cases hpos : t.pos victim = .asleep
  · have hlocked := hsound.locked
    refine hsound.move rfl ?_ ?_ ?_ ?_ ?_ ?_ ?_ ?_
    all_goals simp_all [Changes, setPos, rouse]
  · rwa [setPos, (rouse_cases _).2.2.2.2 hpos, update_eq_self]

/-- At most one process owns the lock, `holdingsleep` tells which, and nobody sleeps on a free
lock, except while its last owner is about to wake the sleepers. -/
theorem sleeplock_protocol (ht : Reachable exec (fun _ _ => True) (· = initial) t) :
    (∀ p q, (t.pos p).owns → (t.pos q).owns → p = q) ∧
      (∀ p, holdingsleep t p = true ↔ (t.pos p).owns) ∧
      ∀ q, t.pos q = .asleep → (∃ p, (t.pos p).owns) ∨ ∃ p, t.pos p = .wake := by
  have hsound : Sound t := by
    refine ht.invariant (fun t hstart => ?_) fun t action after hsound _ hexec => ?_
    · subst hstart
      exact ⟨by simp [initial], by simp [initial], rfl, fun _ _ => rfl, by simp [initial]⟩
    · cases action with
      | next p =>
        obtain ⟨state, hnext, hsame⟩ := Option.map_eq_some_iff.mp hexec
        cases hsame
        exact sound_next hsound hnext
      | kill victim =>
        cases hexec
        exact sound_kill hsound victim
  refine ⟨fun p q hp hq => ?_, fun p => ?_, fun q hq =>
    (hsound.sleeper q hq).imp_left fun howned => ?_⟩
  · exact Option.some.inj (((hsound.owner p).mpr hp).symm.trans ((hsound.owner q).mpr hq))
  · rw [← hsound.owner p, holdingsleep, hsound.locked, Bool.and_eq_true, decide_eq_true_iff]
    exact and_iff_right_of_imp fun howner => by rw [howner]; rfl
  · obtain ⟨p, hp⟩ := Option.isSome_iff_exists.mp howned
    exact ⟨p, (hsound.owner p).mp hp⟩

end

/-- One process has the lock and the other one sleeps. -/
theorem sleeplock_protocol_asleep : ∃ t : State Bool, holdingsleep t false = true ∧
    holdingsleep t true = false ∧ t.pos true = .asleep := by
  obtain ⟨t, ht, hpos⟩ := @exists_reachable (State Bool) (Action Bool) Panic exec
    (fun _ _ => True) (· = initial) (fun _ _ => true)
    (fun t => decide (t.pos false = .holds) && decide (t.pos true = .asleep)) initial
    (List.replicate 5 (.next false) ++ List.replicate 3 (.next true)) rfl
    (fun _ _ _ => trivial) (by decide)
  rw [Bool.and_eq_true, decide_eq_true_iff, decide_eq_true_iff] at hpos
  obtain ⟨-, hholding, -⟩ := sleeplock_protocol ht
  refine ⟨t, (hholding false).mpr (by rw [hpos.1]; decide), ?_, hpos.2⟩
  rw [← Bool.not_eq_true, hholding true, hpos.2]
  decide

end Xv6.SleepLock
