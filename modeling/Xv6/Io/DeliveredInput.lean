import Xv6.Io.Pipe
import Xv6.Io.Console

/-!
# Input that is read and not delivered

`piperead` and `consoleread` take a byte out of their buffer before they copy it to the
reader, and leave their loop if the copy fails.  The runs of `Io/Pipe` and `Io/Console`
are recorded in a ledger: the bytes stored in user memory, the results of the calls that
have ended, and the copies that failed.  A failed copy is exactly what a byte is lost by;
a `consoleread` that is killed while it waits also hides what it has stored before.
-/

namespace Xv6.DeliveredInput

open Function List Nat Option Interleaving RingBuffer

variable {value n target : ℤ} {i : ℕ}

abbrev Byte := BitVec 8

/-- What the readers of a buffer have got.  A call that has ended is its result and the
number of bytes it stored. -/
structure Ledger (σ P : Type) where
  state : σ
  dst : P → List Byte
  stored : List Byte
  calls : List (ℤ × ℕ)
  failed : ℕ
  cut : ℕ

/-- Every call returns the number of bytes it stored; a negative result counts as
none. -/
def Honest (calls : List (ℤ × ℕ)) : Prop := ∀ call ∈ calls, call.1.toNat = call.2

theorem honest_append {calls : List (ℤ × ℕ)} {count : ℕ} :
    Honest (calls ++ [(value, count)]) ↔ Honest calls ∧ value.toNat = count := by
  constructor
  · intro hhonest
    constructor
    · intro call hcall
      exact hhonest call (mem_append_left _ hcall)
    · exact hhonest (value, count) (mem_append_right _ (mem_singleton_self _))
  · intro hboth call hcall
    cases mem_append.mp hcall with
    | inl hold => exact hboth.1 call hold
    | inr hnew =>
      rw [mem_singleton.mp hnew]
      exact hboth.2

section
variable {σ P : Type} [DecidableEq P]

/-- The step changes nothing that the ledger records. -/
def Ledger.pass (ledger : Ledger σ P) (after : σ) : Ledger σ P := { ledger with state := after }

def Ledger.start (ledger : Ledger σ P) (p : P) (after : σ) : Ledger σ P :=
  { ledger with state := after, dst := update ledger.dst p [] }

def Ledger.store (ledger : Ledger σ P) (p : P) (ch : Byte) (after : σ) : Ledger σ P :=
  { ledger with
    state := after
    dst := update ledger.dst p (ledger.dst p ++ [ch])
    stored := ledger.stored ++ [ch] }

def Ledger.finish (ledger : Ledger σ P) (p : P) (value : ℤ) (after : σ) : Ledger σ P :=
  { ledger with
    state := after
    calls := ledger.calls ++ [(value, (ledger.dst p).length)] }

/-- The call of `p` is given up; what it has stored is not reported. -/
def Ledger.giveUp (ledger : Ledger σ P) (p : P) : Ledger σ P :=
  { ledger with cut := if ledger.dst p = [] then ledger.cut else ledger.cut + 1 }

def Ledger.fail (ledger : Ledger σ P) : Ledger σ P := { ledger with failed := ledger.failed + 1 }

/-- The books are in order: the bytes that were removed are those that were stored and
those whose copy failed; `progress` is the number of bytes that the code of a process
believes it has stored. -/
structure Balanced (progress : σ → P → Option ℤ) (removed : σ → List Byte)
    (ledger : Ledger σ P) : Prop where
  counted : ∀ p count, progress ledger.state p = some count → ((ledger.dst p).length : ℤ) = count
  balance : (removed ledger.state).length = ledger.stored.length + ledger.failed
  exact : ledger.failed = 0 → ledger.stored = removed ledger.state
  honest : Honest ledger.calls ↔ ledger.cut = 0

/-- Nothing that was removed is missing in user memory, and every call says so. -/
def Delivered (removed : σ → List Byte) (ledger : Ledger σ P) : Prop :=
  ledger.stored = removed ledger.state ∧ Honest ledger.calls

omit [DecidableEq P] in
theorem Balanced.delivered_iff {progress : σ → P → Option ℤ} {removed : σ → List Byte}
    {ledger : Ledger σ P} (hbal : Balanced progress removed ledger) :
    Delivered removed ledger ↔ ledger.failed = 0 ∧ ledger.cut = 0 := by
  rw [Delivered, hbal.honest]
  constructor
  · intro hdelivered
    refine ⟨?_, hdelivered.2⟩
    have hlen := hbal.balance
    rw [hdelivered.1] at hlen
    omega
  · intro hnone
    exact ⟨hbal.exact hnone.1, hnone.2⟩

variable {progress : σ → P → Option ℤ} {removed : σ → List Byte} {ledger : Ledger σ P}
  {after : σ} {p : P}

omit [DecidableEq P] in
theorem Balanced.pass (hbal : Balanced progress removed ledger)
    (hprog : ∀ q count, progress after q = some count → progress ledger.state q = some count)
    (hremoved : removed after = removed ledger.state) :
    Balanced progress removed (ledger.pass after) where
  counted q count hq := hbal.counted q count (hprog q count hq)
  balance := (congrArg List.length hremoved).trans hbal.balance
  exact hnone := (hbal.exact hnone).trans hremoved.symm
  honest := hbal.honest

theorem Balanced.start (hbal : Balanced progress removed ledger)
    (hprog : ∀ q count, q ≠ p → progress after q = some count →
      progress ledger.state q = some count)
    (hzero : progress after p = some 0)
    (hremoved : removed after = removed ledger.state) :
    Balanced progress removed (ledger.start p after) where
  counted q count hq := by
    by_cases hqp : q = p
    · subst hqp
      have hcount : some 0 = some count := hzero.symm.trans hq
      simp only [Ledger.start, update_self, length_nil, cast_zero]
      exact Option.some.inj hcount
    · simp only [Ledger.start, update_of_ne hqp]
      exact hbal.counted q count (hprog q count hqp hq)
  balance := (congrArg List.length hremoved).trans hbal.balance
  exact hnone := (hbal.exact hnone).trans hremoved.symm
  honest := hbal.honest

theorem Balanced.store {ch : Byte} {count : ℤ} (hbal : Balanced progress removed ledger)
    (hbefore : progress ledger.state p = some count)
    (hprog : ∀ q count, q ≠ p → progress after q = some count →
      progress ledger.state q = some count)
    (hnext : ∀ other, progress after p = some other → other = count + 1)
    (hremoved : removed after = removed ledger.state ++ [ch]) :
    Balanced progress removed (ledger.store p ch after) where
  counted q other hq := by
    by_cases hqp : q = p
    · subst hqp
      have hcount := hbal.counted q count hbefore
      simp only [Ledger.store, update_self, length_append,
        length_singleton, cast_add, cast_one, hcount]
      exact (hnext other hq).symm
    · simp only [Ledger.store, update_of_ne hqp]
      exact hbal.counted q other (hprog q other hqp hq)
  balance := by
    have hlen := hbal.balance
    simp only [Ledger.store, hremoved, length_append, length_singleton]
    omega
  exact hnone := by rw [Ledger.store, hremoved, hbal.exact hnone]
  honest := hbal.honest

omit [DecidableEq P] in
theorem Balanced.finish (hbal : Balanced progress removed ledger)
    (hprog : ∀ q count, progress after q = some count → progress ledger.state q = some count)
    (hvalue : ((ledger.dst p).length : ℤ) = value)
    (hremoved : removed after = removed ledger.state) :
    Balanced progress removed (ledger.finish p value after) where
  counted q count hq := hbal.counted q count (hprog q count hq)
  balance := (congrArg List.length hremoved).trans hbal.balance
  exact hnone := (hbal.exact hnone).trans hremoved.symm
  honest := by
    rw [Ledger.finish, honest_append, hbal.honest, ← hvalue]
    exact and_iff_left (Int.toNat_natCast _)

omit [DecidableEq P] in
theorem Balanced.lose {ch : Byte} (hbal : Balanced progress removed ledger)
    (hprog : ∀ q count, progress after q = some count → progress ledger.state q = some count)
    (hvalue : ((ledger.dst p).length : ℤ) = value)
    (hremoved : removed after = removed ledger.state ++ [ch]) :
    Balanced progress removed (ledger.fail.finish p value after) where
  counted q count hq := hbal.counted q count (hprog q count hq)
  balance := by
    have hlen := hbal.balance
    simp only [Ledger.finish, Ledger.fail, hremoved, length_append, length_singleton]
    omega
  exact hnone := absurd hnone (succ_ne_zero _)
  honest := by
    rw [Ledger.finish, Ledger.fail, honest_append, hbal.honest, ← hvalue]
    exact and_iff_left (Int.toNat_natCast _)

omit [DecidableEq P] in
theorem Balanced.giveUp (hbal : Balanced progress removed ledger)
    (hprog : ∀ q count, progress after q = some count → progress ledger.state q = some count)
    (hremoved : removed after = removed ledger.state) :
    Balanced progress removed ((ledger.giveUp p).finish p (-1) after) where
  counted q count hq := hbal.counted q count (hprog q count hq)
  balance := (congrArg List.length hremoved).trans hbal.balance
  exact hnone := (hbal.exact hnone).trans hremoved.symm
  honest := by
    simp only [Ledger.finish, Ledger.giveUp, honest_append, hbal.honest]
    by_cases hnil : ledger.dst p = []
    · rw [if_pos hnil, hnil]
      exact and_iff_left rfl
    · rw [if_neg hnil]
      apply iff_of_false
      · intro hboth
        exact hnil (length_eq_zero_iff.mp hboth.2.symm)
      · exact succ_ne_zero _

/-- No call is under way and nothing has been recorded; what was removed before counts
as stored. -/
structure Opened (progress : σ → P → Option ℤ) (removed : σ → List Byte)
    (ledger : Ledger σ P) : Prop where
  idle : ∀ p, progress ledger.state p = none
  stored : ledger.stored = removed ledger.state
  calls : ledger.calls = []
  failed : ledger.failed = 0
  cut : ledger.cut = 0

omit [DecidableEq P] in
theorem Opened.balanced (hopened : Opened progress removed ledger) :
    Balanced progress removed ledger where
  counted p count hcount := by
    rw [hopened.idle p] at hcount
    cases hcount
  balance := by
    rw [hopened.stored, hopened.failed]
    rfl
  exact _ := hopened.stored
  honest := by
    rw [hopened.calls, hopened.cut]
    exact iff_of_true (fun call hcall => absurd hcall not_mem_nil) rfl

end

/-! ## Pipes -/

section
open Pipe
variable {P : Type} [DecidableEq P] {t after : Pipe.State P} {p : P}

/-- The number of bytes that a process in `piperead` has stored. -/
def pipeCopied : Pipe.Pos → Option ℤ
  | .readAcquire _ | .readWait _ | .readSleep _ | .readAsleep _ => some 0
  | .readCopy _ i => some (i : ℤ)
  | _ => none

def pipeProgress (t : Pipe.State P) (p : P) : Option ℤ := pipeCopied (t.pos p)

@[simp]
theorem pipeCopied_wakeReader (pos : Pipe.Pos) : pipeCopied (wakeReader pos) = pipeCopied pos := by
  cases pos <;> rfl

@[simp]
theorem pipeCopied_wakeWriter (pos : Pipe.Pos) : pipeCopied (wakeWriter pos) = pipeCopied pos := by
  cases pos <;> rfl

/-- What a step of `p` in `piperead` adds to the ledger. -/
def recordRead (ledger : Ledger (Pipe.State P) P) (p : P) (byte : Option Byte)
    (after : Pipe.State P) : Ledger (Pipe.State P) P :=
  let t := ledger.state
  match t.pos p with
  | .readWait _ =>
    if t.nread = t.nwrite ∧ t.writeopen = true ∧ t.killed p = true then
      (ledger.giveUp p).finish p (-1) after
    else ledger.pass after
  | .readCopy n i =>
    if (i : ℤ) < n ∧ t.nread ≠ t.nwrite then
      match byte with
      | none => ledger.fail.finish p i after
      | some _ => ledger.store p (t.data (slot PIPESIZE t.nread)) after
    else ledger.finish p i after
  | _ => ledger.pass after

def recordPipe (ledger : Ledger (Pipe.State P) P) (action : P × Pipe.Action)
    (after : Pipe.State P) : Ledger (Pipe.State P) P :=
  match action with
  | (p, .read _) => ledger.start p after
  | (p, .next byte) => recordRead ledger p byte after
  | _ => ledger.pass after

def pipeExec (ledger : Ledger (Pipe.State P) P) (action : P × Pipe.Action) :
    Option (Except Panic (Ledger (Pipe.State P) P)) :=
  (Pipe.exec ledger.state action).map (Except.map (recordPipe ledger action))

@[simp]
theorem pipeProgress_setPos (t : Pipe.State P) (p q : P) (pos : Pipe.Pos) :
    pipeProgress (Pipe.setPos t p pos) q =
      if q = p then pipeCopied pos else pipeProgress t q := by
  by_cases hq : q = p
  · subst hq
    simp [pipeProgress, Pipe.setPos]
  · simp [pipeProgress, Pipe.setPos, hq]

@[simp]
theorem pipeProgress_leave (t : Pipe.State P) (p q : P) (pos : Pipe.Pos) :
    pipeProgress (Pipe.leave t p pos) q =
      if q = p then pipeCopied pos else pipeProgress t q :=
  pipeProgress_setPos { t with lock := none } p q pos

@[simp]
theorem pipeProgress_take (t : Pipe.State P) (p q : P) (pos : Pipe.Pos) :
    pipeProgress (Pipe.take t p pos) q =
      if q = p then pipeCopied pos else pipeProgress t q :=
  pipeProgress_setPos { t with lock := some p } p q pos

omit [DecidableEq P] in
@[simp]
theorem pipeProgress_wakeReaders (t : Pipe.State P) (q : P) :
    pipeProgress (Pipe.wakeReaders t) q = pipeProgress t q :=
  pipeCopied_wakeReader (t.pos q)

omit [DecidableEq P] in
@[simp]
theorem pipeProgress_wakeWriters (t : Pipe.State P) (q : P) :
    pipeProgress (Pipe.wakeWriters t) q = pipeProgress t q :=
  pipeCopied_wakeWriter (t.pos q)

omit [DecidableEq P] in
@[simp]
theorem pipeProgress_takeByte (t : Pipe.State P) (q : P) :
    pipeProgress (Pipe.takeByte t) q = pipeProgress t q := rfl

omit [DecidableEq P] in
@[simp]
theorem pipeProgress_putByte (t : Pipe.State P) (ch : Byte) (q : P) :
    pipeProgress (Pipe.putByte t ch) q = pipeProgress t q := rfl

/-- `p` goes to a place where the code believes what it believed before, or is not in
`piperead`. -/
theorem moved_progress (p : P) (pos : Pipe.Pos)
    (hp : pipeCopied pos = pipeProgress t p ∨ pipeCopied pos = none)
    (hprog : ∀ q, pipeProgress after q =
      if q = p then pipeCopied pos else pipeProgress t q) :
    ∀ q count, pipeProgress after q = some count → pipeProgress t q = some count := by
  intro q count hcount
  rw [hprog q] at hcount
  by_cases hq : q = p
  · rw [if_pos hq] at hcount
    cases hp with
    | inl hsame =>
      rw [hq, ← hsame]
      exact hcount
    | inr hnone =>
      rw [hnone] at hcount
      cases hcount
  · rw [if_neg hq] at hcount
    exact hcount

theorem pipewrite_balanced {ledger : Ledger (Pipe.State P) P}
    {byte : Option Byte} (hbal : Balanced pipeProgress Pipe.State.taken ledger) :
    Balanced pipeProgress Pipe.State.taken (ledger.pass (pipewrite ledger.state p n i byte)) := by
  have hmoved : ∀ after : Pipe.State P, ∀ pos, pipeCopied pos = none → (∀ q, pipeProgress after q =
        if q = p then pipeCopied pos else pipeProgress ledger.state q) →
      after.taken = ledger.state.taken →
      Balanced pipeProgress Pipe.State.taken (ledger.pass after) :=
    fun after pos hpos hprog htaken => hbal.pass (moved_progress p pos (Or.inr hpos) hprog) htaken
  unfold pipewrite
  by_cases hmore : (i : ℤ) < n
  · rw [if_pos hmore]
    by_cases hclosed : ledger.state.readopen = false ∨ ledger.state.killed p = true
    · rw [if_pos hclosed]
      refine hmoved _ .idle rfl (fun q => ?_) rfl
      simp
    · rw [if_neg hclosed]
      split
      · refine hmoved _ (.writeSleep n i) rfl (fun q => ?_) rfl
        simp
      · cases byte with
        | none =>
          refine hmoved _ .idle rfl (fun q => ?_) rfl
          simp
        | some ch =>
          refine hmoved _ (.writeLoop n (i + 1) true) rfl (fun q => ?_) rfl
          simp
  · rw [if_neg hmore]
    refine hmoved _ .idle rfl (fun q => ?_) rfl
    simp

theorem pipereadWait_balanced {ledger : Ledger (Pipe.State P) P}
    {byte : Option Byte} (hbal : Balanced pipeProgress Pipe.State.taken ledger)
    (hpos : ledger.state.pos p = .readWait n) : Balanced pipeProgress Pipe.State.taken
      (recordRead ledger p byte (pipereadWait ledger.state p n)) := by
  have hzero : pipeProgress ledger.state p = some 0 := by
    rw [pipeProgress, hpos]
    rfl
  rw [recordRead, pipereadWait]
  simp only [hpos]
  by_cases hnil : ledger.state.nread = ledger.state.nwrite ∧ ledger.state.writeopen = true
  · rw [if_pos hnil]
    by_cases hkilled : ledger.state.killed p = true
    · rw [if_pos hkilled, if_pos ⟨hnil.1, hnil.2, hkilled⟩]
      refine hbal.giveUp (moved_progress p .idle (Or.inr rfl) fun q => ?_) rfl
      exact pipeProgress_leave _ p q .idle
    · rw [if_neg hkilled, if_neg fun hall => hkilled hall.2.2]
      refine hbal.pass (moved_progress p (.readSleep n) (Or.inl hzero.symm) fun q => ?_) rfl
      exact pipeProgress_setPos _ p q (.readSleep n)
  · rw [if_neg hnil, if_neg fun hall => hnil ⟨hall.1, hall.2.1⟩]
    refine hbal.pass (moved_progress p (.readCopy n 0) (Or.inl hzero.symm) fun q => ?_) rfl
    exact pipeProgress_setPos _ p q (.readCopy n 0)

theorem pipereadCopy_balanced {ledger : Ledger (Pipe.State P) P}
    {byte : Option Byte} (hbal : Balanced pipeProgress Pipe.State.taken ledger)
    (hpos : ledger.state.pos p = .readCopy n i) : Balanced pipeProgress Pipe.State.taken
      (recordRead ledger p byte (pipereadCopy ledger.state p n i byte)) := by
  have hcount : pipeProgress ledger.state p = some (i : ℤ) := by
    rw [pipeProgress, hpos]
    rfl
  have hvalue : ((ledger.dst p).length : ℤ) = i := hbal.counted p i hcount
  unfold recordRead pipereadCopy
  simp only [hpos]
  by_cases hbyte : (i : ℤ) < n ∧ ledger.state.nread ≠ ledger.state.nwrite
  · rw [if_pos hbyte, if_pos hbyte]
    cases byte with
    | none =>
      refine hbal.lose (moved_progress p .idle (Or.inr rfl) fun q => ?_) hvalue rfl
      rw [pipeProgress_leave _ p q .idle, pipeProgress_wakeWriters, pipeProgress_takeByte]
    | some ch =>
      refine hbal.store hcount ?_ ?_ rfl
      · intro q other hq ho
        rw [pipeProgress_setPos, if_neg hq] at ho
        exact ho
      · intro other ho
        rw [pipeProgress_setPos, if_pos rfl] at ho
        exact (Option.some.inj ho).symm
  · rw [if_neg hbyte, if_neg hbyte]
    refine hbal.finish (moved_progress p .idle (Or.inr rfl) fun q => ?_) hvalue rfl
    rw [pipeProgress_leave _ p q .idle, pipeProgress_wakeWriters]

theorem pipe_next_balanced {ledger : Ledger (Pipe.State P) P} {byte : Option Byte}
    (hbal : Balanced pipeProgress Pipe.State.taken ledger)
    (hnext : Pipe.next ledger.state p byte = some after) :
    Balanced pipeProgress Pipe.State.taken (recordRead ledger p byte after) := by
  cases hpos : ledger.state.pos p with
  | idle | writeAsleep n i | readAsleep n => simp [Pipe.next, hpos] at hnext
  | writeAcquire n i =>
    simp only [Pipe.next, hpos, ite_none_right_eq_some, some.injEq] at hnext
    rw [← hnext.2, recordRead]
    simp only [hpos]
    exact hbal.pass (moved_progress p _ (Or.inr rfl)
      fun q => pipeProgress_take _ p q (.writeLoop n i false)) rfl
  | writeLoop n i fresh =>
    simp only [Pipe.next, hpos, some.injEq] at hnext
    rw [← hnext, recordRead]
    simp only [hpos]
    exact pipewrite_balanced hbal
  | writeSleep n i =>
    simp only [Pipe.next, hpos, some.injEq] at hnext
    rw [← hnext, recordRead]
    simp only [hpos]
    exact hbal.pass (moved_progress p _ (Or.inr rfl)
      fun q => pipeProgress_leave _ p q (.writeAsleep n i)) rfl
  | readAcquire n =>
    simp only [Pipe.next, hpos, ite_none_right_eq_some, some.injEq] at hnext
    rw [← hnext.2, recordRead]
    simp only [hpos]
    refine hbal.pass (moved_progress p _ (Or.inl ?_)
      fun q => pipeProgress_take _ p q (.readWait n)) rfl
    rw [pipeProgress, hpos]
    rfl
  | readWait n =>
    simp only [Pipe.next, hpos, some.injEq] at hnext
    rw [← hnext]
    exact pipereadWait_balanced hbal hpos
  | readSleep n =>
    simp only [Pipe.next, hpos, some.injEq] at hnext
    rw [← hnext, recordRead]
    simp only [hpos]
    refine hbal.pass (moved_progress p _ (Or.inl ?_)
      fun q => pipeProgress_leave _ p q (.readAsleep n)) rfl
    rw [pipeProgress, hpos]
    rfl
  | readCopy n i =>
    simp only [Pipe.next, hpos, some.injEq] at hnext
    rw [← hnext]
    exact pipereadCopy_balanced hbal hpos

theorem pipe_exec_balanced {ledger : Ledger (Pipe.State P) P}
    {action : P × Pipe.Action} (hbal : Balanced pipeProgress Pipe.State.taken ledger)
    (hexec : Pipe.exec ledger.state action = some (.ok after)) :
    Balanced pipeProgress Pipe.State.taken (recordPipe ledger action after) := by
  obtain ⟨p, action⟩ := action
  cases action with
  | write n =>
    simp only [Pipe.exec, ite_none_right_eq_some, some.injEq, Except.ok.injEq] at hexec
    rw [← hexec.2]
    exact hbal.pass (moved_progress p _ (Or.inr rfl)
      fun q => pipeProgress_setPos _ p q (.writeAcquire n 0)) rfl
  | read n =>
    simp only [Pipe.exec, ite_none_right_eq_some, some.injEq, Except.ok.injEq] at hexec
    rw [← hexec.2]
    refine hbal.start ?_ ?_ rfl
    · intro q count hq hcount
      rw [pipeProgress_setPos, if_neg hq] at hcount
      exact hcount
    · rw [pipeProgress_setPos, if_pos rfl]
      rfl
  | next byte =>
    simp only [Pipe.exec, map_eq_some_iff, Except.ok.injEq] at hexec
    obtain ⟨_, hnext, rfl⟩ := hexec
    exact pipe_next_balanced hbal hnext
  | close writable =>
    simp only [Pipe.exec, ite_none_right_eq_some, some.injEq, Except.ok.injEq] at hexec
    rw [← hexec.2]
    refine hbal.pass ?_ ?_
    · intro q count hcount
      cases writable with
      | false => exact (pipeCopied_wakeWriter _).symm.trans hcount
      | true => exact (pipeCopied_wakeReader _).symm.trans hcount
    · cases writable <;> rfl
  | kill =>
    simp only [Pipe.exec, some.injEq, Except.ok.injEq] at hexec
    rw [← hexec]
    refine hbal.pass (moved_progress p _ (Or.inl ?_) fun q => pipeProgress_setPos _ p q _) rfl
    rw [pipeCopied_wakeWriter, pipeCopied_wakeReader, pipeProgress]

theorem recordRead_cut {ledger : Ledger (Pipe.State P) P}
    (hbal : Balanced pipeProgress Pipe.State.taken ledger) (p : P)
    (byte : Option Byte) (after : Pipe.State P) :
    (recordRead ledger p byte after).cut = ledger.cut := by
  unfold recordRead
  cases hpos : ledger.state.pos p with
  | readWait n =>
    have hcount := hbal.counted p 0 (by rw [pipeProgress, hpos]; rfl)
    have hnil : ledger.dst p = [] := length_eq_zero_iff.mp (Int.natCast_eq_zero.mp hcount)
    simp only [hpos]
    split
    · exact if_pos hnil
    · rfl
  | readCopy n i =>
    simp only [hpos]
    split
    · cases byte <;> rfl
    · rfl
  | _ =>
    simp only [hpos]
    rfl

theorem recordPipe_cut {ledger : Ledger (Pipe.State P) P}
    (hbal : Balanced pipeProgress Pipe.State.taken ledger)
    (action : P × Pipe.Action) (after : Pipe.State P) :
    (recordPipe ledger action after).cut = ledger.cut := by
  obtain ⟨p, action⟩ := action
  cases action with
  | next byte => exact recordRead_cut hbal p byte after
  | _ => rfl

abbrev PipeRuns (ledger : Ledger (Pipe.State P) P) : Prop :=
  Reachable pipeExec (fun _ _ => True) (Opened pipeProgress Pipe.State.taken) ledger

theorem pipe_runs_balanced {ledger : Ledger (Pipe.State P) P} (hruns : PipeRuns ledger) :
    Balanced pipeProgress Pipe.State.taken ledger ∧ ledger.cut = 0 := by
  apply hruns.invariant
  · intro ledger hopened
    exact ⟨hopened.balanced, hopened.cut⟩
  · intro ledger action after hboth _ hexec
    rw [pipeExec, map_eq_some_iff] at hexec
    obtain ⟨outcome, houtcome, hrecord⟩ := hexec
    cases outcome with
    | error => cases hrecord
    | ok state =>
      rw [← Except.ok.inj hrecord, recordPipe_cut hboth.1]
      exact ⟨pipe_exec_balanced hboth.1 houtcome, hboth.2⟩

end

/-! ## The console -/

section
open Console
variable {P : Type} [DecidableEq P] {t after : Console.State P} {p : P}

/-- The number of bytes that `consoleread` believes it has stored. -/
def consoleProgress (t : Console.State P) (p : P) : Option ℤ :=
  (t.pos p).counts.map fun counts => counts.1 - counts.2

/-- The characters taken by readers, without the end-of-file characters. -/
def consoleTaken (t : Console.State P) : List Byte := t.cons.consumed.filter fun c => c ≠ ctrl 'D'

/-- What the body of the outer loop adds to the ledger. -/
def recordChar (ledger : Ledger (Console.State P) P) (p : P) (target n : ℤ)
    (copied : Bool) (after : Console.State P) : Ledger (Console.State P) P :=
  let c := ledger.state.cons.buf (slot INPUT_BUF ledger.state.cons.r)
  if c = ctrl 'D' then ledger.finish p (target - n) after
  else if copied = false then ledger.fail.finish p (target - n) after
  else if c = newline then (ledger.store p c after).finish p (target - (n - 1)) after
  else ledger.store p c after

/-- What a step of `p` in `consoleread` adds to the ledger. -/
def recordConsoleread (ledger : Ledger (Console.State P) P) (p : P) (copied : Bool)
    (after : Console.State P) : Ledger (Console.State P) P :=
  let t := ledger.state
  match t.pos p with
  | .outer target n => if 0 < n then ledger.pass after else ledger.finish p (target - n) after
  | .inner target n =>
    if t.cons.r = t.cons.w then
      if t.killed p = true then (ledger.giveUp p).finish p (-1) after
      else ledger.pass after
    else recordChar ledger p target n copied after
  | _ => ledger.pass after

def recordConsole (ledger : Ledger (Console.State P) P) (action : Console.Action P)
    (after : Console.State P) : Ledger (Console.State P) P :=
  match action with
  | .read p _ => ledger.start p after
  | .next p copied => recordConsoleread ledger p copied after
  | _ => ledger.pass after

def consoleExec (ledger : Ledger (Console.State P) P) (action : Console.Action P) :
    Option (Except Panic (Ledger (Console.State P) P)) :=
  (Console.exec ledger.state action).map (Except.map (recordConsole ledger action))

@[simp]
theorem consoleProgress_setPos (t : Console.State P) (p q : P) (pos : Console.Pos) :
    consoleProgress (Console.setPos t p pos) q =
      if q = p then pos.counts.map (fun counts => counts.1 - counts.2)
      else consoleProgress t q := by
  by_cases hq : q = p
  · subst hq
    simp [consoleProgress, Console.setPos]
  · simp [consoleProgress, Console.setPos, hq]

theorem finish_progress (hpos : t.pos = after.pos) :
    ∀ q count, consoleProgress (Console.finish t p value) q = some count →
      consoleProgress after q = some count := by
  intro q count hcount
  rw [Console.finish, consoleProgress_setPos] at hcount
  by_cases hq : q = p
  · rw [if_pos hq] at hcount
    cases hcount
  · rw [if_neg hq] at hcount
    rw [consoleProgress, ← hpos]
    exact hcount

theorem inside_progress {pos : Console.Pos} (hpos : t.pos = after.pos)
    (hcounts : pos.counts = (after.pos p).counts) :
    ∀ q count, consoleProgress (Console.setPos t p pos) q = some count →
      consoleProgress after q = some count := by
  intro q count hcount
  rw [consoleProgress_setPos] at hcount
  by_cases hq : q = p
  · rw [if_pos hq, hcounts] at hcount
    rw [hq]
    exact hcount
  · rw [if_neg hq] at hcount
    rw [consoleProgress, ← hpos]
    exact hcount

omit [DecidableEq P] in
theorem consoleTaken_takeChar (t : Console.State P)
    (hchar : t.cons.buf (slot INPUT_BUF t.cons.r) ≠ ctrl 'D') :
    (takeChar t.cons).consumed.filter (fun c => c ≠ ctrl 'D') =
      consoleTaken t ++ [t.cons.buf (slot INPUT_BUF t.cons.r)] := by
  simp [takeChar, consoleTaken, filter_append, hchar]

omit [DecidableEq P] in
theorem consoleTaken_takeChar_eof (t : Console.State P)
    (hchar : t.cons.buf (slot INPUT_BUF t.cons.r) = ctrl 'D') :
    (takeChar t.cons).consumed.filter (fun c => c ≠ ctrl 'D') = consoleTaken t := by
  simp [takeChar, consoleTaken, filter_append, hchar]

theorem readChar_balanced {ledger : Ledger (Console.State P) P}
    (hbal : Balanced consoleProgress consoleTaken ledger)
    (hpos : ledger.state.pos p = .inner target n) (copied : Bool) :
    Balanced consoleProgress consoleTaken (recordChar ledger p target n copied
      (readChar ledger.state p target n copied)) := by
  have hcount : consoleProgress ledger.state p = some (target - n) := by
    rw [consoleProgress, hpos]
    rfl
  have hvalue : ((ledger.dst p).length : ℤ) = target - n := hbal.counted p _ hcount
  unfold recordChar readChar
  simp only
  by_cases heof : ledger.state.cons.buf (slot INPUT_BUF ledger.state.cons.r) = ctrl 'D'
  · rw [if_pos heof, if_pos heof]
    split
    · refine hbal.finish (finish_progress rfl) hvalue ?_
      change (putBack (takeChar ledger.state.cons)).consumed.filter _ = _
      rw [putBack_takeChar]
      rfl
    · exact hbal.finish (finish_progress rfl) hvalue (consoleTaken_takeChar_eof ledger.state heof)
  · have htaken := consoleTaken_takeChar ledger.state heof
    rw [if_neg heof, if_neg heof]
    cases copied with
    | false =>
      rw [if_pos rfl, if_pos rfl]
      exact hbal.lose (finish_progress rfl) hvalue htaken
    | true =>
      have hcopied : ¬ (true = false) := Bool.noConfusion
      simp only [if_neg hcopied]
      by_cases hline : ledger.state.cons.buf (slot INPUT_BUF ledger.state.cons.r) = newline
      · rw [if_pos hline, if_pos hline]
        refine Balanced.finish (hbal.store hcount ?_ ?_ htaken) (fun q count hq => hq) ?_ rfl
        · intro q count hq ho
          rw [Console.finish, consoleProgress_setPos, if_neg hq] at ho
          exact ho
        · intro other ho
          rw [Console.finish, consoleProgress_setPos, if_pos rfl] at ho
          cases ho
        · simp only [Ledger.store, update_self, length_append,
            length_singleton, cast_add, cast_one, hvalue]
          ring
      · rw [if_neg hline, if_neg hline]
        refine hbal.store hcount ?_ ?_ htaken
        · intro q count hq ho
          rw [consoleProgress_setPos, if_neg hq] at ho
          exact ho
        · intro other ho
          rw [consoleProgress_setPos, if_pos rfl] at ho
          rw [← Option.some.inj ho]
          ring

theorem consoleread_balanced {ledger : Ledger (Console.State P) P}
    (hbal : Balanced consoleProgress consoleTaken ledger)
    (hpos : ledger.state.pos p = .inner target n) (copied : Bool) :
    Balanced consoleProgress consoleTaken (recordConsoleread ledger p copied
      (consoleread ledger.state p target n copied)) := by
  unfold recordConsoleread consoleread
  simp only [hpos]
  by_cases hnil : ledger.state.cons.r = ledger.state.cons.w
  · rw [if_pos hnil, if_pos hnil]
    by_cases hkilled : ledger.state.killed p = true
    · rw [if_pos hkilled, if_pos hkilled]
      exact hbal.giveUp (finish_progress rfl) rfl
    · rw [if_neg hkilled, if_neg hkilled]
      refine hbal.pass (inside_progress rfl ?_) rfl
      rw [hpos]
      rfl
  · rw [if_neg hnil, if_neg hnil]
    exact readChar_balanced hbal hpos copied

theorem console_next_balanced {ledger : Ledger (Console.State P) P} {copied : Bool}
    (hbal : Balanced consoleProgress consoleTaken ledger)
    (hnext : Console.next ledger.state p copied = some after) :
    Balanced consoleProgress consoleTaken (recordConsoleread ledger p copied after) := by
  cases hpos : ledger.state.pos p with
  | idle | asleep target n => simp [Console.next, hpos] at hnext
  | acquire target n | reacquire target n =>
    simp only [Console.next, hpos, ite_none_right_eq_some, some.injEq] at hnext
    rw [← hnext.2, recordConsoleread]
    simp only [hpos]
    refine hbal.pass (inside_progress rfl ?_) rfl
    rw [hpos]
    rfl
  | outer target n =>
    have hcount : consoleProgress ledger.state p = some (target - n) := by
      rw [consoleProgress, hpos]
      rfl
    simp only [Console.next, hpos] at hnext
    rw [recordConsoleread]
    simp only [hpos]
    by_cases hmore : 0 < n
    · rw [if_pos hmore] at hnext ⊢
      rw [← Option.some.inj hnext]
      refine hbal.pass (inside_progress rfl ?_) rfl
      rw [hpos]
      rfl
    · rw [if_neg hmore] at hnext ⊢
      rw [← Option.some.inj hnext]
      exact hbal.finish (finish_progress rfl) (hbal.counted p _ hcount) rfl
  | inner target n =>
    simp only [Console.next, hpos, some.injEq] at hnext
    rw [← hnext]
    exact consoleread_balanced hbal hpos copied
  | sleep target n =>
    simp only [Console.next, hpos, some.injEq] at hnext
    rw [← hnext, recordConsoleread]
    simp only [hpos]
    refine hbal.pass (inside_progress rfl ?_) rfl
    rw [hpos]
    rfl

theorem store_consumed (cons : Cons) (c : Byte) : (store cons c).1.consumed = cons.consumed := by
  unfold store
  split
  · set stored := if c = carriageReturn then newline else c
    simp only
    split <;> rfl
  · rfl

theorem consoleintr_consumed (cons : Cons) (c : Byte) :
    (consoleintr cons c).1.consumed = cons.consumed := by
  unfold consoleintr
  split
  · rfl
  · split
    · rfl
    · split
      · simp only
        split <;> rfl
      · exact store_consumed cons c

omit [DecidableEq P] in
theorem interrupt_keeps (t : Console.State P) (c : Byte) :
    consoleTaken (interrupt t c) = consoleTaken t ∧
      ∀ q, consoleProgress (interrupt t c) q = consoleProgress t q := by
  have hconsumed := consoleintr_consumed (typed t.cons c) c
  unfold interrupt
  simp only
  split
  · constructor
    · exact congrArg (List.filter _) hconsumed
    · intro q
      exact congrArg (Option.map _) (wake_counts (t.pos q))
  · constructor
    · exact congrArg (List.filter _) hconsumed
    · intro q
      rfl

theorem console_exec_balanced {ledger : Ledger (Console.State P) P} {action : Console.Action P}
    (hbal : Balanced consoleProgress consoleTaken ledger)
    (hexec : Console.exec ledger.state action = some (.ok after)) :
    Balanced consoleProgress consoleTaken (recordConsole ledger action after) := by
  cases action with
  | intr c =>
    simp only [Console.exec, ite_none_right_eq_some, some.injEq, Except.ok.injEq] at hexec
    have hkeeps := interrupt_keeps ledger.state c
    rw [← hexec.2]
    refine hbal.pass ?_ hkeeps.1
    intro q count hcount
    rw [← hkeeps.2 q]
    exact hcount
  | read p n =>
    simp only [Console.exec, ite_none_right_eq_some, some.injEq, Except.ok.injEq] at hexec
    rw [← hexec.2]
    refine hbal.start ?_ ?_ rfl
    · intro q count hq hcount
      rw [consoleProgress_setPos, if_neg hq] at hcount
      exact hcount
    · rw [consoleProgress_setPos, if_pos rfl]
      exact congrArg some (sub_self n)
  | next p copied =>
    simp only [Console.exec, map_eq_some_iff, Except.ok.injEq] at hexec
    obtain ⟨_, hnext, rfl⟩ := hexec
    exact console_next_balanced hbal hnext
  | kill p =>
    simp only [Console.exec, some.injEq, Except.ok.injEq] at hexec
    rw [← hexec]
    exact hbal.pass (inside_progress rfl (wake_counts _)) rfl

abbrev ConsoleRuns (ledger : Ledger (Console.State P) P) : Prop :=
  Reachable consoleExec (fun _ _ => True) (Opened consoleProgress consoleTaken) ledger

theorem console_runs_balanced {ledger : Ledger (Console.State P) P}
    (hruns : ConsoleRuns ledger) : Balanced consoleProgress consoleTaken ledger := by
  apply hruns.invariant
  · intro ledger hopened
    exact hopened.balanced
  · intro ledger action after hbal _ hexec
    rw [consoleExec, map_eq_some_iff] at hexec
    obtain ⟨outcome, houtcome, hrecord⟩ := hexec
    cases outcome with
    | error => cases hrecord
    | ok state =>
      rw [← Except.ok.inj hrecord]
      exact console_exec_balanced hbal houtcome

end

/-! ## What is delivered -/

section
variable {P : Type} [DecidableEq P]

/-- In every run of a pipe, from any state in which nobody is reading, the bytes that
were removed are the bytes that were stored, and every call returns its number of
bytes, exactly when no copy has failed; in every run of the console, the same holds
exactly when, also, no reader was killed while it waited with bytes stored. -/
theorem delivered_iff_no_copy_failed : (∀ ledger : Ledger (Pipe.State P) P, PipeRuns ledger →
      (Delivered Pipe.State.taken ledger ↔ ledger.failed = 0)) ∧
    (∀ ledger : Ledger (Console.State P) P, ConsoleRuns ledger →
      (Delivered consoleTaken ledger ↔ ledger.failed = 0 ∧ ledger.cut = 0)) := by
  constructor
  · intro ledger hruns
    have hboth := pipe_runs_balanced hruns
    rw [hboth.1.delivered_iff]
    exact and_iff_left hboth.2
  · intro ledger hruns
    exact (console_runs_balanced hruns).delivered_iff

end

def opened {σ : Type} (state : σ) : Ledger σ Bool where
  state := state
  dst _ := []
  stored := []
  calls := []
  failed := 0
  cut := 0

theorem pipe_opened : Opened pipeProgress Pipe.State.taken (opened Pipe.wrapping) :=
  ⟨fun _ => rfl, rfl, rfl, rfl, rfl⟩

/-- Two bytes are written to a pipe and one is read, and of a line of two characters one is
read; no copy fails. -/
theorem bytes_delivered :
    (∃ ledger : Ledger (Pipe.State Bool) Bool, PipeRuns ledger ∧
      ledger.calls = [(1, 1)] ∧ Delivered Pipe.State.taken ledger) ∧
    ∃ ledger : Ledger (Console.State Bool) Bool, ConsoleRuns ledger ∧
      ledger.calls = [(1, 1)] ∧ Delivered consoleTaken ledger := by
  obtain ⟨console, htyped, htest⟩ := @exists_reachable (Ledger (Console.State Bool) Bool)
    (Console.Action Bool) Panic consoleExec (fun _ _ => True)
    (Opened consoleProgress consoleTaken) (fun _ _ => true)
    (fun ledger => decide (ledger.calls = [(1, 1)] ∧ ledger.failed = 0 ∧ ledger.cut = 0))
    (opened Console.wrapping)
    [.intr 120, .read true 1, .intr 13, .next true true, .next true true, .next true true,
      .next true true]
    ⟨fun _ => rfl, rfl, rfl, rfl, rfl⟩ (fun _ _ _ => trivial) (by decide +kernel)
  obtain ⟨hread, hnone⟩ := of_decide_eq_true htest
  obtain ⟨ledger, hruns, htest⟩ := @exists_reachable (Ledger (Pipe.State Bool) Bool)
    (Bool × Pipe.Action) Panic pipeExec (fun _ _ => True)
    (Opened pipeProgress Pipe.State.taken) (fun _ _ => true)
    (fun ledger => decide (ledger.calls = [(1, 1)] ∧ ledger.failed = 0)) (opened Pipe.wrapping)
    [(true, .write 2), (true, .next none), (true, .next (some 7)),
      (true, .next (some 8)), (true, .next none), (false, .read 1),
      (false, .next none), (false, .next none), (false, .next (some 0)),
      (false, .next none)]
    pipe_opened (fun _ _ _ => trivial) (by decide +kernel)
  obtain ⟨hcalls, hfailed⟩ := of_decide_eq_true htest
  have hiff := @delivered_iff_no_copy_failed Bool _
  exact ⟨⟨ledger, hruns, hcalls, (hiff.1 ledger hruns).mpr hfailed⟩,
    console, htyped, hread, (hiff.2 console htyped).mpr hnone⟩

/-- Two bytes are written.  A read of two bytes whose first copy fails returns 0, and
the next read gets the second byte: the first one is lost. -/
theorem pipe_byte_lost : ∃ ledger : Ledger (Pipe.State Bool) Bool, PipeRuns ledger ∧
      ledger.state.taken = [7, 8] ∧ ledger.stored = [8] ∧
      ledger.calls = [(0, 0), (1, 1)] ∧ ¬ Delivered Pipe.State.taken ledger := by
  obtain ⟨ledger, hruns, htest⟩ := @exists_reachable (Ledger (Pipe.State Bool) Bool)
    (Bool × Pipe.Action) Panic pipeExec (fun _ _ => True)
    (Opened pipeProgress Pipe.State.taken) (fun _ _ => true)
    (fun ledger => decide (ledger.state.taken = [7, 8] ∧ ledger.stored = [8] ∧
      ledger.calls = [(0, 0), (1, 1)])) (opened Pipe.wrapping)
    [(true, .write 2), (true, .next none), (true, .next (some 7)),
      (true, .next (some 8)), (true, .next none), (false, .read 2),
      (false, .next none), (false, .next none), (false, .next none),
      (false, .read 2), (false, .next none), (false, .next none),
      (false, .next (some 0)), (false, .next none)]
    pipe_opened (fun _ _ _ => trivial) (by decide +kernel)
  obtain ⟨htaken, hstored, hcalls⟩ := of_decide_eq_true htest
  refine ⟨ledger, hruns, htaken, hstored, hcalls, ?_⟩
  intro hdelivered
  have hsame := hdelivered.1
  rw [htaken, hstored] at hsame
  cases hsame

end Xv6.DeliveredInput
