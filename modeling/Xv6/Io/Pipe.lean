import Xv6.Core.Interleaving
import Xv6.Core.RingBuffer
import Xv6.Panic

/-!
# Pipes

`pipewrite`, `piperead` and `pipeclose` of `kernel/pipe.c` by any number of
processes.  A process moves by single iterations of the loops; it holds `pi->lock`
at some of its positions, and `sleep` releases the lock and makes the process
`SLEEPING` in one action.  `kill` sets the flag of a process at any moment.  What
`copyin` and `copyout` do is an argument of the action.
-/

namespace Xv6.Pipe

open Interleaving RingBuffer

def PIPESIZE : ℕ := 512

abbrev Byte := BitVec 8

/-- Where a process is in `pipewrite(pi, addr, n)` or `piperead(pi, addr, n)`. -/
inductive Pos where
  | idle
  /-- Before `acquire(&pi->lock)`, at the start or at the end of `sleep`. -/
  | writeAcquire (n : ℤ) (i : ℕ)
  /-- The test of the loop of `pipewrite`; `fresh` is history: a byte was put in
  since the lock was acquired. -/
  | writeLoop (n : ℤ) (i : ℕ) (fresh : Bool)
  /-- In `sleep(&pi->nwrite, &pi->lock)`, before `release(lk)`. -/
  | writeSleep (n : ℤ) (i : ℕ)
  /-- `SLEEPING` on `&pi->nwrite`. -/
  | writeAsleep (n : ℤ) (i : ℕ)
  | readAcquire (n : ℤ)
  /-- The test of the first loop of `piperead`. -/
  | readWait (n : ℤ)
  /-- In `sleep(&pi->nread, &pi->lock)`, before `release(lk)`. -/
  | readSleep (n : ℤ)
  /-- `SLEEPING` on `&pi->nread`. -/
  | readAsleep (n : ℤ)
  /-- The test of the second loop of `piperead`. -/
  | readCopy (n : ℤ) (i : ℕ)
  deriving DecidableEq

structure State (P : Type) where
  data : ℕ → Byte
  nread : BitVec 32
  nwrite : BitVec 32
  readopen : Bool
  writeopen : Bool
  lock : Option P
  pos : P → Pos
  killed : P → Bool
  /-- History: the bytes put in by writers and taken out by readers. -/
  put : List Byte
  taken : List Byte

inductive Action where
  | write (n : ℤ)
  | read (n : ℤ)
  /-- The next iteration or lock operation; `byte` is what `copyin` reads, and is
  `none` when `copyin` or `copyout` fails. -/
  | next (byte : Option Byte)
  | close (writable : Bool)
  /-- `kill` of this process. -/
  | kill
  deriving DecidableEq

section
variable {P : Type} [DecidableEq P]

def setPos (t : State P) (p : P) (pos : Pos) : State P :=
  { t with pos := Function.update t.pos p pos }

def take (t : State P) (p : P) (pos : Pos) : State P := setPos { t with lock := some p } p pos

def leave (t : State P) (p : P) (pos : Pos) : State P := setPos { t with lock := none } p pos

/-- A process sleeping on `&pi->nread` becomes runnable. -/
def wakeReader : Pos → Pos
  | .readAsleep n => .readAcquire n
  | pos => pos

/-- A process sleeping on `&pi->nwrite` becomes runnable. -/
def wakeWriter : Pos → Pos
  | .writeAsleep n i => .writeAcquire n i
  | pos => pos

def wakeReaders (t : State P) : State P := { t with pos := fun p => wakeReader (t.pos p) }

def wakeWriters (t : State P) : State P := { t with pos := fun p => wakeWriter (t.pos p) }

def putByte (t : State P) (ch : Byte) : State P :=
  { t with
    data := Function.update t.data (slot PIPESIZE t.nwrite) ch
    nwrite := t.nwrite + 1
    put := t.put ++ [ch] }

def takeByte (t : State P) : State P :=
  { t with
    nread := t.nread + 1
    taken := t.taken ++ [t.data (slot PIPESIZE t.nread)] }

def pipewrite (t : State P) (p : P) (n : ℤ) (i : ℕ) (byte : Option Byte) :
    State P :=
  if (i : ℤ) < n then
    if t.readopen = false ∨ t.killed p = true then leave t p .idle
    else if t.nwrite = t.nread + BitVec.ofNat 32 PIPESIZE then
      setPos (wakeReaders t) p (.writeSleep n i)
    else
      match byte with
      | none => leave (wakeReaders t) p .idle
      | some ch => setPos (putByte t ch) p (.writeLoop n (i + 1) true)
  else leave (wakeReaders t) p .idle

def pipereadWait (t : State P) (p : P) (n : ℤ) : State P :=
  if t.nread = t.nwrite ∧ t.writeopen = true then
    if t.killed p = true then leave t p .idle
    else setPos t p (.readSleep n)
  else setPos t p (.readCopy n 0)

def pipereadCopy (t : State P) (p : P) (n : ℤ) (i : ℕ) (byte : Option Byte) :
    State P :=
  if (i : ℤ) < n ∧ t.nread ≠ t.nwrite then
    match byte with
    | none => leave (wakeWriters (takeByte t)) p .idle
    | some _ => setPos (takeByte t) p (.readCopy n (i + 1))
  else leave (wakeWriters t) p .idle

def pipeclose (t : State P) (writable : Bool) : State P :=
  if writable then wakeReaders { t with writeopen := false }
  else wakeWriters { t with readopen := false }

def next (t : State P) (p : P) (byte : Option Byte) : Option (State P) :=
  match t.pos p with
  | .idle => none
  | .writeAcquire n i => if t.lock = none then some (take t p (.writeLoop n i false)) else none
  | .writeLoop n i _ => some (pipewrite t p n i byte)
  | .writeSleep n i => some (leave t p (.writeAsleep n i))
  | .writeAsleep _ _ => none
  | .readAcquire n => if t.lock = none then some (take t p (.readWait n)) else none
  | .readWait n => some (pipereadWait t p n)
  | .readSleep n => some (leave t p (.readAsleep n))
  | .readAsleep _ => none
  | .readCopy n i => some (pipereadCopy t p n i byte)

/-- `p->killed = 1`, and a sleeping process becomes runnable. -/
def kill (t : State P) (p : P) : State P :=
  setPos { t with killed := Function.update t.killed p true } p (wakeWriter (wakeReader (t.pos p)))

def exec (t : State P) : P × Action → Option (Except Panic (State P))
  | (p, .write n) => if t.pos p = .idle then some (.ok (setPos t p (.writeAcquire n 0))) else none
  | (p, .read n) => if t.pos p = .idle then some (.ok (setPos t p (.readAcquire n))) else none
  | (p, .next byte) => (next t p byte).map .ok
  | (p, .close writable) =>
    if t.pos p = .idle ∧ t.lock = none then some (.ok (pipeclose t writable))
    else none
  | (p, .kill) => some (.ok (kill t p))

end

/-- As `pipealloc` leaves the pipe; the counters have any common value. -/
structure Initial {P : Type} (t : State P) : Prop where
  nwrite : t.nwrite = t.nread
  lock : t.lock = none
  pos : ∀ p, t.pos p = .idle
  put : t.put = []
  taken : t.taken = []

/-! ## The ring is a queue -/

section
variable {P : Type} {t after : State P}

def contents (t : State P) : List Byte := read PIPESIZE t.data t.nread (t.nwrite - t.nread).toNat

/-- Some list of bytes is in the ring, and is what was put in and not taken. -/
def Queue (t : State P) : Prop :=
  ∃ items, Holds PIPESIZE t.data t.nread items ∧
    t.nwrite = advance t.nread items.length ∧ t.put = t.taken ++ items

/-- The fields of the ring are the same. -/
structure SameRing (t after : State P) : Prop where
  data : after.data = t.data
  nread : after.nread = t.nread
  nwrite : after.nwrite = t.nwrite
  put : after.put = t.put
  taken : after.taken = t.taken

theorem SameRing.queue (hsame : SameRing t after) (hqueue : Queue t) : Queue after := by
  obtain ⟨items, hholds, hnwrite, hput⟩ := hqueue
  refine ⟨items, ?_, ?_, ?_⟩
  · rw [hsame.data, hsame.nread]
    exact hholds
  · rw [hsame.nwrite, hsame.nread]
    exact hnwrite
  · rw [hsame.put, hsame.taken]
    exact hput

theorem PIPESIZE_dvd : PIPESIZE ∣ 2 ^ 32 := ⟨2 ^ 23, by norm_num [PIPESIZE]⟩

theorem PIPESIZE_lt : PIPESIZE < 2 ^ 32 := by norm_num [PIPESIZE]

theorem full_iff {items : List Byte} (hholds : Holds PIPESIZE t.data t.nread items)
    (hnwrite : t.nwrite = advance t.nread items.length) :
    t.nwrite = t.nread + BitVec.ofNat 32 PIPESIZE ↔ items.length = PIPESIZE := by
  rw [hnwrite]
  exact advance_inj (lt_of_le_of_lt hholds.length_le PIPESIZE_lt) PIPESIZE_lt

theorem empty_iff {items : List Byte} (hholds : Holds PIPESIZE t.data t.nread items)
    (hnwrite : t.nwrite = advance t.nread items.length) : t.nread = t.nwrite ↔ items = [] := by
  have hinj := @advance_inj _ t.nread 0 items.length (by norm_num)
    (lt_of_le_of_lt hholds.length_le PIPESIZE_lt)
  rw [hnwrite, ← List.length_eq_zero_iff, eq_comm (a := items.length), ← hinj, advance_zero]

theorem putByte_queue (hqueue : Queue t)
    (hroom : t.nwrite ≠ t.nread + BitVec.ofNat 32 PIPESIZE) (ch : Byte) : Queue (putByte t ch) := by
  obtain ⟨items, hholds, hnwrite, hput⟩ := hqueue
  have hlen : items.length < PIPESIZE :=
    lt_of_le_of_ne hholds.length_le fun hfull => hroom ((full_iff hholds hnwrite).mpr hfull)
  refine ⟨items ++ [ch], ?_, ?_, ?_⟩
  · have hpush := hholds.push PIPESIZE_dvd hlen ch
    rwa [← hnwrite] at hpush
  · change t.nwrite + 1 = _
    rw [hnwrite, List.length_append, List.length_singleton, ← advance_advance, advance_one]
    rfl
  · change t.put ++ [ch] = t.taken ++ (items ++ [ch])
    rw [hput, List.append_assoc]

theorem takeByte_queue (hqueue : Queue t) (hsome : t.nread ≠ t.nwrite) : Queue (takeByte t) := by
  obtain ⟨items, hholds, hnwrite, hput⟩ := hqueue
  cases items with
  | nil => exact absurd ((empty_iff hholds hnwrite).mpr rfl) hsome
  | cons ch items =>
    obtain ⟨hbyte, hrest⟩ := hholds.pop
    refine ⟨items, hrest, ?_, ?_⟩
    · change t.nwrite = advance (t.nread + 1) items.length
      rw [hnwrite, ← advance_one, advance_advance, List.length_cons, Nat.add_comm]
    · change t.put = t.taken ++ [t.data (slot PIPESIZE t.nread)] ++ items
      rw [hbyte, hput, List.append_assoc]
      rfl

variable [DecidableEq P]

theorem next_queue {p : P} {byte : Option Byte} (hqueue : Queue t)
    (hnext : next t p byte = some after) : Queue after := by
  have hsame : ∀ other : State P, other.data = t.data → other.nread = t.nread →
      other.nwrite = t.nwrite → other.put = t.put → other.taken = t.taken →
      Queue other := fun other hdata hnread hnwrite hput htaken =>
    SameRing.queue ⟨hdata, hnread, hnwrite, hput, htaken⟩ hqueue
  unfold next at hnext
  split at hnext
  case h_1 | h_5 | h_9 => cases hnext
  case h_2 | h_6 =>
    split at hnext <;> cases hnext
    exact hsame _ rfl rfl rfl rfl rfl
  case h_3 =>
    cases hnext
    unfold pipewrite
    split
    · split
      · exact hsame _ rfl rfl rfl rfl rfl
      · split
        · exact hsame _ rfl rfl rfl rfl rfl
        case isFalse hroom =>
          split
          · exact hsame _ rfl rfl rfl rfl rfl
          case h_2 ch =>
            exact SameRing.queue ⟨rfl, rfl, rfl, rfl, rfl⟩ (putByte_queue hqueue hroom ch)
    · exact hsame _ rfl rfl rfl rfl rfl
  case h_4 | h_8 =>
    cases hnext
    exact hsame _ rfl rfl rfl rfl rfl
  case h_7 =>
    cases hnext
    unfold pipereadWait
    split
    · split <;> exact hsame _ rfl rfl rfl rfl rfl
    · exact hsame _ rfl rfl rfl rfl rfl
  case h_10 =>
    cases hnext
    unfold pipereadCopy
    split
    case isTrue hbyte =>
      have htake := takeByte_queue hqueue hbyte.2
      split <;> exact SameRing.queue ⟨rfl, rfl, rfl, rfl, rfl⟩ htake
    case isFalse => exact hsame _ rfl rfl rfl rfl rfl

theorem exec_queue {action : P × Action} (hqueue : Queue t)
    (hexec : exec t action = some (.ok after)) : Queue after := by
  obtain ⟨p, action⟩ := action
  cases action with
  | write n | read n =>
    simp only [exec] at hexec
    split at hexec <;> cases hexec
    exact SameRing.queue ⟨rfl, rfl, rfl, rfl, rfl⟩ hqueue
  | next byte =>
    simp only [exec, Option.map_eq_some_iff, Except.ok.injEq] at hexec
    obtain ⟨_, hnext, rfl⟩ := hexec
    exact next_queue hqueue hnext
  | close writable =>
    simp only [exec] at hexec
    split at hexec <;> cases hexec
    unfold pipeclose
    split <;> exact SameRing.queue ⟨rfl, rfl, rfl, rfl, rfl⟩ hqueue
  | kill =>
    cases hexec
    exact SameRing.queue ⟨rfl, rfl, rfl, rfl, rfl⟩ hqueue

abbrev Runs (t : State P) : Prop := Reachable exec (fun _ _ => True) Initial t

theorem runs_queue (hruns : Runs t) : Queue t := by
  refine @Reachable.invariant _ _ _ _ _ _ Queue t hruns ?_ ?_
  · intro t hinit
    refine ⟨[], .nil _ _, ?_, ?_⟩
    · rw [List.length_nil, advance_zero]
      exact hinit.nwrite
    · rw [hinit.put, hinit.taken]
      rfl
  · intro t action after hqueue _ hexec
    exact exec_queue hqueue hexec

/-- In every run, across the wrap-around of the counters, at most `PIPESIZE` bytes
are in the pipe, and the bytes put in are those taken out followed by the contents
of the ring. -/
theorem pipe_is_fifo (t : State P) (hruns : Runs t) :
    (t.nwrite - t.nread).toNat ≤ PIPESIZE ∧ t.put = t.taken ++ contents t := by
  obtain ⟨items, hholds, hnwrite, hput⟩ := runs_queue hruns
  have hlength : (t.nwrite - t.nread).toNat = items.length := by
    rw [hnwrite, advance_sub, BitVec.toNat_ofNat]
    exact Nat.mod_eq_of_lt (lt_of_le_of_lt hholds.length_le PIPESIZE_lt)
  constructor
  · rw [hlength]
    exact hholds.length_le
  · rw [contents, hlength, hholds.read_eq]
    exact hput

/-- An empty pipe whose counters are about to wrap around. -/
def wrapping : State Bool where
  data _ := 0
  nread := BitVec.ofNat 32 (2 ^ 32 - 1)
  nwrite := BitVec.ofNat 32 (2 ^ 32 - 1)
  readopen := true
  writeopen := true
  lock := none
  pos _ := .idle
  killed _ := false
  put := []
  taken := []

theorem wrapping_initial : Initial wrapping := ⟨rfl, rfl, fun _ => rfl, rfl, rfl⟩

end

/-- Two bytes are written across the wrap-around, and one is read. -/
theorem pipe_is_fifo_wrapping : ∃ t : State Bool, Runs t ∧ t.nwrite = 1 ∧ t.put = [7, 8] ∧
      t.put = t.taken ++ contents t ∧ t.taken = [7] := by
  obtain ⟨t, hruns, htest⟩ := @exists_reachable (State Bool) (Bool × Action) Panic
    exec (fun _ _ => True) Initial (fun _ _ => true)
    (fun t => decide (t.nwrite = 1 ∧ t.put = [7, 8] ∧ t.taken = [7])) wrapping
    [(true, .write 2), (true, .next none), (true, .next (some 7)),
      (true, .next (some 8)), (true, .next none), (false, .read 1),
      (false, .next none), (false, .next none), (false, .next (some 0))]
    wrapping_initial (fun _ _ _ => trivial) (by decide +kernel)
  obtain ⟨hnwrite, hput, htaken⟩ := of_decide_eq_true htest
  exact ⟨t, hruns, hnwrite, hput, (pipe_is_fifo t hruns).2, htaken⟩

end Xv6.Pipe
