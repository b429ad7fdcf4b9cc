import Xv6.Io.Pipe

/-!
# Sleeping on a pipe

Whether a process can be asleep on a pipe that is ready for it.  The one exit of
the two loops that owes a wakeup and does not give it is the return of `pipewrite`
for a killed process that has put bytes in since it took the lock.
-/

namespace Xv6.PipeWakeup

open Interleaving Pipe Function

variable {pos : Pos} {n : ℤ} {i : ℕ}

section
variable {P : Type}

/-- The positions at which a process holds `pi->lock`. -/
def holding : Pos → Bool
  | .writeLoop _ _ _ => true
  | .writeSleep _ _ => true
  | .readWait _ => true
  | .readSleep _ => true
  | .readCopy _ _ => true
  | _ => false

def Empty (t : State P) : Prop := t.nread = t.nwrite

def Full (t : State P) : Prop := t.nwrite = t.nread + BitVec.ofNat 32 PIPESIZE

/-- A writer that has put bytes in will wake the readers. -/
def owesReaders : Pos → Bool
  | .writeLoop _ _ true => true
  | _ => false

def owesWriters : Pos → Bool
  | .readCopy _ _ => true
  | _ => false

/-- What the holder of the lock knows at its position. -/
def Sound (t : State P) (p : P) : Pos → Prop
  | .writeLoop _ _ true => t.readopen = true ∧ t.killed p = false
  | .readSleep _ => Empty t ∧ t.writeopen = true
  | .writeSleep _ _ => Full t ∧ t.readopen = true
  | _ => True

structure Ready (t : State P) : Prop where
  owner : ∀ p, holding (t.pos p) = true ↔ t.lock = some p
  sound : ∀ p, Sound t p (t.pos p)
  reader : ∀ q n, t.pos q = .readAsleep n → (Empty t ∧ t.writeopen = true) ∨
    ∃ p, owesReaders (t.pos p) = true
  writer : ∀ q n i, t.pos q = .writeAsleep n i → (Full t ∧ t.readopen = true) ∨
    ∃ p, owesWriters (t.pos p) = true

variable [DecidableEq P]

/-- What one action can do. -/
inductive Step (t : State P) : State P → Prop where
  | start (p : P) (pos : Pos) : t.pos p = .idle →
      (∃ n, pos = .writeAcquire n 0 ∨ pos = .readAcquire n) →
      Step t (setPos t p pos)
  | writeAcquire (p : P) (n : ℤ) (i : ℕ) : t.pos p = .writeAcquire n i →
      t.lock = none → Step t (take t p (.writeLoop n i false))
  | writeFail (p : P) (n : ℤ) (i : ℕ) (fresh : Bool) :
      t.pos p = .writeLoop n i fresh →
      t.readopen = false ∨ t.killed p = true → Step t (leave t p .idle)
  | writeFull (p : P) (n : ℤ) (i : ℕ) (fresh : Bool) :
      t.pos p = .writeLoop n i fresh → t.readopen = true → Full t →
      Step t (setPos (wakeReaders t) p (.writeSleep n i))
  | writePut (p : P) (n : ℤ) (i : ℕ) (fresh : Bool) (ch : Byte) :
      t.pos p = .writeLoop n i fresh → t.readopen = true → t.killed p = false →
      ¬ Full t → Step t (setPos (putByte t ch) p (.writeLoop n (i + 1) true))
  | writeEnd (p : P) (n : ℤ) (i : ℕ) (fresh : Bool) :
      t.pos p = .writeLoop n i fresh → Step t (leave (wakeReaders t) p .idle)
  | writeSleep (p : P) (n : ℤ) (i : ℕ) : t.pos p = .writeSleep n i →
      Step t (leave t p (.writeAsleep n i))
  | readAcquire (p : P) (n : ℤ) : t.pos p = .readAcquire n → t.lock = none →
      Step t (take t p (.readWait n))
  | readFail (p : P) (n : ℤ) : t.pos p = .readWait n → Step t (leave t p .idle)
  | readEmpty (p : P) (n : ℤ) : t.pos p = .readWait n → Empty t →
      t.writeopen = true → Step t (setPos t p (.readSleep n))
  | readStart (p : P) (n : ℤ) : t.pos p = .readWait n → Step t (setPos t p (.readCopy n 0))
  | readSleep (p : P) (n : ℤ) : t.pos p = .readSleep n → Step t (leave t p (.readAsleep n))
  | readTake (p : P) (n : ℤ) (i : ℕ) : t.pos p = .readCopy n i → ¬ Empty t →
      Step t (setPos (takeByte t) p (.readCopy n (i + 1)))
  | readLast (p : P) (n : ℤ) (i : ℕ) : t.pos p = .readCopy n i → ¬ Empty t →
      Step t (leave (wakeWriters (takeByte t)) p .idle)
  | readEnd (p : P) (n : ℤ) (i : ℕ) : t.pos p = .readCopy n i →
      Step t (leave (wakeWriters t) p .idle)
  | closeWrite : t.lock = none → Step t (wakeReaders { t with writeopen := false })
  | closeRead : t.lock = none → Step t (wakeWriters { t with readopen := false })
  | kill (p : P) : owesReaders (t.pos p) = false → Step t (kill t p)

/-- `kill` does not reach a process that is in the loop of `pipewrite` and has put a
byte in since it took the lock. -/
def Timely (t : State P) : P × Action → Prop
  | (p, .kill) => owesReaders (t.pos p) = false
  | _ => True

variable {t after : State P}

theorem next_step {p : P} {byte : Option Byte} (hnext : next t p byte = some after) :
    Step t after := by
  unfold next at hnext
  split at hnext
  case h_1 | h_5 | h_9 => cases hnext
  case h_2 n i hpos =>
    split at hnext <;> cases hnext
    exact .writeAcquire p n i hpos ‹_›
  case h_3 n i fresh hpos =>
    cases hnext
    unfold pipewrite
    split
    case isFalse => exact .writeEnd p n i fresh hpos
    case isTrue =>
      split
      case isTrue hfail => exact .writeFail p n i fresh hpos hfail
      case isFalse hgood =>
        obtain ⟨hopen, hkilled⟩ := not_or.mp hgood
        rw [Bool.not_eq_false] at hopen
        rw [Bool.not_eq_true] at hkilled
        split
        case isTrue hfull => exact .writeFull p n i fresh hpos hopen hfull
        case isFalse hroom =>
          split
          · exact .writeEnd p n i fresh hpos
          case h_2 ch => exact .writePut p n i fresh ch hpos hopen hkilled hroom
  case h_4 n i hpos =>
    cases hnext
    exact .writeSleep p n i hpos
  case h_6 n hpos =>
    split at hnext <;> cases hnext
    exact .readAcquire p n hpos ‹_›
  case h_7 n hpos =>
    cases hnext
    unfold pipereadWait
    split
    case isTrue hwait =>
      split
      · exact .readFail p n hpos
      · exact .readEmpty p n hpos hwait.1 hwait.2
    case isFalse => exact .readStart p n hpos
  case h_8 n hpos =>
    cases hnext
    exact .readSleep p n hpos
  case h_10 n i hpos =>
    cases hnext
    unfold pipereadCopy
    split
    case isTrue hbyte =>
      split
      · exact .readLast p n i hpos hbyte.2
      · exact .readTake p n i hpos hbyte.2
    case isFalse => exact .readEnd p n i hpos

theorem exec_step {action : P × Action} (htimely : Timely t action)
    (hexec : exec t action = some (.ok after)) : Step t after := by
  obtain ⟨p, action⟩ := action
  cases action with
  | write n =>
    simp only [exec] at hexec
    split at hexec <;> cases hexec
    exact .start p _ ‹_› ⟨n, .inl rfl⟩
  | read n =>
    simp only [exec] at hexec
    split at hexec <;> cases hexec
    exact .start p _ ‹_› ⟨n, .inr rfl⟩
  | next byte =>
    simp only [exec, Option.map_eq_some_iff, Except.ok.injEq] at hexec
    obtain ⟨_, hnext, rfl⟩ := hexec
    exact next_step hnext
  | close writable =>
    simp only [exec] at hexec
    split at hexec
    case isFalse => cases hexec
    case isTrue hfree =>
      cases hexec
      unfold pipeclose
      split
      · exact .closeWrite hfree.2
      · exact .closeRead hfree.2
  | kill =>
    cases hexec
    exact .kill p htimely

theorem holding_wakeReader (pos : Pos) : holding (wakeReader pos) = holding pos := by
  cases pos <;> rfl

theorem holding_wakeWriter (pos : Pos) : holding (wakeWriter pos) = holding pos := by
  cases pos <;> rfl

theorem wakeReader_ne (pos : Pos) (n : ℤ) : wakeReader pos ≠ .readAsleep n := by
  cases pos <;> simp [wakeReader]

theorem wakeWriter_ne (pos : Pos) (n : ℤ) (i : ℕ) : wakeWriter pos ≠ .writeAsleep n i := by
  cases pos <;> simp [wakeWriter]

theorem wakeReader_writeAsleep (hpos : wakeReader pos = .writeAsleep n i) :
    pos = .writeAsleep n i := by
  cases pos <;> simp_all [wakeReader]

theorem wakeWriter_readAsleep (hpos : wakeWriter pos = .readAsleep n) : pos = .readAsleep n := by
  cases pos <;> simp_all [wakeWriter]

theorem owesReaders_holding (howes : owesReaders pos = true) : holding pos = true := by
  cases pos <;> first | rfl | cases howes

theorem owesWriters_holding (howes : owesWriters pos = true) : holding pos = true := by
  cases pos <;> first | rfl | cases howes

omit [DecidableEq P] in
theorem sound_of_not_holding (t : State P) (p : P)
    (hnot : holding pos = false) : Sound t p pos := by
  cases pos <;> trivial

variable {p : P}

omit [DecidableEq P] in
theorem Ready.others (hready : Ready t)
    (hp : holding (t.pos p) = true ∨ t.lock = none) {q : P} (hq : q ≠ p) :
    holding (t.pos q) = false := by
  rw [Bool.eq_false_iff]
  intro hholding
  have hlock := (hready.owner q).mp hholding
  rcases hp with hp | hp
  · rw [(hready.owner p).mp hp, Option.some.injEq] at hlock
    exact hq hlock.symm
  · rw [hp] at hlock
    cases hlock

omit [DecidableEq P] in
/-- While `p` has the lock, or nobody has, only `p` can owe the readers a wakeup. -/
theorem Ready.reader_of (hready : Ready t)
    (hp : holding (t.pos p) = true ∨ t.lock = none) {q : P} (hq : t.pos q = .readAsleep n) :
    (Empty t ∧ t.writeopen = true) ∨ owesReaders (t.pos p) = true := by
  rcases hready.reader q n hq with hgood | ⟨r, howes⟩
  · exact .inl hgood
  · by_cases hr : r = p
    · exact .inr (hr ▸ howes)
    · have hnot := hready.others hp hr
      rw [owesReaders_holding howes] at hnot
      cases hnot

omit [DecidableEq P] in
theorem Ready.writer_of (hready : Ready t) (hp : holding (t.pos p) = true ∨ t.lock = none) {q : P}
    (hq : t.pos q = .writeAsleep n i) :
    (Full t ∧ t.readopen = true) ∨ owesWriters (t.pos p) = true := by
  rcases hready.writer q n i hq with hgood | ⟨r, howes⟩
  · exact .inl hgood
  · by_cases hr : r = p
    · exact .inr (hr ▸ howes)
    · have hnot := hready.others hp hr
      rw [owesWriters_holding howes] at hnot
      cases hnot

omit [DecidableEq P] in
/-- The process with the lock, or one that takes it, makes a step; others are at
most woken up. -/
theorem Ready.move (hready : Ready t) (hp : holding (t.pos p) = true ∨ t.lock = none)
    (hothers : ∀ q, q ≠ p → holding (after.pos q) = holding (t.pos q))
    (hlock : after.lock = if holding (after.pos p) = true then some p else none)
    (hsound : Sound after p (after.pos p))
    (hreader : ∀ q n, after.pos q = .readAsleep n →
      (Empty after ∧ after.writeopen = true) ∨ owesReaders (after.pos p) = true)
    (hwriter : ∀ q n i, after.pos q = .writeAsleep n i →
      (Full after ∧ after.readopen = true) ∨ owesWriters (after.pos p) = true) :
    Ready after := by
  have hnot : ∀ q, q ≠ p → holding (after.pos q) = false := fun q hq => by
    rw [hothers q hq]
    exact hready.others hp hq
  refine ⟨?_, ?_, ?_, ?_⟩
  · intro q
    by_cases hq : q = p
    · subst hq
      rw [hlock]
      split <;> simp_all
    · rw [hnot q hq, hlock]
      split <;> simp [Ne.symm hq]
  · intro q
    by_cases hq : q = p
    · rw [hq]
      exact hsound
    · exact sound_of_not_holding after q (hnot q hq)
  · intro q n hq
    exact (hreader q n hq).imp_right fun howes => ⟨p, howes⟩
  · intro q n i hq
    exact (hwriter q n i hq).imp_right fun howes => ⟨p, howes⟩

/-- `p` goes to another position and the pipe stays as it is; the conditions are
about `p` only. -/
theorem Ready.go (hready : Ready t)
    (hp : holding (t.pos p) = true ∨ t.lock = none) (lock : Option P) (pos : Pos)
    (hlock : lock = if holding pos = true then some p else none)
    (hsound : Sound t p pos)
    (hreader : owesReaders (t.pos p) = true → owesReaders pos = true)
    (hwriter : owesWriters (t.pos p) = true → owesWriters pos = true)
    (hreadAsleep : ∀ n, pos = .readAsleep n → Empty t ∧ t.writeopen = true)
    (hwriteAsleep : ∀ n i, pos = .writeAsleep n i → Full t ∧ t.readopen = true) :
    Ready (setPos { t with lock := lock } p pos) := by
  have hself : (setPos { t with lock := lock } p pos).pos p = pos := by simp [setPos]
  have ho : ∀ q, q ≠ p → (setPos { t with lock := lock } p pos).pos q = t.pos q := by
    intro q hq
    simp [setPos, hq]
  refine hready.move hp ?_ ?_ ?_ ?_ ?_
  · intro q hq
    rw [ho q hq]
  · rw [hself]
    exact hlock
  · rw [hself]
    exact hsound
  · intro q n hq
    rw [hself]
    by_cases hqp : q = p
    · rw [hqp, hself] at hq
      exact .inl (hreadAsleep n hq)
    · rw [ho q hqp] at hq
      exact (hready.reader_of hp hq).imp_right hreader
  · intro q n i hq
    rw [hself]
    by_cases hqp : q = p
    · rw [hqp, hself] at hq
      exact .inl (hwriteAsleep n i hq)
    · rw [ho q hqp] at hq
      exact (hready.writer_of hp hq).imp_right hwriter

/-- The positions that a process enters without the lock: it neither holds the lock
nor sleeps. -/
def calm : Pos → Bool
  | .idle => true
  | .writeAcquire _ _ => true
  | .readAcquire _ => true
  | _ => false

omit [DecidableEq P] in
theorem Ready.calm (hready : Ready t) (hlock : after.lock = t.lock)
    (hread : Empty after ∧ after.writeopen = true ↔ Empty t ∧ t.writeopen = true)
    (hwrite : Full after ∧ after.readopen = true ↔ Full t ∧ t.readopen = true)
    (hpos : ∀ q, after.pos q = t.pos q ∨ holding (t.pos q) = false ∧ calm (after.pos q) = true)
    (hsound : ∀ q, Sound after q (t.pos q)) : Ready after := by
  have hcalm : ∀ {pos : Pos}, PipeWakeup.calm pos = true → holding pos = false := by
    intro pos hpos
    cases pos <;> first | rfl | cases hpos
  have hholding : ∀ q, holding (after.pos q) = holding (t.pos q) := by
    intro q
    rcases hpos q with hsame | ⟨hnot, hquiet⟩
    · rw [hsame]
    · rw [hnot, hcalm hquiet]
  have hkeeps : ∀ q, holding (t.pos q) = true → after.pos q = t.pos q := by
    intro q hq
    rcases hpos q with hsame | ⟨hnot, _⟩
    · exact hsame
    · rw [hnot] at hq
      cases hq
  refine ⟨?_, ?_, ?_, ?_⟩
  · intro q
    rw [hholding q, hlock]
    exact hready.owner q
  · intro q
    rcases hpos q with hsame | ⟨_, hquiet⟩
    · rw [hsame]
      exact hsound q
    · exact sound_of_not_holding after q (hcalm hquiet)
  · intro q n hq
    have hold : t.pos q = .readAsleep n := by
      rcases hpos q with hsame | ⟨_, hquiet⟩
      · rw [← hsame]
        exact hq
      · rw [hq] at hquiet
        cases hquiet
    rcases hready.reader q n hold with hgood | ⟨p, howes⟩
    · exact .inl (hread.mpr hgood)
    · exact .inr ⟨p, by rw [hkeeps p (owesReaders_holding howes)]; exact howes⟩
  · intro q n i hq
    have hold : t.pos q = .writeAsleep n i := by
      rcases hpos q with hsame | ⟨_, hquiet⟩
      · rw [← hsame]
        exact hq
      · rw [hq] at hquiet
        cases hquiet
    rcases hready.writer q n i hold with hgood | ⟨p, howes⟩
    · exact .inl (hwrite.mpr hgood)
    · exact .inr ⟨p, by rw [hkeeps p (owesWriters_holding howes)]; exact howes⟩

omit [DecidableEq P] in
theorem Ready.free (hready : Ready t) (hfree : t.lock = none) (q : P) :
    holding (t.pos q) = false := by
  rw [Bool.eq_false_iff]
  intro hholding
  rw [(hready.owner q).mp hholding] at hfree
  cases hfree

omit [DecidableEq P] in
theorem Ready.no_reader (hready : Ready t)
    (hpos : t.pos p = .readCopy n i) (hsome : ¬ Empty t) (q : P) (m : ℤ) :
    t.pos q ≠ .readAsleep m := by
  intro hq
  rcases hready.reader_of (.inl (by rw [hpos]; rfl)) hq with hgood | howes
  · exact hsome hgood.1
  · simp [hpos, owesReaders] at howes

theorem Ready.readEnd {middle : State P} (hready : Ready t)
    (hpos : t.pos p = .readCopy n i) (hsame : middle.pos = t.pos)
    (hreader : ∀ q m, t.pos q = .readAsleep m → Empty middle ∧ middle.writeopen = true) :
    Ready (leave (wakeWriters middle) p .idle) := by
  have hp : holding (t.pos p) = true := by rw [hpos]; rfl
  refine hready.move (.inl hp) ?_ ?_ ?_ ?_ ?_
  · intro q hq
    simp [leave, setPos, wakeWriters, hq, holding_wakeWriter, hsame]
  · simp [leave, setPos, holding]
  · simp [leave, setPos, Sound]
  · intro q m hq
    by_cases hqp : q = p
    · simp [leave, setPos, hqp] at hq
    · simp only [leave, setPos, wakeWriters, update_of_ne hqp] at hq
      rw [hsame] at hq
      exact .inl (hreader q m (wakeWriter_readAsleep hq))
  · intro q m j hq
    by_cases hqp : q = p
    · simp [leave, setPos, hqp] at hq
    · simp [leave, setPos, wakeWriters, hqp, wakeWriter_ne] at hq

theorem step_ready (hready : Ready t) (hstep : Step t after) : Ready after := by
  cases hstep with
  | start p pos hpos hstart =>
    refine hready.calm rfl Iff.rfl Iff.rfl ?_ hready.sound
    intro q
    by_cases hq : q = p
    · subst hq
      refine .inr ⟨by rw [hpos]; rfl, ?_⟩
      obtain ⟨n, rfl | rfl⟩ := hstart <;> simp [setPos, PipeWakeup.calm]
    · exact .inl (by simp [setPos, hq])
  | writeAcquire p n i hpos hfree =>
    exact hready.go (.inr hfree) (some p) (.writeLoop n i false) rfl trivial
      (by simp [hpos, owesReaders]) (by simp [hpos, owesWriters]) (by simp)
      (by simp)
  | writeFail p n i fresh hpos hfail =>
    have hp : holding (t.pos p) = true := by rw [hpos]; rfl
    -- A writer that owes a wakeup is not killed and its pipe has a reader.
    have hpaid : owesReaders (t.pos p) = false := by
      have hsound := hready.sound p
      rw [hpos] at hsound ⊢
      cases fresh with
      | false => rfl
      | true =>
        obtain ⟨hopen, hkilled⟩ := hsound
        simp [hopen, hkilled] at hfail
    exact hready.go (.inl hp) none .idle rfl trivial (by simp [hpaid])
      (by simp [hpos, owesWriters]) (by simp) (by simp)
  | writeFull p n i fresh hpos hopen hfull =>
    have hp : holding (t.pos p) = true := by rw [hpos]; rfl
    refine hready.move (.inl hp) ?_ ?_ ?_ ?_ ?_
    · intro q hq
      simp [setPos, wakeReaders, hq, holding_wakeReader]
    · simpa [setPos, wakeReaders, holding] using (hready.owner p).mp hp
    · simp only [setPos, update_self]
      exact ⟨hfull, hopen⟩
    · intro q m hq
      by_cases hqp : q = p
      · simp [setPos, hqp] at hq
      · simp [setPos, wakeReaders, hqp, wakeReader_ne] at hq
    · intro q m j hq
      exact .inl ⟨hfull, hopen⟩
  | writePut p n i fresh ch hpos hopen hkilled hroom =>
    have hp : holding (t.pos p) = true := by rw [hpos]; rfl
    refine hready.move (.inl hp) ?_ ?_ ?_ ?_ ?_
    · intro q hq
      simp [setPos, putByte, hq]
    · simpa [setPos, putByte, holding] using (hready.owner p).mp hp
    · simp only [setPos, update_self]
      exact ⟨hopen, hkilled⟩
    · intro q m hq
      exact .inr (by simp [setPos, owesReaders])
    · intro q m j hq
      by_cases hqp : q = p
      · simp [setPos, hqp] at hq
      · simp only [setPos, putByte, update_of_ne hqp] at hq
        rcases hready.writer_of (.inl hp) hq with hgood | howes
        · exact absurd hgood.1 hroom
        · simp [hpos, owesWriters] at howes
  | writeEnd p n i fresh hpos =>
    have hp : holding (t.pos p) = true := by rw [hpos]; rfl
    refine hready.move (.inl hp) ?_ ?_ ?_ ?_ ?_
    · intro q hq
      simp [leave, setPos, wakeReaders, hq, holding_wakeReader]
    · simp [leave, setPos, holding]
    · simp [leave, setPos, Sound]
    · intro q m hq
      by_cases hqp : q = p
      · simp [leave, setPos, hqp] at hq
      · simp [leave, setPos, wakeReaders, hqp, wakeReader_ne] at hq
    · intro q m j hq
      by_cases hqp : q = p
      · simp [leave, setPos, hqp] at hq
      · simp only [leave, setPos, wakeReaders, update_of_ne hqp] at hq
        have hold := hready.writer_of (.inl hp) (wakeReader_writeAsleep hq)
        rw [hpos] at hold
        exact hold.imp_right fun howes => by cases howes
  | writeSleep p n i hpos =>
    have hp : holding (t.pos p) = true := by rw [hpos]; rfl
    have hsound := hready.sound p
    rw [hpos] at hsound
    exact hready.go (.inl hp) none (.writeAsleep n i) rfl trivial
      (by simp [hpos, owesReaders]) (by simp [hpos, owesWriters]) (by simp)
      (fun _ _ _ => hsound)
  | readAcquire p n hpos hfree =>
    exact hready.go (.inr hfree) (some p) (.readWait n) rfl trivial
      (by simp [hpos, owesReaders]) (by simp [hpos, owesWriters]) (by simp)
      (by simp)
  | readFail p n hpos =>
    exact hready.go (.inl (by rw [hpos]; rfl)) none .idle rfl trivial
      (by simp [hpos, owesReaders]) (by simp [hpos, owesWriters]) (by simp)
      (by simp)
  | readEmpty p n hpos hnil hopen =>
    have hp : holding (t.pos p) = true := by rw [hpos]; rfl
    have hgo := hready.go (.inl hp) t.lock (.readSleep n)
      ((hready.owner p).mp hp) ⟨hnil, hopen⟩ (by simp [hpos, owesReaders])
      (by simp [hpos, owesWriters]) (by simp) (by simp)
    exact hgo
  | readStart p n hpos =>
    have hp : holding (t.pos p) = true := by rw [hpos]; rfl
    have hgo := hready.go (.inl hp) t.lock (.readCopy n 0)
      ((hready.owner p).mp hp) trivial (by simp [hpos, owesReaders])
      (fun _ => rfl) (by simp) (by simp)
    exact hgo
  | readSleep p n hpos =>
    have hp : holding (t.pos p) = true := by rw [hpos]; rfl
    have hsound := hready.sound p
    rw [hpos] at hsound
    exact hready.go (.inl hp) none (.readAsleep n) rfl trivial
      (by simp [hpos, owesReaders]) (by simp [hpos, owesWriters])
      (fun _ _ => hsound) (by simp)
  | readTake p n i hpos hsome =>
    have hp : holding (t.pos p) = true := by rw [hpos]; rfl
    refine hready.move (.inl hp) ?_ ?_ ?_ ?_ ?_
    · intro q hq
      simp [setPos, takeByte, hq]
    · simpa [setPos, takeByte, holding] using (hready.owner p).mp hp
    · simp [setPos, Sound]
    · intro q m hq
      by_cases hqp : q = p
      · simp [setPos, hqp] at hq
      · simp only [setPos, takeByte, update_of_ne hqp] at hq
        exact absurd hq (hready.no_reader hpos hsome q m)
    · intro q m j hq
      exact .inr (by simp [setPos, owesWriters])
  | readLast p n i hpos hsome =>
    refine hready.readEnd hpos rfl ?_
    intro q m hq
    exact absurd hq (hready.no_reader hpos hsome q m)
  | readEnd p n i hpos =>
    have hp : holding (t.pos p) = true := by rw [hpos]; rfl
    refine hready.readEnd hpos rfl ?_
    intro q m hq
    rcases hready.reader_of (.inl hp) hq with hgood | howes
    · exact hgood
    · simp [hpos, owesReaders] at howes
  | closeWrite hfree =>
    have hnot : ∀ q, holding (t.pos q) = false := hready.free hfree
    refine ⟨?_, ?_, ?_, ?_⟩
    · intro q
      simp [wakeReaders, holding_wakeReader, hnot, hfree]
    · intro q
      exact sound_of_not_holding _ q (by
        simp [wakeReaders, holding_wakeReader, hnot])
    · intro q n hq
      exact absurd hq (wakeReader_ne (t.pos q) n)
    · intro q n i hq
      rcases hready.writer q n i (wakeReader_writeAsleep hq) with hgood | ⟨p, howes⟩
      · exact .inl hgood
      · exact absurd (owesWriters_holding howes) (by simp [hnot])
  | closeRead hfree =>
    have hnot : ∀ q, holding (t.pos q) = false := hready.free hfree
    refine ⟨?_, ?_, ?_, ?_⟩
    · intro q
      simp [wakeWriters, holding_wakeWriter, hnot, hfree]
    · intro q
      exact sound_of_not_holding _ q (by
        simp [wakeWriters, holding_wakeWriter, hnot])
    · intro q n hq
      rcases hready.reader q n (wakeWriter_readAsleep hq) with hgood | ⟨p, howes⟩
      · exact .inl hgood
      · exact absurd (owesReaders_holding howes) (by simp [hnot])
    · intro q n i hq
      exact absurd hq (wakeWriter_ne (t.pos q) n i)
  | kill p htimely =>
    refine hready.calm rfl Iff.rfl Iff.rfl ?_ ?_
    · intro q
      by_cases hq : q = p
      · subst hq
        simp only [Pipe.kill, setPos, update_self]
        cases t.pos q <;> simp [wakeReader, wakeWriter, holding, PipeWakeup.calm]
      · exact .inl (by simp [Pipe.kill, setPos, hq])
    · intro q
      have hsound := hready.sound q
      by_cases hq : q = p
      · subst hq
        cases hpos : t.pos q with
        | writeLoop n i fresh =>
          cases fresh with
          | false => trivial
          | true =>
            rw [hpos] at htimely
            cases htimely
        | _ =>
          rw [hpos] at hsound
          exact hsound
      · cases hpos : t.pos q with
        | writeLoop n i fresh =>
          cases fresh with
          | false => trivial
          | true =>
            rw [hpos] at hsound
            exact ⟨hsound.1, by simp [Pipe.kill, setPos, hq, hsound.2]⟩
        | _ =>
          rw [hpos] at hsound
          exact hsound

/-- The states in the runs in which every kill is timely. -/
abbrev TimelyRuns (t : State P) : Prop := Reachable exec Timely Initial t

theorem runs_ready (hruns : TimelyRuns t) : Ready t := by
  refine @Reachable.invariant _ _ _ _ _ _ Ready t hruns ?_ ?_
  · intro t hinit
    refine ⟨?_, ?_, ?_, ?_⟩
    · intro p
      simp [hinit.pos, hinit.lock, holding]
    · intro p
      rw [hinit.pos p]
      trivial
    · intro q n hq
      rw [hinit.pos q] at hq
      cases hq
    · intro q n i hq
      rw [hinit.pos q] at hq
      cases hq
  · intro t action after hready htimely hexec
    exact step_ready hready (exec_step htimely hexec)

/-- In every run in which no kill reaches a writer between a byte that it has put in
and the wakeup it owes: when the lock is free, a process that sleeps on `&pi->nread`
has an empty pipe with a writer, and one that sleeps on `&pi->nwrite` a full pipe
with a reader. -/
theorem sleeper_is_waiting (t : State P) (hruns : TimelyRuns t) (hfree : t.lock = none) :
    (∀ q n, t.pos q = .readAsleep n → Empty t ∧ t.writeopen = true) ∧
    ∀ q n i, t.pos q = .writeAsleep n i → Full t ∧ t.readopen = true := by
  have hready := runs_ready hruns
  constructor
  · intro q n hq
    rcases hready.reader q n hq with hgood | ⟨p, howes⟩
    · exact hgood
    · exact absurd (owesReaders_holding howes) (by simp [hready.free hfree])
  · intro q n i hq
    rcases hready.writer q n i hq with hgood | ⟨p, howes⟩
    · exact hgood
    · exact absurd (owesWriters_holding howes) (by simp [hready.free hfree])

end

instance {P : Type} (t : State P) : DecidablePred (Timely t)
  | (_, .write _) => inferInstanceAs (Decidable True)
  | (_, .read _) => inferInstanceAs (Decidable True)
  | (_, .next _) => inferInstanceAs (Decidable True)
  | (_, .close _) => inferInstanceAs (Decidable True)
  | (_, .kill) => inferInstanceAs (Decidable (_ = _))

/-- A reader finds the pipe empty and sleeps. -/
theorem sleeper_is_waiting_reader : ∃ t : State Bool, TimelyRuns t ∧ t.lock = none ∧
      t.pos false = .readAsleep 1 ∧ Empty t ∧ t.writeopen = true := by
  obtain ⟨t, hruns, htest⟩ := @exists_reachable (State Bool) (Bool × Action) Panic
    exec Timely Initial (fun t action => decide (Timely t action))
    (fun t => decide (t.lock = none ∧ t.pos false = .readAsleep 1)) wrapping
    [(false, .read 1), (false, .next none), (false, .next none), (false, .next none)]
    wrapping_initial (fun _ _ hcheck => of_decide_eq_true hcheck)
    (by decide +kernel)
  obtain ⟨hfree, hasleep⟩ := of_decide_eq_true htest
  exact ⟨t, hruns, hfree, hasleep, (sleeper_is_waiting t hruns hfree).1 false 1 hasleep⟩

/-- A writer puts one byte in, is killed, and returns without a wakeup: the reader
sleeps on a pipe with a byte in it. -/
theorem killed_writer_strands_reader :
    ∃ t : State Bool, Runs t ∧ t.lock = none ∧ t.pos false = .readAsleep 1 ∧
      t.nread ≠ t.nwrite := by
  obtain ⟨t, hruns, htest⟩ := @exists_reachable (State Bool) (Bool × Action) Panic
    exec (fun _ _ => True) Initial (fun _ _ => true)
    (fun t => decide (t.lock = none ∧ t.pos false = .readAsleep 1 ∧ t.nread ≠ t.nwrite)) wrapping
    [(false, .read 1), (false, .next none), (false, .next none),
      (false, .next none), (true, .write 2), (true, .next none),
      (true, .next (some 7)), (true, .kill), (true, .next none)]
    wrapping_initial (fun _ _ _ => trivial) (by decide +kernel)
  have hstranded := of_decide_eq_true htest
  exact ⟨t, hruns, hstranded⟩

end Xv6.PipeWakeup
