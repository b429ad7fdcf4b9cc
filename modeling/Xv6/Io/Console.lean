import Xv6.Core.Interleaving
import Xv6.Core.RingBuffer
import Xv6.Panic

/-!
# The console

`consoleintr` and `consoleread` of `kernel/console.c` with any number of readers.
`consoleintr` runs with `cons.lock` held from its first to its last access, so it is
one action.  A reader moves by single iterations of its loops, and `sleep` releases
the lock.  What `either_copyout` does is an argument of the action.

The abstract line discipline `discipline` works on lists: committed characters, and
the line that can still be edited.
-/

namespace Xv6.Console

open Interleaving RingBuffer Function

def INPUT_BUF : ℕ := 128

abbrev Byte := BitVec 8

def ctrl (x : Char) : Byte := BitVec.ofNat 8 (x.toNat - 64)

def newline : Byte := 10

def carriageReturn : Byte := 13

def delete : Byte := 0x7f

/-! ## The line discipline -/

/-- The characters that readers may have, and the line being edited. -/
structure Lines where
  committed : List Byte
  line : List Byte
  deriving DecidableEq

/-- A character is typed while `room` characters fit.  The line is committed by a
newline or an end-of-file, and when the buffer is full. -/
def Lines.type (lines : Lines) : Byte × ℕ → Lines
  | (c, room) =>
    if c = ctrl 'P' then lines
    else if c = ctrl 'U' then { lines with line := [] }
    else if c = ctrl 'H' ∨ c = delete then
      { lines with line := lines.line.dropLast }
    else if c = 0 ∨ room = 0 then lines
    else
      let c := if c = carriageReturn then newline else c
      if c = newline ∨ c = ctrl 'D' ∨ room = 1 then
        ⟨lines.committed ++ lines.line ++ [c], []⟩
      else { lines with line := lines.line ++ [c] }

def discipline (inputs : List (Byte × ℕ)) : Lines := inputs.foldl Lines.type ⟨[], []⟩

theorem discipline_append (inputs : List (Byte × ℕ)) (input : Byte × ℕ) :
    discipline (inputs ++ [input]) = (discipline inputs).type input := by
  rw [discipline, List.foldl_append]
  rfl

theorem Lines.type_committed (lines : Lines) (input : Byte × ℕ) :
    lines.committed <+: (lines.type input).committed := by
  unfold Lines.type
  simp only
  split_ifs
  all_goals first
    | exact List.prefix_refl _
    | exact (List.prefix_append _ _).trans (List.prefix_append _ _)

/-! ## The buffer -/

/-- `cons`, with the history of the characters typed, each with the room there was,
and of the characters that readers took. -/
structure Cons where
  buf : ℕ → Byte
  r : BitVec 32
  w : BitVec 32
  e : BitVec 32
  inputs : List (Byte × ℕ)
  consumed : List Byte

/-- The loop of the kill-line character; it ends after at most `e - w` rounds. -/
def killLine (buf : ℕ → Byte) (w : BitVec 32) : ℕ → BitVec 32 → BitVec 32
  | 0, e => e
  | rounds + 1, e =>
    if e ≠ w ∧ buf (slot INPUT_BUF (e - 1)) ≠ newline then
      killLine buf w rounds (e - 1)
    else e

def putChar (cons : Cons) (c : Byte) : Cons :=
  { cons with
    buf := update cons.buf (slot INPUT_BUF cons.e) c
    e := cons.e + 1 }

/-- The default case of `consoleintr`; the second component says whether
`wakeup(&cons.r)` is called. -/
def store (cons : Cons) (c : Byte) : Cons × Bool :=
  if c ≠ 0 ∧ (cons.e - cons.r).toNat < INPUT_BUF then
    let c := if c = carriageReturn then newline else c
    let cons := putChar cons c
    if c = newline ∨ c = ctrl 'D' ∨ cons.e = cons.r + BitVec.ofNat 32 INPUT_BUF then
      ({ cons with w := cons.e }, true)
    else (cons, false)
  else (cons, false)

def consoleintr (cons : Cons) (c : Byte) : Cons × Bool :=
  if c = ctrl 'P' then (cons, false)
  else if c = ctrl 'U' then
    ({ cons with
        e := killLine cons.buf cons.w (cons.e - cons.w).toNat cons.e }, false)
  else if c = ctrl 'H' ∨ c = delete then
    (if cons.e ≠ cons.w then { cons with e := cons.e - 1 } else cons, false)
  else store cons c

def typed (cons : Cons) (c : Byte) : Cons :=
  { cons with
    inputs := cons.inputs ++ [(c, INPUT_BUF - (cons.e - cons.r).toNat)] }

def takeChar (cons : Cons) : Cons :=
  { cons with
    r := cons.r + 1
    consumed := cons.consumed ++ [cons.buf (slot INPUT_BUF cons.r)] }

def putBack (cons : Cons) : Cons :=
  { cons with r := cons.r - 1, consumed := cons.consumed.dropLast }

def committed (cons : Cons) : List Byte := read INPUT_BUF cons.buf cons.r (cons.w - cons.r).toNat

def editing (cons : Cons) : List Byte := read INPUT_BUF cons.buf cons.w (cons.e - cons.w).toNat

/-! ## Readers -/

/-- Where a process is in `consoleread`; `target` is the `n` it was called with. -/
inductive Pos where
  | idle
  /-- Before `acquire(&cons.lock)`. -/
  | acquire (target n : ℤ)
  /-- The test of `while(n > 0)`. -/
  | outer (target n : ℤ)
  /-- The test of `while(cons.r == cons.w)`. -/
  | inner (target n : ℤ)
  /-- In `sleep(&cons.r, &cons.lock)`, before `release(lk)`. -/
  | sleep (target n : ℤ)
  /-- `SLEEPING` on `&cons.r`. -/
  | asleep (target n : ℤ)
  /-- At the end of `sleep`, before `acquire(lk)`. -/
  | reacquire (target n : ℤ)
  deriving DecidableEq

structure State (P : Type) where
  cons : Cons
  lock : Option P
  pos : P → Pos
  killed : P → Bool
  /-- What the last call returned. -/
  returned : P → Option ℤ
  /-- The bytes that the last or current call has copied out. -/
  dst : P → List Byte

inductive Action (P : Type) where
  | intr (c : Byte)
  | read (p : P) (n : ℤ)
  /-- The next iteration or lock operation; `copied` says whether `either_copyout`
  succeeds. -/
  | next (p : P) (copied : Bool)
  | kill (p : P)
  deriving DecidableEq

section
variable {P : Type} [DecidableEq P]

def setPos (t : State P) (p : P) (pos : Pos) : State P := { t with pos := update t.pos p pos }

def finish (t : State P) (p : P) (value : ℤ) : State P :=
  setPos { t with
    lock := none
    returned := update t.returned p (some value) } p .idle

def wake : Pos → Pos
  | .asleep target n => .reacquire target n
  | pos => pos

def wakeReaders (t : State P) : State P := { t with pos := fun p => wake (t.pos p) }

/-- The body of the outer loop of `consoleread` after a character is there. -/
def readChar (t : State P) (p : P) (target n : ℤ) (copied : Bool) : State P :=
  let c := t.cons.buf (slot INPUT_BUF t.cons.r)
  let t := { t with cons := takeChar t.cons }
  if c = ctrl 'D' then
    if n < target then finish { t with cons := putBack t.cons } p (target - n)
    else finish t p (target - n)
  else if copied = false then finish t p (target - n)
  else
    let t := { t with dst := update t.dst p (t.dst p ++ [c]) }
    if c = newline then finish t p (target - (n - 1))
    else setPos t p (.outer target (n - 1))

/-- One test of the inner loop of `consoleread`, and what follows it. -/
def consoleread (t : State P) (p : P) (target n : ℤ) (copied : Bool) : State P :=
  if t.cons.r = t.cons.w then
    if t.killed p = true then finish t p (-1)
    else setPos t p (.sleep target n)
  else readChar t p target n copied

def next (t : State P) (p : P) (copied : Bool) : Option (State P) :=
  match t.pos p with
  | .idle => none
  | .acquire target n =>
    if t.lock = none then
      some (setPos { t with lock := some p } p (.outer target n))
    else none
  | .outer target n =>
    if 0 < n then some (setPos t p (.inner target n))
    else some (finish t p (target - n))
  | .inner target n => some (consoleread t p target n copied)
  | .sleep target n => some (setPos { t with lock := none } p (.asleep target n))
  | .asleep _ _ => none
  | .reacquire target n =>
    if t.lock = none then
      some (setPos { t with lock := some p } p (.inner target n))
    else none

def interrupt (t : State P) (c : Byte) : State P :=
  let handled := consoleintr (typed t.cons c) c
  if handled.2 = true then wakeReaders { t with cons := handled.1 }
  else { t with cons := handled.1 }

def exec (t : State P) : Action P → Option (Except Panic (State P))
  | .intr c => if t.lock = none then some (.ok (interrupt t c)) else none
  | .read p n =>
    if t.pos p = .idle then
      some (.ok (setPos { t with
        returned := update t.returned p none
        dst := update t.dst p [] } p (.acquire n n)))
    else none
  | .next p copied => (next t p copied).map .ok
  | .kill p => some (.ok (setPos { t with killed := update t.killed p true } p (wake (t.pos p))))

end

/-- The buffer is empty; the three indices have any common value. -/
structure Initial {P : Type} (t : State P) : Prop where
  w : t.cons.w = t.cons.r
  e : t.cons.e = t.cons.r
  inputs : t.cons.inputs = []
  consumed : t.cons.consumed = []
  pos : ∀ p, t.pos p = .idle

/-! ## The buffer refines the line discipline -/

section
variable {buf : ℕ → Byte} {r w e : BitVec 32} {kept line : List Byte} {c : Byte} {cons after : Cons}

theorem INPUT_BUF_dvd : INPUT_BUF ∣ 2 ^ 32 := ⟨2 ^ 25, by norm_num [INPUT_BUF]⟩

theorem INPUT_BUF_lt : INPUT_BUF < 2 ^ 32 := by norm_num [INPUT_BUF]

/-- The buffer holds the committed characters, from `r` to `w`, and the line, from
`w` to `e`. -/
structure Layout (buf : ℕ → Byte) (r w e : BitVec 32)
    (kept line : List Byte) : Prop where
  holds : Holds INPUT_BUF buf r (kept ++ line)
  w : w = advance r kept.length
  e : e = advance r (kept ++ line).length

theorem Layout.length_lt (hlay : Layout buf r w e kept line) : (kept ++ line).length < 2 ^ 32 :=
  lt_of_le_of_lt hlay.holds.length_le INPUT_BUF_lt

theorem Layout.kept_lt (hlay : Layout buf r w e kept line) : kept.length < 2 ^ 32 := by
  have hlen := hlay.length_lt
  rw [List.length_append] at hlen
  omega

theorem Layout.e_sub_r (hlay : Layout buf r w e kept line) :
    (e - r).toNat = (kept ++ line).length := by
  rw [hlay.e, advance_sub, BitVec.toNat_ofNat]
  exact Nat.mod_eq_of_lt hlay.length_lt

theorem Layout.w_sub_r (hlay : Layout buf r w e kept line) : (w - r).toNat = kept.length := by
  rw [hlay.w, advance_sub, BitVec.toNat_ofNat]
  exact Nat.mod_eq_of_lt hlay.kept_lt

theorem Layout.e_sub_w (hlay : Layout buf r w e kept line) : (e - w).toNat = line.length := by
  have hlen := hlay.length_lt
  rw [hlay.e, hlay.w, List.length_append, ← advance_advance, advance_sub, BitVec.toNat_ofNat]
  rw [List.length_append] at hlen
  exact Nat.mod_eq_of_lt (by omega)

theorem Layout.e_eq_w_iff (hlay : Layout buf r w e kept line) : e = w ↔ line = [] := by
  rw [hlay.e, hlay.w, advance_inj hlay.length_lt hlay.kept_lt,
    List.length_append, ← List.length_eq_zero_iff]
  omega

theorem Layout.r_eq_w_iff (hlay : Layout buf r w e kept line) : r = w ↔ kept = [] := by
  have hinj := @advance_inj _ r 0 kept.length (by norm_num) hlay.kept_lt
  rw [hlay.w, ← List.length_eq_zero_iff, @eq_comm _ kept.length, ← hinj, advance_zero]

theorem Layout.erase (hlay : Layout buf r w e kept (line ++ [c])) :
    buf (slot INPUT_BUF (e - 1)) = c ∧ Layout buf r w (e - 1) kept line := by
  have he : e - 1 = advance r (kept ++ line).length := by
    rw [hlay.e, ← List.append_assoc, List.length_append, List.length_singleton,
      ← advance_advance, advance_one, BitVec.add_sub_cancel]
  have hholds := hlay.holds
  rw [← List.append_assoc] at hholds
  refine ⟨?_, hholds.left, hlay.w, he⟩
  rw [he]
  exact hholds.item _ c (by rw [List.getElem?_append_right le_rfl]; simp)

/-- The loop of the kill-line character erases the line when there is no newline
in it. -/
theorem killLine_eq (hlay : Layout buf r w e kept line) (hnewline : newline ∉ line) :
    killLine buf w (e - w).toNat e = w := by
  rw [hlay.e_sub_w]
  induction line using List.reverseRecOn generalizing e with
  | nil => exact hlay.e_eq_w_iff.mpr rfl
  | append_singleton line c ih =>
    obtain ⟨hlast, herased⟩ := hlay.erase
    have hne : e ≠ w := fun heq => by simpa using hlay.e_eq_w_iff.mp heq
    have hc : c ≠ newline := by
      rintro rfl
      exact hnewline (by simp)
    rw [List.length_append, List.length_singleton, killLine, if_pos ⟨hne, by rwa [hlast]⟩]
    exact ih herased fun hmem => hnewline (List.mem_append_left _ hmem)

theorem Layout.put (hlay : Layout buf r w e kept line)
    (hroom : (kept ++ line).length < INPUT_BUF) (c : Byte) :
    Layout (update buf (slot INPUT_BUF e) c) r w (e + 1) kept (line ++ [c]) := by
  refine ⟨?_, hlay.w, ?_⟩
  · have hpush := hlay.holds.push INPUT_BUF_dvd hroom c
    rwa [← hlay.e, List.append_assoc] at hpush
  · rw [hlay.e, ← List.append_assoc, @List.length_append _ (kept ++ line),
      List.length_singleton, ← advance_advance, advance_one]

theorem Layout.commit (hlay : Layout buf r w e kept line) : Layout buf r e e (kept ++ line) [] := by
  refine ⟨?_, hlay.e, ?_⟩
  · rw [List.append_nil]
    exact hlay.holds
  · rw [List.append_nil]
    exact hlay.e

theorem Layout.take (hlay : Layout buf r w e (c :: kept) line) :
    buf (slot INPUT_BUF r) = c ∧ Layout buf (r + 1) w e kept line := by
  obtain ⟨hfst, hrest⟩ := hlay.holds.pop
  refine ⟨hfst, hrest, ?_, ?_⟩
  · rw [hlay.w, List.length_cons, Nat.add_comm, ← advance_advance, advance_one]
  · rw [hlay.e, List.cons_append, List.length_cons, Nat.add_comm, ← advance_advance, advance_one]

/-- The buffer, after the characters that were taken, is what the line discipline
gives for the characters typed. -/
structure Refines (cons : Cons) (kept line : List Byte) : Prop where
  layout : Layout cons.buf cons.r cons.w cons.e kept line
  lines : discipline cons.inputs = ⟨cons.consumed ++ kept, line⟩
  no_newline : newline ∉ line

def Disciplined (cons : Cons) : Prop := ∃ kept line, Refines cons kept line

theorem store_disciplined (hlay : Layout cons.buf cons.r cons.w cons.e kept line)
    (hno : newline ∉ line)
    (hlines : discipline cons.inputs = Lines.type ⟨cons.consumed ++ kept, line⟩
      (c, INPUT_BUF - (cons.e - cons.r).toNat))
    (hP : c ≠ ctrl 'P') (hU : c ≠ ctrl 'U') (hH : ¬ (c = ctrl 'H' ∨ c = delete)) :
    Disciplined (store cons c).1 := by
  rw [hlay.e_sub_r, Lines.type, if_neg hP, if_neg hU, if_neg hH] at hlines
  rw [store, hlay.e_sub_r]
  by_cases hstored : c ≠ 0 ∧ (kept ++ line).length < INPUT_BUF
  case neg =>
    have hdropped : c = 0 ∨ INPUT_BUF - (kept ++ line).length = 0 := by
      by_contra hnot
      rw [not_or] at hnot
      exact hstored ⟨hnot.1, by omega⟩
    rw [if_neg hstored]
    rw [if_pos hdropped] at hlines
    exact ⟨kept, line, hlay, hlines, hno⟩
  obtain ⟨hzero, hroom⟩ := hstored
  rw [if_pos ⟨hzero, hroom⟩]
  rw [if_neg (not_or.mpr ⟨hzero, by omega⟩)] at hlines
  set stored := if c = carriageReturn then newline else c
  have hput := hlay.put hroom stored
  -- the new character fills the buffer exactly when there was room for one
  have hfull : cons.e + 1 = cons.r + BitVec.ofNat 32 INPUT_BUF ↔
      INPUT_BUF - (kept ++ line).length = 1 := by
    have hinj := @advance_inj _ cons.r _ _ hput.length_lt INPUT_BUF_lt
    rw [← hput.e] at hinj
    rw [show cons.r + BitVec.ofNat 32 INPUT_BUF = advance cons.r INPUT_BUF from rfl,
      hinj, ← List.append_assoc, @List.length_append _ (kept ++ line),
      List.length_singleton]
    omega
  simp only [putChar, hfull]
  split
  case isTrue hcommit =>
    rw [if_pos hcommit] at hlines
    refine ⟨kept ++ (line ++ [stored]), [], hput.commit, ?_, by simp⟩
    rw [hlines]
    simp only [List.append_assoc]
  case isFalse hcommit =>
    rw [if_neg hcommit] at hlines
    refine ⟨kept, line ++ [stored], hput, hlines, ?_⟩
    rw [List.mem_append, List.mem_singleton]
    rintro (hmem | heq)
    · exact hno hmem
    · exact hcommit (.inl heq.symm)

theorem consoleintr_disciplined (hcons : Disciplined cons) (c : Byte) :
    Disciplined (consoleintr (typed cons c) c).1 := by
  obtain ⟨kept, line, hlay, hlines, hno⟩ := hcons
  have htyped := discipline_append cons.inputs (c, INPUT_BUF - (cons.e - cons.r).toNat)
  rw [hlines] at htyped
  unfold consoleintr
  by_cases hP : c = ctrl 'P'
  · rw [if_pos hP]
    refine ⟨kept, line, hlay, ?_, hno⟩
    rw [Lines.type, if_pos hP] at htyped
    exact htyped
  rw [if_neg hP]
  by_cases hU : c = ctrl 'U'
  · rw [if_pos hU]
    refine ⟨kept, [], ?_, ?_, by simp⟩
    · change Layout cons.buf cons.r cons.w
        (killLine cons.buf cons.w (cons.e - cons.w).toNat cons.e) kept []
      rw [killLine_eq hlay hno]
      have hkept := hlay.holds.left
      exact ⟨by rwa [List.append_nil], hlay.w, by
        rw [List.append_nil]
        exact hlay.w⟩
    · rw [Lines.type, if_neg hP, if_pos hU] at htyped
      exact htyped
  rw [if_neg hU]
  by_cases hH : c = ctrl 'H' ∨ c = delete
  · rw [if_pos hH]
    rw [Lines.type, if_neg hP, if_neg hU, if_pos hH] at htyped
    cases line using List.reverseRecOn with
    | nil =>
      have heq : ¬ (typed cons c).e ≠ (typed cons c).w := not_not.mpr (hlay.e_eq_w_iff.mpr rfl)
      rw [if_neg heq]
      exact ⟨kept, [], hlay, htyped, hno⟩
    | append_singleton line last =>
      have hne : (typed cons c).e ≠ (typed cons c).w := fun heq => by
        simpa using hlay.e_eq_w_iff.mp heq
      rw [if_pos hne]
      rw [List.dropLast_concat] at htyped
      exact ⟨kept, line, hlay.erase.2, htyped, fun hmem => hno (List.mem_append_left _ hmem)⟩
  rw [if_neg hH]
  exact store_disciplined hlay hno htyped hP hU hH

theorem takeChar_disciplined (hcons : Disciplined cons) (hsome : cons.r ≠ cons.w) :
    Disciplined (takeChar cons) := by
  obtain ⟨kept, line, hlay, hlines, hno⟩ := hcons
  cases kept with
  | nil => exact absurd (hlay.r_eq_w_iff.mpr rfl) hsome
  | cons first kept =>
    obtain ⟨hfst, htaken⟩ := hlay.take
    refine ⟨kept, line, htaken, ?_, hno⟩
    rw [takeChar, hfst, List.append_assoc]
    exact hlines

theorem putBack_takeChar (cons : Cons) : putBack (takeChar cons) = cons := by
  simp [putBack, takeChar]

/-- What an action does to the buffer. -/
inductive Change (cons : Cons) : Cons → Prop where
  | same : Change cons cons
  | intr (c : Byte) : Change cons (consoleintr (typed cons c) c).1
  | take : cons.r ≠ cons.w → Change cons (takeChar cons)

theorem Change.disciplined (hchange : Change cons after)
    (hcons : Disciplined cons) : Disciplined after := by
  cases hchange with
  | same => exact hcons
  | intr c => exact consoleintr_disciplined hcons c
  | take hsome => exact takeChar_disciplined hcons hsome

theorem consoleintr_history (cons : Cons) (c : Byte) :
    (consoleintr cons c).1.consumed = cons.consumed ∧
      (consoleintr cons c).1.inputs = cons.inputs := by
  unfold consoleintr store putChar
  simp only
  split_ifs <;> exact ⟨rfl, rfl⟩

theorem Change.grows (hchange : Change cons after) :
    (discipline cons.inputs).committed <+: (discipline after.inputs).committed ∧
      cons.consumed <+: after.consumed := by
  cases hchange with
  | same => exact ⟨List.prefix_refl _, List.prefix_refl _⟩
  | intr c =>
    rw [(consoleintr_history _ c).1, (consoleintr_history _ c).2]
    refine ⟨?_, List.prefix_refl _⟩
    rw [typed, discipline_append]
    exact Lines.type_committed _ _
  | take => exact ⟨List.prefix_refl _, List.prefix_append _ _⟩

theorem Refines.committed_eq (hrefines : Refines cons kept line) : committed cons = kept := by
  rw [committed, hrefines.layout.w_sub_r]
  exact hrefines.layout.holds.left.read_eq

theorem Refines.editing_eq (hrefines : Refines cons kept line) : editing cons = line := by
  rw [editing, hrefines.layout.e_sub_w]
  have hline := hrefines.layout.holds.right
  rw [← hrefines.layout.w] at hline
  exact hline.read_eq

end

/-! ## Every run -/

section
variable {P : Type} [DecidableEq P] {t after : State P}

theorem readChar_change (hsome : t.cons.r ≠ t.cons.w) (p : P) (target n : ℤ)
    (copied : Bool) : Change t.cons (readChar t p target n copied).cons := by
  unfold readChar
  simp only
  split
  · split
    · change Change t.cons (putBack (takeChar t.cons))
      rw [putBack_takeChar]
      exact .same
    · exact .take hsome
  · split
    · exact .take hsome
    · split <;> exact .take hsome

theorem next_change {p : P} {copied : Bool} (hnext : next t p copied = some after) :
    Change t.cons after.cons := by
  unfold next at hnext
  split at hnext
  case h_1 | h_6 => cases hnext
  case h_2 | h_7 =>
    split at hnext <;> cases hnext
    exact .same
  case h_3 => split at hnext <;> cases hnext <;> exact .same
  case h_4 =>
    cases hnext
    unfold consoleread
    split
    · split <;> exact .same
    case isFalse hsome => exact readChar_change hsome _ _ _ _
  case h_5 =>
    cases hnext
    exact .same

theorem exec_change {action : Action P}
    (hexec : exec t action = some (.ok after)) : Change t.cons after.cons := by
  cases action with
  | intr c =>
    simp only [exec] at hexec
    split at hexec <;> cases hexec
    unfold interrupt
    simp only
    split <;> exact .intr c
  | read p n =>
    simp only [exec] at hexec
    split at hexec <;> cases hexec
    exact .same
  | next p copied =>
    simp only [exec, Option.map_eq_some_iff, Except.ok.injEq] at hexec
    obtain ⟨_, hnext, rfl⟩ := hexec
    exact next_change hnext
  | kill p =>
    cases hexec
    exact .same

/-- The number of bytes that a reader at this position has still to copy, and the
number it was called with. -/
def Pos.counts : Pos → Option (ℤ × ℤ)
  | .idle => none
  | .acquire target n | .outer target n | .inner target n | .sleep target n
  | .asleep target n | .reacquire target n => some (target, n)

def Counted (t : State P) : Prop :=
  ∀ p target n, (t.pos p).counts = some (target, n) → ((t.dst p).length : ℤ) = target - n

@[simp]
theorem wake_counts (pos : Pos) : (wake pos).counts = pos.counts := by cases pos <;> rfl

omit [DecidableEq P] in
theorem Counted.congr (hcnt : Counted t) (hcounts : ∀ p, (after.pos p).counts = (t.pos p).counts)
    (hdst : after.dst = t.dst) : Counted after := by
  intro p target n hpos
  rw [hdst]
  exact hcnt p target n (by rw [← hcounts p, hpos])

theorem Counted.move (hcnt : Counted t) {p : P} {pos : Pos} {dst : List Byte}
    (hpos : after.pos = update t.pos p pos) (hdst : after.dst = update t.dst p dst)
    (hcount : ∀ target n, pos.counts = some (target, n) →
      (dst.length : ℤ) = target - n) : Counted after := by
  intro q target n hq
  rw [hpos] at hq
  rw [hdst]
  by_cases hqp : q = p
  · subst hqp
    rw [update_self] at hq ⊢
    exact hcount target n hq
  · rw [update_of_ne hqp] at hq ⊢
    exact hcnt q target n hq

theorem Counted.step (hcnt : Counted t) {p : P} {pos : Pos}
    (hpos : after.pos = update t.pos p pos) (hdst : after.dst = t.dst)
    (hcount : pos.counts = none ∨ pos.counts = (t.pos p).counts) : Counted after := by
  have hkept : after.dst = update t.dst p (t.dst p) := by rw [hdst, update_eq_self]
  refine hcnt.move hpos hkept ?_
  intro target n hsome
  cases hcount with
  | inl hnone =>
    rw [hnone] at hsome
    cases hsome
  | inr heq => exact hcnt p target n (by rw [← heq, hsome])

theorem readChar_counted (hcnt : Counted t) {p : P} {target n : ℤ}
    (hpos : t.pos p = .inner target n) (copied : Bool) :
    Counted (readChar t p target n copied) := by
  unfold readChar
  simp only
  split
  · split <;> exact hcnt.step rfl rfl (.inl rfl)
  · split
    · exact hcnt.step rfl rfl (.inl rfl)
    · split
      · refine hcnt.move rfl rfl ?_
        intro target n hnone
        cases hnone
      · refine hcnt.move rfl rfl ?_
        intro target' n' hsome
        cases hsome
        have hbefore := hcnt p target n (by rw [hpos]; rfl)
        rw [List.length_append, List.length_singleton]
        push_cast
        omega

theorem next_counted {p : P} {copied : Bool} (hcnt : Counted t)
    (hnext : next t p copied = some after) : Counted after := by
  unfold next at hnext
  split at hnext
  case h_1 | h_6 => cases hnext
  case h_2 hpos | h_7 hpos =>
    split at hnext <;> cases hnext
    exact hcnt.step rfl rfl (.inr (by rw [hpos]; rfl))
  case h_3 hpos =>
    split at hnext <;> cases hnext
    · exact hcnt.step rfl rfl (.inr (by rw [hpos]; rfl))
    · exact hcnt.step rfl rfl (.inl rfl)
  case h_4 hpos =>
    cases hnext
    unfold consoleread
    split
    · split
      · exact hcnt.step rfl rfl (.inl rfl)
      · exact hcnt.step rfl rfl (.inr (by rw [hpos]; rfl))
    · exact readChar_counted hcnt hpos copied
  case h_5 hpos =>
    cases hnext
    exact hcnt.step rfl rfl (.inr (by rw [hpos]; rfl))

theorem exec_counted {action : Action P} (hcnt : Counted t)
    (hexec : exec t action = some (.ok after)) : Counted after := by
  cases action with
  | intr c =>
    simp only [exec] at hexec
    split at hexec <;> cases hexec
    unfold interrupt
    simp only
    split
    · exact hcnt.congr (fun p => wake_counts _) rfl
    · exact hcnt.congr (fun p => rfl) rfl
  | read p n =>
    simp only [exec] at hexec
    split at hexec <;> cases hexec
    refine hcnt.move rfl rfl ?_
    intro target m hsome
    cases hsome
    rw [List.length_nil, sub_self]
    rfl
  | next p copied =>
    simp only [exec, Option.map_eq_some_iff, Except.ok.injEq] at hexec
    obtain ⟨_, hnext, rfl⟩ := hexec
    exact next_counted hcnt hnext
  | kill p =>
    cases hexec
    exact hcnt.step rfl rfl (.inr (wake_counts _))

abbrev Runs (t : State P) : Prop := Reachable exec (fun _ _ => True) Initial t

theorem runs_disciplined (hruns : Runs t) : Disciplined t.cons := by
  refine @Reachable.invariant _ _ _ _ _ _ (fun t => Disciplined t.cons) t hruns ?_ ?_
  · intro t hinit
    refine ⟨[], [], ⟨.nil _ _, ?_, ?_⟩, ?_, by simp⟩
    · rw [List.length_nil, advance_zero]
      exact hinit.w
    · rw [List.append_nil, List.length_nil, advance_zero]
      exact hinit.e
    · rw [hinit.inputs, hinit.consumed]
      rfl
  · intro t action after hcons _ hexec
    exact (exec_change hexec).disciplined hcons

theorem runs_counted (hruns : Runs t) : Counted t := by
  refine @Reachable.invariant _ _ _ _ _ _ Counted t hruns ?_ ?_
  · intro t hinit p target n hpos
    rw [hinit.pos] at hpos
    cases hpos
  · intro t action after hcnt _ hexec
    exact exec_counted hcnt hexec

theorem later_grows {later : State P}
    (hlater : Reachable exec (fun _ _ => True) (fun start => start = t) later) :
    (discipline t.cons.inputs).committed <+: (discipline later.cons.inputs).committed ∧
      t.cons.consumed <+: later.cons.consumed := by
  refine @Reachable.invariant _ _ _ _ _ _ (fun later =>
    (discipline t.cons.inputs).committed <+: (discipline later.cons.inputs).committed ∧
      t.cons.consumed <+: later.cons.consumed) later hlater ?_ ?_
  · rintro _ rfl
    exact ⟨List.prefix_refl _, List.prefix_refl _⟩
  · intro state action after hgrown _ hexec
    obtain ⟨hcommitted, hconsumed⟩ := (exec_change hexec).grows
    exact ⟨hgrown.1.trans hcommitted, hgrown.2.trans hconsumed⟩

/-- How a reader takes the committed character `c`: an end-of-file ends the read,
and stays for the next one unless nothing precedes it; any other character is taken,
and copied out if that succeeds. -/
structure Takes (t after : State P) (p : P) (c : Byte) (copied : Bool) : Prop where
  eof : c = ctrl 'D' → after.returned p = some ((t.dst p).length : ℤ) ∧ after.dst p = t.dst p ∧
      after.cons.consumed =
        if t.dst p = [] then t.cons.consumed ++ [c] else t.cons.consumed
  other : c ≠ ctrl 'D' → after.cons.consumed = t.cons.consumed ++ [c] ∧
      after.dst p = if copied then t.dst p ++ [c] else t.dst p

theorem readChar_takes {p : P} {target n : ℤ} {c : Byte} (copied : Bool)
    (hc : t.cons.buf (slot INPUT_BUF t.cons.r) = c) (hcount : ((t.dst p).length : ℤ) = target - n) :
    Takes t (readChar t p target n copied) p c copied := by
  unfold readChar
  simp only [hc]
  constructor
  · intro heof
    rw [if_pos heof, hcount]
    split
    case isTrue hlt =>
      have hsome : t.dst p ≠ [] := by
        intro hnil
        rw [hnil, List.length_nil] at hcount
        push_cast at hcount
        omega
      rw [if_neg hsome]
      refine ⟨update_self _ _ _, rfl, ?_⟩
      exact congrArg Cons.consumed (putBack_takeChar t.cons)
    case isFalse hlt =>
      have hnil : t.dst p = [] := by
        rw [← List.length_eq_zero_iff]
        omega
      rw [if_pos hnil]
      refine ⟨update_self _ _ _, rfl, ?_⟩
      rw [← hc]
      rfl
  · intro hne
    rw [if_neg hne]
    cases copied with
    | false =>
      refine ⟨?_, rfl⟩
      rw [← hc]
      rfl
    | true =>
      simp only [Bool.true_eq_false, if_false, if_true]
      split
      all_goals
        refine ⟨?_, update_self _ _ _⟩
        rw [← hc]
        rfl

/-- In every run, across the wrap-around of the indices: they are in order and at
most `INPUT_BUF` apart; the characters taken by readers, followed by those in the
buffer, are what the line discipline gives for the characters typed, each with the
room it had; what was committed or taken stays; and readers take the committed
characters in order. -/
theorem console_line_discipline (t : State P) (hruns : Runs t) :
    (t.cons.w - t.cons.r).toNat ≤ (t.cons.e - t.cons.r).toNat ∧
    (t.cons.e - t.cons.r).toNat ≤ INPUT_BUF ∧
    discipline t.cons.inputs = ⟨t.cons.consumed ++ committed t.cons, editing t.cons⟩ ∧
    (∀ c after, exec t (.intr c) = some (.ok after) → after.cons.inputs =
        t.cons.inputs ++ [(c, INPUT_BUF - (t.cons.e - t.cons.r).toNat)]) ∧
    (∀ later, Reachable exec (fun _ _ => True) (fun start => start = t) later →
      t.cons.consumed ++ committed t.cons <+: later.cons.consumed ++ committed later.cons ∧
        t.cons.consumed <+: later.cons.consumed) ∧
    (∀ p target n c rest copied after, t.pos p = .inner target n → committed t.cons = c :: rest →
      exec t (.next p copied) = some (.ok after) →
      Takes t after p c copied) := by
  obtain ⟨kept, line, hrefines⟩ := runs_disciplined hruns
  have hlayout := hrefines.layout
  have hlines : discipline t.cons.inputs =
      ⟨t.cons.consumed ++ committed t.cons, editing t.cons⟩ := by
    rw [hrefines.committed_eq, hrefines.editing_eq]
    exact hrefines.lines
  refine ⟨?_, ?_, hlines, ?_, ?_, ?_⟩
  · rw [hlayout.w_sub_r, hlayout.e_sub_r, List.length_append]
    exact Nat.le_add_right _ _
  · rw [hlayout.e_sub_r]
    exact hlayout.holds.length_le
  · intro c after hexec
    simp only [exec] at hexec
    split at hexec <;> cases hexec
    unfold interrupt
    simp only
    split <;> exact (consoleintr_history _ c).2
  · intro later hlater
    have hlater' : Runs later := by
      induction hlater with
      | start hstart => exact hstart ▸ hruns
      | next _ _ hexec ih => exact .next ih trivial hexec
    have hgrown := later_grows hlater
    obtain ⟨kept', line', hrefines'⟩ := runs_disciplined hlater'
    rw [hlines, hrefines'.lines, ← hrefines'.committed_eq] at hgrown
    exact hgrown
  · intro p target n c rest copied after hpos hcommitted hexec
    rw [hrefines.committed_eq] at hcommitted
    subst hcommitted
    have hsome : t.cons.r ≠ t.cons.w := fun heq => by
      simpa using hlayout.r_eq_w_iff.mp heq
    simp only [exec, next, hpos, consoleread, if_neg hsome, Option.map_some,
      Option.some.injEq, Except.ok.injEq] at hexec
    subst hexec
    refine readChar_takes copied hlayout.take.1 ?_
    exact runs_counted hruns p target n (by rw [hpos]; rfl)

/-- An empty console whose indices are about to wrap around. -/
def wrapping : State Bool where
  cons :=
    { buf := fun _ => 0
      r := BitVec.ofNat 32 (2 ^ 32 - 1)
      w := BitVec.ofNat 32 (2 ^ 32 - 1)
      e := BitVec.ofNat 32 (2 ^ 32 - 1)
      inputs := []
      consumed := [] }
  lock := none
  pos _ := .idle
  killed _ := false
  returned _ := none
  dst _ := []

theorem wrapping_initial : Initial wrapping := ⟨rfl, rfl, rfl, rfl, fun _ => rfl⟩

end

/-- `x`, backspace, `y` and a carriage return are typed across the wrap-around, and
one character is read. -/
theorem console_line_discipline_wrapping :
    ∃ t : State Bool, Runs t ∧ t.cons.w = 1 ∧ t.cons.consumed = [121] ∧
      (discipline t.cons.inputs).committed = [121, newline] ∧
      (t.cons.e - t.cons.r).toNat ≤ INPUT_BUF := by
  obtain ⟨t, hruns, htest⟩ := @exists_reachable (State Bool) (Action Bool) Panic
    exec (fun _ _ => True) Initial (fun _ _ => true)
    (fun t => decide (t.cons.w = 1 ∧ t.cons.consumed = [121] ∧
      (discipline t.cons.inputs).committed = [121, newline])) wrapping
    [.intr 120, .intr (ctrl 'H'), .intr 121, .read true 1, .intr 13,
      .next true true, .next true true, .next true true]
    wrapping_initial (fun _ _ _ => trivial) (by decide +kernel)
  obtain ⟨hw, hconsumed, hcommitted⟩ := of_decide_eq_true htest
  exact ⟨t, hruns, hw, hconsumed, hcommitted, (console_line_discipline t hruns).2.1⟩

end Xv6.Console
