import Xv6.Log.TransactionOrder

/-!
# The space that `begin_op` reserves

`begin_op` admits an operation when the log has `MAXOPBLOCKS` blocks left for it
and for every open operation.  The on-disk log has one block less than that, its
header, and `log_write` tests the space before it looks for the block in the
log.  So three operations of `MAXOPBLOCKS` blocks exhaust the log, and operations
of at most `MAXOPBLOCKS - 1` blocks never do.
-/

namespace Xv6.LogReservation

open Finset List Nat Option Interleaving Transactions TransactionOrder
open DiskLog (LOGSIZE MAXOPBLOCKS)

def nlog : ℤ := LOGSIZE

section
variable {P : Type} [DecidableEq P]

/-- The operation of a `log_write` has logged at most `limit` distinct blocks
with this one. -/
def within (limit : ℕ) (state : State P) : Action P → Bool
  | .logWrite process block =>
    match state.phase process with
    | .inside _ mine => decide ((mine.insert block).length ≤ limit)
    | _ => true
  | _ => true

/-- The runs in which every operation logs at most `limit` distinct blocks. -/
abbrev LimitedRuns (limit : ℕ) (state : State P) : Prop :=
  Reachable (exec nlog) (fun state action => within limit state action = true) (· = initial P) state

def slack : Phase → ℕ
  | .inside _ mine => MAXOPBLOCKS - mine.length
  | _ => 0

theorem slack_inside (op : ℕ) (mine : List ℕ) :
    slack (.inside op mine) = MAXOPBLOCKS - mine.length := rfl

@[simp]
theorem slack_wake (phase : Phase) : slack (wake phase) = slack phase := by cases phase <;> rfl

theorem slack_le (phase : Phase) : slack phase ≤ MAXOPBLOCKS * insideWeight phase := by
  cases phase with
  | inside op mine => simp [slack, insideWeight]
  | outside | asleep | retry | commit stage => simp [slack]

/-- What is left of the reservations fits into the log. -/
structure Reserved [Fintype P] (state : State P) : Prop where
  limited : ∀ process op mine, state.phase process = .inside op mine →
    mine.length < MAXOPBLOCKS ∧ ∀ block ∈ mine, block ∈ state.lh
  several : 2 ≤ state.outstanding →
    state.lh.length + ∑ process, slack (state.phase process) ≤ LOGSIZE
  single : state.outstanding = 1 →
    state.lh.length + ∑ process, slack (state.phase process) < LOGSIZE

end

section
variable {P : Type} [Fintype P] [DecidableEq P] {state : State P} {process : P}

omit [DecidableEq P] in
theorem slack_sum_le (hgrp : Grouped state) : ((∑ other, slack (state.phase other) : ℕ) : ℤ) ≤
    MAXOPBLOCKS * state.outstanding := by
  rw [hgrp.counted]
  have hsum : ∑ other, slack (state.phase other) ≤
      MAXOPBLOCKS * ∑ other, insideWeight (state.phase other) := by
    rw [mul_sum]
    exact sum_le_sum fun other _ => slack_le (state.phase other)
  exact_mod_cast hsum

omit [DecidableEq P] in
theorem outstanding_le_slack (hgrp : Grouped state) (hresv : Reserved state) :
    state.outstanding ≤ (∑ other, slack (state.phase other) : ℕ) := by
  rw [hgrp.counted]
  have hsum : ∑ other, insideWeight (state.phase other) ≤ ∑ other, slack (state.phase other) := by
    refine sum_le_sum fun other _ => ?_
    cases hphase : state.phase other with
    | inside op mine =>
      have hlimited := (hresv.limited other op mine hphase).1
      simp only [insideWeight, slack]
      omega
    | outside | asleep | retry | commit stage => simp [insideWeight]
  exact_mod_cast hsum

theorem slack_move (phase : Phase) : (∑ other, slack ((setPhase state process phase).phase other)) +
    slack (state.phase process) = (∑ other, slack (state.phase other)) + slack phase :=
  sum_update slack state.phase process phase

theorem reserved_move {phase : Phase} (hresv : Reserved state)
    (hphase : ∀ op mine, phase ≠ .inside op mine) (hslack : slack (state.phase process) = 0) :
    Reserved (setPhase state process phase) := by
  have hzero : slack phase = 0 := by
    cases phase with
    | inside op mine => exact absurd rfl (hphase op mine)
    | outside | asleep | retry | commit stage => rfl
  have hsum := @slack_move P _ _ state process phase
  rw [hslack, hzero, add_zero, add_zero] at hsum
  constructor
  case limited =>
    intro other op mine hin
    exact hresv.limited other op mine (inside_setPhase hphase hin)
  case several =>
    intro hout
    rw [hsum]
    exact hresv.several hout
  case single =>
    intro hout
    rw [hsum]
    exact hresv.single hout

theorem reserved_beginTest (hgrp : Grouped state) (hresv : Reserved state)
    (hin : insideWeight (state.phase process) = 0) : Reserved (beginTest state process) := by
  have hslack : slack (state.phase process) = 0 := by
    have hle := slack_le (state.phase process)
    rw [hin] at hle
    omega
  have hasleep : Reserved (setPhase state process .asleep) :=
    reserved_move hresv (fun _ _ h => by cases h) hslack
  rw [beginTest]
  split
  case isTrue => exact hasleep
  case isFalse hopen =>
    split
    case isTrue => exact hasleep
    case isFalse hspace =>
      have hsum := @slack_move P _ _ state process (.inside state.ops [])
      have hbound := slack_sum_le hgrp
      have hnew : slack (.inside state.ops []) = 10 := rfl
      rw [hslack, hnew] at hsum
      simp only [LOGSIZE, MAXOPBLOCKS] at hspace hbound
      constructor
      case limited =>
        intro other op mine ho
        rw [phase_setPhase] at ho
        split at ho
        · cases ho
          exact ⟨by decide, fun _ hb => absurd hb not_mem_nil⟩
        · exact hresv.limited other op mine ho
      case several =>
        intro _
        change state.lh.length + ∑ other, slack
          ((setPhase state process (.inside state.ops [])).phase other) ≤ 30
        omega
      case single =>
        intro hone
        change state.outstanding + 1 = 1 at hone
        have hnil := hgrp.drained (by simpa using hopen) (by omega)
        change state.lh.length + ∑ other, slack
          ((setPhase state process (.inside state.ops [])).phase other) < 30
        rw [hnil]
        simp only [length_nil]
        omega

/-- A block that is new in the log is new in the operation, so the log grows by
what the operation uses up. -/
theorem absorb_length {mine lh : List ℕ} {block : ℕ} (hsubset : ∀ other ∈ mine, other ∈ lh) :
    (if block ∈ lh then lh else lh ++ [block]).length + mine.length ≤
      lh.length + (mine.insert block).length := by
  by_cases hmine : block ∈ mine
  · rw [if_pos (hsubset block hmine), length_insert_of_mem hmine]
  · rw [length_insert_of_not_mem hmine]
    split
    · omega
    · rw [length_append, length_singleton]
      omega

theorem mem_absorb {lh : List ℕ} {block other : ℕ} (ho : other ∈ lh ∨ other = block) :
    other ∈ if block ∈ lh then lh else lh ++ [block] := by
  split
  · rcases ho with ho | rfl <;> assumption
  · simpa using ho

theorem reserved_logWrite {size : ℤ} {op : ℕ} {mine : List ℕ} {block : ℕ}
    {after : State P} (hresv : Reserved state) (hin : state.phase process = .inside op mine)
    (hlimit : (mine.insert block).length < MAXOPBLOCKS)
    (hwrite : logWrite size state process op mine block = .ok after) : Reserved after := by
  obtain ⟨hlen, hsubset⟩ := hresv.limited process op mine hin
  rw [logWrite] at hwrite
  split at hwrite
  case isTrue => cases hwrite
  case isFalse =>
    split at hwrite
    case isTrue => cases hwrite
    case isFalse =>
      cases hwrite
      have hgrows := @absorb_length mine state.lh block hsubset
      have hsum := @slack_move P _ _ state process (.inside op (mine.insert block))
      rw [hin, slack_inside, slack_inside] at hsum
      constructor
      case limited =>
        intro other op' mine' ho
        rw [phase_setPhase] at ho
        split at ho
        · cases ho
          refine ⟨hlimit, fun place hplace => mem_absorb ?_⟩
          rcases mem_insert_iff.mp hplace with rfl | hold
          · exact Or.inr rfl
          · exact Or.inl (hsubset place hold)
        · obtain ⟨hshort, hkept⟩ := hresv.limited other op' mine' ho
          exact ⟨hshort, fun place hplace => mem_absorb (Or.inl (hkept place hplace))⟩
      case several =>
        intro hout
        have hbefore := hresv.several hout
        change (if block ∈ state.lh then state.lh
          else state.lh ++ [block]).length + ∑ other, slack ((setPhase state
            process (.inside op (mine.insert block))).phase other) ≤ LOGSIZE
        omega
      case single =>
        intro hout
        have hbefore := hresv.single hout
        change (if block ∈ state.lh then state.lh
          else state.lh ++ [block]).length + ∑ other, slack ((setPhase state
            process (.inside op (mine.insert block))).phase other) < LOGSIZE
        omega

theorem reserved_endOp {op : ℕ} {mine : List ℕ} {after : State P} (hresv : Reserved state)
    (hin : state.phase process = .inside op mine)
    (hend : endOp state process = .ok after) : Reserved after := by
  have hlen := (hresv.limited process op mine hin).1
  rw [endOp] at hend
  split at hend
  case isTrue => cases hend
  case isFalse =>
    split at hend
    case isTrue hlast =>
      cases hend
      constructor
      case limited =>
        intro other op' mine' ho
        exact hresv.limited other op' mine' (inside_setPhase (fun _ _ h => by cases h) ho)
      case several =>
        intro hout
        change 2 ≤ state.outstanding - 1 at hout
        omega
      case single =>
        intro hout
        change state.outstanding - 1 = 1 at hout
        omega
    case isFalse hmore =>
      cases hend
      have hsum := @slack_move P _ _ (wakeup state) process .outside
      have hplace : (wakeup state).phase process = .inside op mine := wake_eq_inside.mpr hin
      have hwoken : ∑ other, slack ((wakeup state).phase other) =
          ∑ other, slack (state.phase other) := by
        simp only [wakeup, slack_wake]
      rw [hplace, hwoken, slack_inside, show slack .outside = 0 from rfl] at hsum
      constructor
      case limited =>
        intro other op' mine' ho
        exact hresv.limited other op' mine' (wake_eq_inside.mp
          (inside_setPhase (fun _ _ h => by cases h) ho))
      case several =>
        intro hout
        change 2 ≤ state.outstanding - 1 at hout
        have hbefore := hresv.several (by omega)
        change state.lh.length + ∑ other, slack
          ((setPhase (wakeup state) process .outside).phase other) ≤ LOGSIZE
        omega
      case single =>
        intro hout
        change state.outstanding - 1 = 1 at hout
        have hbefore := hresv.several (by omega)
        change state.lh.length + ∑ other, slack
          ((setPhase (wakeup state) process .outside).phase other) < LOGSIZE
        omega

omit [DecidableEq P] in
theorem reserved_closed (hclosed : ∀ process op mine, state.phase process ≠ .inside op mine)
    (hzero : state.outstanding = 0) : Reserved state where
  limited other op mine ho := absurd ho (hclosed other op mine)
  several hout := by omega
  single hout := by omega

theorem reserved_commitStep {stage : CommitStage} (hgrp : Grouped state)
    (hcommit : state.phase process = .commit stage) :
    Reserved (commitStep state process stage) := by
  have hcommitting := commit_committing hgrp hcommit
  have hzero := hgrp.exclusive hcommitting
  have hclosed : ∀ other op mine, state.phase other ≠ .inside op mine := by
    intro other op mine hin
    rw [not_committing hgrp hin] at hcommitting
    cases hcommitting
  have hstays : ∀ other op mine,
      (commitStep state process stage).phase other ≠ .inside op mine := by
    intro other op mine hin
    refine hclosed other op mine ?_
    cases stage <;> simp only [commitStep] at hin <;> (try split at hin) <;>
      have hold := inside_setPhase (fun _ _ h => by cases h) hin <;>
      first | exact hold | exact wake_eq_inside.mp hold
  refine reserved_closed hstays ?_
  cases stage <;> simp only [commitStep] <;> (try split) <;> exact hzero

theorem step_reserved {action : Action P} {after : State P}
    (hgrp : Grouped state) (hresv : Reserved state)
    (hwithin : within (MAXOPBLOCKS - 1) state action = true)
    (hexec : exec nlog state action = some (.ok after)) : Reserved after := by
  cases action with
  | beginOp process | retest process =>
    simp only [exec] at hexec
    split at hexec
    case h_2 => cases hexec
    case h_1 hphase =>
      cases hexec
      exact reserved_beginTest hgrp hresv (by rw [hphase]; rfl)
  | interrupt process =>
    simp only [exec] at hexec
    split at hexec
    case h_2 => cases hexec
    case h_1 hphase =>
      cases hexec
      exact reserved_move hresv (fun _ _ h => by cases h) (by rw [hphase]; rfl)
  | logWrite process block =>
    simp only [exec] at hexec
    split at hexec
    case h_2 => cases hexec
    case h_1 op mine hphase =>
      rw [some.injEq] at hexec
      simp only [within, hphase, decide_eq_true_eq] at hwithin
      exact reserved_logWrite hresv hphase (lt_of_le_pred (by decide) hwithin) hexec
  | endOp process =>
    simp only [exec] at hexec
    split at hexec
    case h_2 => cases hexec
    case h_1 op mine hphase =>
      rw [some.injEq] at hexec
      exact reserved_endOp hresv hphase hexec
  | commitStep process =>
    simp only [exec] at hexec
    split at hexec
    case h_2 => cases hexec
    case h_1 stage hphase =>
      cases hexec
      exact reserved_commitStep hgrp hphase

theorem limitedRuns_invariant (hruns : LimitedRuns (MAXOPBLOCKS - 1) state) :
    (Grouped state ∧ Recorded state) ∧ Reserved state := by
  refine @Reachable.invariant _ _ _ _ _ _
    (fun state => (Grouped state ∧ Recorded state) ∧ Reserved state) state hruns
    ?_ ?_
  · rintro _ rfl
    refine ⟨⟨grouped_initial, recorded_initial⟩, reserved_closed ?_ rfl⟩
    intro _ _ _ hin
    cases hin
  · intro state action after hinv hwithin hexec
    exact ⟨step_invariant hinv.1 hexec, step_reserved hinv.1.1 hinv.2 hwithin hexec⟩

omit [DecidableEq P] in
theorem header_room (hgrp : Grouped state) (hresv : Reserved state)
    (hopen : 1 ≤ state.outstanding) : state.lh.length + 2 ≤ LOGSIZE := by
  have hslack := outstanding_le_slack hgrp hresv
  rcases eq_or_lt_of_le hopen with hone | hmore
  · have hsingle := hresv.single hone.symm
    omega
  · have hseveral := hresv.several hmore
    omega

/-- If every operation logs fewer than `MAXOPBLOCKS` distinct blocks, then
`log_write` never finds the log full. -/
theorem log_write_has_space (hruns : LimitedRuns (MAXOPBLOCKS - 1) state) (action : Action P) :
    exec nlog state action ≠ some (.error .tooBigTransaction) := by
  obtain ⟨⟨hgrouped, -⟩, hreserved⟩ := limitedRuns_invariant hruns
  cases action with
  | logWrite process block =>
    simp only [exec]
    split
    case h_2 => simp
    case h_1 op mine hphase =>
      have hpos := outstanding_pos hgrouped hphase
      have hroom := header_room hgrouped hreserved hpos
      rw [logWrite, if_neg (by simp only [nlog]; omega), if_neg (by omega)]
      simp
  | endOp process =>
    simp only [exec]
    split
    case h_2 => simp
    case h_1 op mine hphase =>
      rw [endOp]
      split
      · simp
      · split <;> simp
  | beginOp process | retest process | interrupt process | commitStep process =>
    simp only [exec]
    split <;> simp

end

/-- Three operations of nine blocks each fit. -/
theorem log_write_has_space_three : ∃ state : State (Fin 3),
    LimitedRuns (MAXOPBLOCKS - 1) state ∧ state.lh.length = 27 ∧
      exec nlog state (.logWrite 2 20) ≠ some (.error .tooBigTransaction) := by
  obtain ⟨state, hruns, htest⟩ :=
    @exists_reachable _ _ _ (exec nlog)
      (fun state action => within (MAXOPBLOCKS - 1) state action = true)
      (· = initial (Fin 3)) (within (MAXOPBLOCKS - 1))
      (fun state => decide (state.lh.length = 27)) _
      ([.beginOp 0, .beginOp 1, .beginOp 2] ++ (List.range 9).map (.logWrite 0) ++
        (List.range' 9 9).map (.logWrite 1) ++
        (List.range' 18 9).map (.logWrite 2))
      rfl (fun _ _ hwithin => hwithin) (by decide)
  exact ⟨state, hruns, of_decide_eq_true htest, log_write_has_space hruns _⟩

/-- The panic that a step ends with. -/
def panicOf {S : Type} : Option (Except Panic S) → Option Panic
  | some (.error panic) => some panic
  | _ => none

theorem panicOf_eq_some {S : Type} {outcome : Option (Except Panic S)} {panic : Panic}
    (hpanic : panicOf outcome = some panic) : outcome = some (.error panic) := by
  rcases outcome with _ | _ | _ <;> cases hpanic
  rfl

/-- Three open operations of ten blocks each: the last `log_write` finds the log
full, although no operation logs more than `MAXOPBLOCKS` distinct blocks. -/
theorem log_write_full : ∃ state : State (Fin 3), LimitedRuns MAXOPBLOCKS state ∧
      within MAXOPBLOCKS state (.logWrite 2 29) = true ∧
      exec nlog state (.logWrite 2 29) = some (.error .tooBigTransaction) := by
  obtain ⟨state, hruns, htest⟩ :=
    @exists_reachable _ _ _ (exec nlog) (fun state action => within MAXOPBLOCKS state action = true)
      (· = initial (Fin 3)) (within MAXOPBLOCKS)
      (fun state => within MAXOPBLOCKS state (.logWrite 2 29) &&
        panicOf (exec nlog state (.logWrite 2 29)) == some .tooBigTransaction) _
      ([.beginOp 0, .beginOp 1, .beginOp 2] ++ (List.range 10).map (.logWrite 0) ++
        (List.range' 10 10).map (.logWrite 1) ++
        (List.range' 20 9).map (.logWrite 2))
      rfl (fun _ _ hwithin => hwithin) (by decide)
  rw [Bool.and_eq_true] at htest
  exact ⟨state, hruns, htest.1, panicOf_eq_some (beq_iff_eq.mp htest.2)⟩

end Xv6.LogReservation
