import Xv6.Log.Transactions

/-!
# Commits and operations do not overlap

Every action keeps the invariant of the log, so in all interleavings a commit
starts only when no operation is open, and the blocks that one operation logs are
written by one commit.
-/

namespace Xv6.TransactionOrder

open Interleaving Transactions Function
open DiskLog (LOGSIZE MAXOPBLOCKS)

variable {op block : ℕ} {mine : List ℕ} {stage : CommitStage} {size : ℤ}

section
variable {P : Type} [Fintype P] [DecidableEq P] {state : State P} {process : P}

theorem counted_move (hgrp : Grouped state) (process : P) (phase : Phase) :
    ((∑ other, insideWeight ((setPhase state process phase).phase other) : ℕ) : ℤ) =
      state.outstanding + insideWeight phase - insideWeight (state.phase process) := by
  have hsum := sum_update insideWeight state.phase process phase
  rw [hgrp.counted]
  change ((∑ other, insideWeight (update state.phase process phase other) : ℕ) : ℤ) = _
  omega

theorem commits_move (hgrp : Grouped state) (process : P) (phase : Phase) :
    (∑ other, commitWeight ((setPhase state process phase).phase other)) +
        commitWeight (state.phase process) =
      (if state.committing then 1 else 0) + commitWeight phase := by
  rw [← hgrp.commits]
  exact sum_update commitWeight state.phase process phase

theorem grouped_move {phase : Phase} (hgrp : Grouped state)
    (hin : insideWeight phase = insideWeight (state.phase process))
    (hcommit : commitWeight phase = commitWeight (state.phase process))
    (hprog : ∀ stage, phase = .commit stage → Progress state stage) :
    Grouped (setPhase state process phase) where
  counted := by
    have hsum := counted_move hgrp process phase
    rw [hin] at hsum
    exact (hsum.trans (by simp [setPhase])).symm
  commits := by
    have hsum := commits_move hgrp process phase
    rw [hcommit] at hsum
    exact Nat.add_right_cancel hsum
  exclusive := hgrp.exclusive
  progress other stage hstage := by
    rw [phase_setPhase] at hstage
    split at hstage
    · exact hprog stage hstage
    · exact hgrp.progress other stage hstage
  unwritten := hgrp.unwritten
  future := hgrp.future
  drained := hgrp.drained

omit [DecidableEq P] in
theorem grouped_wakeup (hgrp : Grouped state) : Grouped (wakeup state) where
  counted := by
    simp only [wakeup, insideWeight_wake]
    exact hgrp.counted
  commits := by
    simp only [wakeup, commitWeight_wake]
    exact hgrp.commits
  exclusive := hgrp.exclusive
  progress other stage hstage := hgrp.progress other stage (wake_eq_commit.mp hstage)
  unwritten := hgrp.unwritten
  future := hgrp.future
  drained := hgrp.drained

omit [DecidableEq P] in
theorem outstanding_nonneg (hgrp : Grouped state) : 0 ≤ state.outstanding := by
  rw [hgrp.counted]
  exact Int.natCast_nonneg _

theorem outstanding_pos (hgrp : Grouped state)
    (hin : state.phase process = .inside op mine) : 1 ≤ state.outstanding := by
  have hweight := weight_le_sum insideWeight state.phase process
  rw [hin] at hweight
  rw [hgrp.counted]
  exact_mod_cast hweight

theorem not_committing (hgrp : Grouped state)
    (hin : state.phase process = .inside op mine) : state.committing = false := by
  cases hcommitting : state.committing with
  | false => rfl
  | true =>
    have hpos := outstanding_pos hgrp hin
    have hzero := hgrp.exclusive hcommitting
    omega

theorem commit_committing (hgrp : Grouped state)
    (hcommit : state.phase process = .commit stage) : state.committing = true := by
  have hweight := weight_le_sum commitWeight state.phase process
  rw [hcommit, hgrp.commits] at hweight
  cases hcommitting : state.committing with
  | true => rfl
  | false =>
    rw [hcommitting] at hweight
    exact absurd hweight (by simp [commitWeight])

theorem commit_unique {other : P} {stage' : CommitStage}
    (hgrp : Grouped state) (hcommit : state.phase process = .commit stage)
    (ho : state.phase other = .commit stage') : other = process := by
  by_contra hne
  have hsum := sum_update commitWeight state.phase process .outside
  have hweight := weight_le_sum commitWeight (update state.phase process .outside) other
  rw [update_of_ne hne, ho] at hweight
  rw [hcommit, hgrp.commits, if_pos (commit_committing hgrp hcommit)] at hsum
  simp only [commitWeight] at hsum hweight
  omega

theorem no_commit (hgrp : Grouped state) (hopen : state.committing = false)
    (other : P) (stage : CommitStage) : state.phase other ≠ .commit stage := by
  intro hcommit
  rw [commit_committing hgrp hcommit] at hopen
  cases hopen

/-! ## The actions -/

theorem grouped_beginTest (hgrp : Grouped state) (hin : insideWeight (state.phase process) = 0)
    (hcommit : commitWeight (state.phase process) = 0) : Grouped (beginTest state process) := by
  have hasleep : Grouped (setPhase state process .asleep) :=
    grouped_move hgrp hin.symm hcommit.symm fun _ h => by cases h
  rw [beginTest]
  split
  case isTrue => exact hasleep
  case isFalse hopen =>
    split
    case isTrue => exact hasleep
    case isFalse hspace =>
      have hnonneg := outstanding_nonneg hgrp
      constructor
      case counted =>
        have hsum := counted_move hgrp process (.inside state.ops [])
        rw [hin] at hsum
        exact (hsum.trans (by simp [insideWeight, setPhase])).symm
      case commits =>
        have hsum := commits_move hgrp process (.inside state.ops [])
        rw [hcommit] at hsum
        exact hsum
      case exclusive =>
        intro hcommitting
        exact absurd hcommitting hopen
      case progress =>
        intro other stage hstage
        rw [phase_setPhase] at hstage
        split at hstage
        · cases hstage
        · exact hgrp.progress other stage hstage
      case unwritten => exact hgrp.unwritten
      case future => exact hgrp.future
      case drained =>
        intro _ hzero
        change state.outstanding + 1 = 0 at hzero
        omega

theorem grouped_logWrite
    {after : State P} (hgrp : Grouped state) (hin : state.phase process = .inside op mine)
    (hwrite : logWrite size state process op mine block = .ok after) : Grouped after := by
  have hopen := not_committing hgrp hin
  have hpos := outstanding_pos hgrp hin
  rw [logWrite] at hwrite
  split at hwrite
  case isTrue => cases hwrite
  case isFalse =>
    rw [if_neg (by omega)] at hwrite
    cases hwrite
    -- Between phases of the same kind; the header changes, but no commit runs.
    have hmoved : Grouped (setPhase state process (.inside op (mine.insert block))) :=
      grouped_move hgrp (by rw [hin]; rfl) (by rw [hin]; rfl) fun _ h => by cases h
    constructor
    case counted => exact hmoved.counted
    case commits => exact hmoved.commits
    case exclusive => exact hmoved.exclusive
    case progress =>
      intro other stage hstage
      exact absurd hstage (no_commit hmoved hopen other stage)
    case unwritten => exact hgrp.unwritten
    case future => exact hgrp.future
    case drained =>
      intro _ hzero
      change state.outstanding = 0 at hzero
      omega

theorem grouped_endOp {after : State P} (hgrp : Grouped state)
    (hin : state.phase process = .inside op mine)
    (hend : endOp state process = .ok after) : Grouped after := by
  have hopen := not_committing hgrp hin
  rw [endOp, if_neg (by simp [hopen])] at hend
  split at hend
  case isTrue hlast =>
    cases hend
    constructor
    case counted =>
      have hsum := counted_move hgrp process (.commit .check)
      rw [hin] at hsum
      exact (hsum.trans (by simp [insideWeight, setPhase])).symm
    case commits =>
      have hsum := commits_move hgrp process (.commit .check)
      rw [hin, hopen] at hsum
      exact hsum
    case exclusive => exact fun _ => hlast
    case progress =>
      intro other stage hstage
      rw [phase_setPhase] at hstage
      split at hstage
      · cases hstage
        exact hgrp.unwritten hopen
      · exact absurd hstage (no_commit hgrp hopen other stage)
    case unwritten =>
      intro hfalse
      cases hfalse
    case future => exact hgrp.future
    case drained =>
      intro hfalse
      cases hfalse
  case isFalse hmore =>
    cases hend
    have hwoken := grouped_wakeup hgrp
    have hplace : (wakeup state).phase process = .inside op mine := wake_eq_inside.mpr hin
    constructor
    case counted =>
      have hsum := counted_move hwoken process .outside
      rw [hplace] at hsum
      exact (hsum.trans (by simp [insideWeight, setPhase, wakeup])).symm
    case commits =>
      have hsum := commits_move hwoken process .outside
      rw [hplace] at hsum
      exact hsum
    case exclusive =>
      intro hcommitting
      exact absurd hcommitting (by simp [setPhase, wakeup, hopen])
    case progress =>
      intro other stage hstage
      rw [phase_setPhase] at hstage
      split at hstage
      · cases hstage
      · exact hgrp.progress other stage (wake_eq_commit.mp hstage)
    case unwritten => exact hgrp.unwritten
    case future => exact hgrp.future
    case drained =>
      intro _ hzero
      exact absurd hzero hmore

theorem grouped_advance {stage next : CommitStage} {lh : List ℕ}
    {written : ℕ → List ℕ} (hgrp : Grouped state) (hcommit : state.phase process = .commit stage)
    (hfuture : ∀ epoch, state.epoch < epoch → written epoch = [])
    (hprog : Progress { state with lh := lh, written := written } next) :
      Grouped (setPhase { state with lh := lh, written := written } process (.commit next)) := by
  have hcommitting := commit_committing hgrp hcommit
  constructor
  case counted =>
    have hsum := counted_move hgrp process (.commit next)
    rw [hcommit] at hsum
    exact (hsum.trans (by simp [insideWeight, setPhase])).symm
  case commits =>
    have hsum := commits_move hgrp process (.commit next)
    rw [hcommit] at hsum
    exact Nat.add_right_cancel hsum
  case exclusive => exact hgrp.exclusive
  case progress =>
    intro other stage' hstage
    rw [phase_setPhase] at hstage
    split at hstage
    · cases hstage
      exact hprog
    · rename_i ho
      exact absurd (commit_unique hgrp hcommit hstage) ho
  case unwritten =>
    intro hopen
    change state.committing = false at hopen
    rw [hcommitting] at hopen
    cases hopen
  case future => exact hfuture
  case drained =>
    intro hopen
    change state.committing = false at hopen
    rw [hcommitting] at hopen
    cases hopen

theorem grouped_finish (hgrp : Grouped state) (hcommit : state.phase process = .commit .finish) :
    Grouped (commitStep state process .finish) := by
  have hcommitting := commit_committing hgrp hcommit
  have hnil : state.lh = [] := hgrp.progress process .finish hcommit
  have hwoken := grouped_wakeup hgrp
  have hplace : (wakeup state).phase process = .commit .finish := wake_eq_commit.mpr hcommit
  constructor
  case counted =>
    have hsum := counted_move hwoken process .outside
    rw [hplace] at hsum
    exact (hsum.trans (by simp [insideWeight, commitStep, setPhase, wakeup])).symm
  case commits =>
    have hsum := commits_move hwoken process .outside
    rw [hplace, show (wakeup state).committing = true from hcommitting] at hsum
    exact Nat.add_right_cancel hsum
  case exclusive =>
    intro hfalse
    cases hfalse
  case progress =>
    intro other stage hstage
    rw [commitStep, phase_setPhase] at hstage
    split at hstage
    · cases hstage
    · rename_i ho
      exact absurd (commit_unique hgrp hcommit (wake_eq_commit.mp hstage)) ho
  case unwritten =>
    intro _
    exact hgrp.future (state.epoch + 1) (Nat.lt_succ_self _)
  case future =>
    intro epoch hepoch
    exact hgrp.future epoch (Nat.lt_of_succ_lt hepoch)
  case drained => exact fun _ _ => hnil

theorem grouped_commitStep (hgrp : Grouped state)
    (hcommit : state.phase process = .commit stage) : Grouped (commitStep state process stage) := by
  have hprog := hgrp.progress process stage hcommit
  have hmove := fun next =>
    @grouped_advance P _ _ state process stage next state.lh state.written hgrp hcommit hgrp.future
  cases stage with
  | check =>
    rw [commitStep]
    split
    case isTrue hnil => exact hmove .finish hnil
    case isFalse => exact hmove (.writeLog 0) ⟨Nat.zero_le _, hprog⟩
  | writeLog tail =>
    rw [commitStep]
    split
    case isTrue hlt =>
      refine grouped_advance hgrp hcommit (fun epoch hepoch => ?_) ⟨hlt, ?_⟩
      · rw [update_of_ne (Nat.ne_of_gt hepoch)]
        exact hgrp.future epoch hepoch
      · change update state.written state.epoch _ state.epoch = _
        rw [update_self, hprog.2, List.getD_eq_getElem _ _ hlt, List.take_append_getElem]
    case isFalse hge =>
      refine hmove .writeHead ?_
      change state.written state.epoch = state.lh
      rw [hprog.2, List.take_of_length_le (by omega)]
  | writeHead => exact hmove (.installTrans 0) hprog
  | installTrans tail =>
    rw [commitStep]
    split
    case isTrue => exact hmove (.installTrans (tail + 1)) hprog
    case isFalse => exact hmove .clearHeader hprog
  | clearHeader => exact grouped_advance hgrp hcommit hgrp.future rfl
  | writeCleared => exact hmove .finish hprog
  | finish => exact grouped_finish hgrp hcommit

/-! ## The history -/

omit [Fintype P] in
theorem recorded_beginTest (hrec : Recorded state) : Recorded (beginTest state process) := by
  have hasleep : Recorded (setPhase state process .asleep) := hrec.move fun _ _ h => by cases h
  rw [beginTest]
  split
  case isTrue => exact hasleep
  case isFalse =>
    split
    case isTrue => exact hasleep
    case isFalse =>
      constructor
      case numbered =>
        intro other op mine hin
        rw [phase_setPhase] at hin
        split at hin
        · cases hin
          exact Nat.lt_succ_self _
        · exact Nat.lt_succ_of_lt (hrec.numbered other op mine hin)
      case begun =>
        intro entry he
        exact Nat.lt_succ_of_lt (hrec.begun entry he)
      case current =>
        intro entry he other mine hin
        rw [phase_setPhase] at hin
        split at hin
        · -- The number of the new operation is in no record.
          have hbegun := hrec.begun entry he
          injection hin with hop
          exact absurd hbegun (by omega)
        · exact hrec.current entry he other mine hin
      case joined => exact hrec.joined
      case bounded => exact hrec.bounded
      case pending => exact hrec.pending
      case past => exact hrec.past

omit [Fintype P] in
theorem recorded_logWrite
    {after : State P} (hrec : Recorded state) (hin : state.phase process = .inside op mine)
    (hwrite : logWrite size state process op mine block = .ok after) : Recorded after := by
  rw [logWrite] at hwrite
  split at hwrite
  case isTrue => cases hwrite
  case isFalse =>
    split at hwrite
    case isTrue => cases hwrite
    case isFalse =>
      cases hwrite
      have hlh : ∀ other, other ∈ state.lh ∨ other = block →
          other ∈ if block ∈ state.lh then state.lh
            else state.lh ++ [block] := by
        intro other ho
        split
        · rcases ho with ho | rfl <;> assumption
        · simpa using ho
      have hsame : ∀ entry ∈ state.logged, entry.op = op → entry.epoch = state.epoch := by
        rintro entry he rfl
        exact hrec.current entry he process mine hin
      constructor
      case numbered =>
        intro other op' mine' ho
        rw [phase_setPhase] at ho
        split at ho
        · cases ho
          exact hrec.numbered process op mine hin
        · exact hrec.numbered other op' mine' ho
      case begun =>
        intro entry he
        rcases List.mem_cons.mp he with rfl | he
        · exact hrec.numbered process op mine hin
        · exact hrec.begun entry he
      case current =>
        intro entry he other mine' ho
        rcases List.mem_cons.mp he with rfl | he
        · rfl
        · rw [phase_setPhase] at ho
          split at ho
          · injection ho with hop
            exact hsame entry he hop.symm
          · exact hrec.current entry he other mine' ho
      case joined =>
        intro left hleft right hright hop
        rcases List.mem_cons.mp hleft with rfl | hleft <;>
          rcases List.mem_cons.mp hright with rfl | hright
        · rfl
        · exact (hsame right hright hop.symm).symm
        · exact hsame left hleft hop
        · exact hrec.joined left hleft right hright hop
      case bounded =>
        intro entry he
        rcases List.mem_cons.mp he with rfl | he
        · exact Nat.le_refl _
        · exact hrec.bounded entry he
      case pending =>
        intro entry he hepoch
        rcases List.mem_cons.mp he with rfl | he
        · exact Or.inl (hlh block (Or.inr rfl))
        · exact (hrec.pending entry he hepoch).imp_left fun hb => hlh entry.block (Or.inl hb)
      case past =>
        intro entry he hepoch
        rcases List.mem_cons.mp he with rfl | he
        · exact absurd hepoch (Nat.lt_irrefl _)
        · exact hrec.past entry he hepoch

omit [Fintype P] in
theorem recorded_endOp {after : State P} (hrec : Recorded state)
    (hend : endOp state process = .ok after) : Recorded after := by
  rw [endOp] at hend
  split at hend
  case isTrue => cases hend
  case isFalse =>
    split at hend
    case isTrue =>
      cases hend
      exact (hrec.setCounts _ _).move fun _ _ h => by cases h
    case isFalse =>
      cases hend
      exact (hrec.setCounts _ _).wakeup.move fun _ _ h => by cases h

omit [Fintype P] [DecidableEq P] in
theorem recorded_copyToLog (hrec : Recorded state) (tail : ℕ) :
    Recorded (copyToLog state tail) where
  numbered := hrec.numbered
  begun := hrec.begun
  current := hrec.current
  joined := hrec.joined
  bounded := hrec.bounded
  pending entry he hepoch := by
    refine (hrec.pending entry he hepoch).imp_right fun hb => ?_
    change entry.block ∈ update state.written state.epoch _ state.epoch
    rw [update_self]
    exact List.mem_append_left _ hb
  past entry he hepoch := by
    change entry.epoch < state.epoch at hepoch
    change entry.block ∈ update state.written state.epoch _ entry.epoch
    rw [update_of_ne (Nat.ne_of_lt hepoch)]
    exact hrec.past entry he hepoch

omit [Fintype P] [DecidableEq P] in
theorem recorded_clear (hrec : Recorded state)
    (hwritten : state.written state.epoch = state.lh) :
    Recorded { state with lh := [] } where
  numbered := hrec.numbered
  begun := hrec.begun
  current := hrec.current
  joined := hrec.joined
  bounded := hrec.bounded
  pending entry he hepoch := by
    have hpending := hrec.pending entry he hepoch
    rw [hwritten, or_self] at hpending
    exact Or.inr (hwritten ▸ hpending)
  past := hrec.past

omit [Fintype P] [DecidableEq P] in
theorem recorded_nextEpoch (hrec : Recorded state)
    (hclosed : ∀ process op mine, state.phase process ≠ .inside op mine)
    (hnil : state.lh = []) :
    Recorded { state with
      committing := false, epoch := state.epoch + 1 } where
  numbered := hrec.numbered
  begun := hrec.begun
  current entry _ process mine hin := absurd hin (hclosed process entry.op mine)
  joined := hrec.joined
  bounded entry he := Nat.le_succ_of_le (hrec.bounded entry he)
  pending entry he hepoch := by
    have hbounded := hrec.bounded entry he
    change entry.epoch = state.epoch + 1 at hepoch
    omega
  past entry he hepoch := by
    rcases Nat.lt_succ_iff_lt_or_eq.mp hepoch with hbefore | hnow
    · exact hrec.past entry he hbefore
    · have hpending := hrec.pending entry he hnow
      rw [hnil] at hpending
      rw [hnow]
      exact hpending.resolve_left (List.not_mem_nil)

theorem recorded_commitStep (hgrp : Grouped state)
    (hrec : Recorded state) (hcommit : state.phase process = .commit stage) :
    Recorded (commitStep state process stage) := by
  have hprog := hgrp.progress process stage hcommit
  have hmove := fun next =>
    @Recorded.move P _ state process (.commit next) hrec fun _ _ h => by cases h
  cases stage with
  | check =>
    rw [commitStep]
    split
    · exact hmove .finish
    · exact hmove (.writeLog 0)
  | writeLog tail =>
    rw [commitStep]
    split
    · exact (recorded_copyToLog hrec tail).move fun _ _ h => by cases h
    · exact hmove .writeHead
  | writeHead => exact hmove (.installTrans 0)
  | installTrans tail =>
    rw [commitStep]
    split
    · exact hmove (.installTrans (tail + 1))
    · exact hmove .clearHeader
  | clearHeader => exact (recorded_clear hrec hprog).move fun _ _ h => by cases h
  | writeCleared => exact hmove .finish
  | finish =>
    have hclosed : ∀ other op mine, state.phase other ≠ .inside op mine := by
      intro other op mine hin
      have hopen := not_committing hgrp hin
      rw [commit_committing hgrp hcommit] at hopen
      cases hopen
    exact (recorded_nextEpoch hrec hclosed hprog).wakeup.move fun _ _ h => by cases h

/-! ## Whole runs -/

/-- The runs of `begin_op`, `log_write`, `end_op` and `commit`. -/
abbrev Runs (size : ℤ) (state : State P) : Prop :=
  Reachable (exec size) (fun _ _ => True) (· = initial P) state

omit [DecidableEq P] in
theorem grouped_initial : Grouped (initial P) where
  counted := by simp [initial, insideWeight]
  commits := by simp [initial, commitWeight]
  exclusive hfalse := by cases hfalse
  progress _ _ hstage := by cases hstage
  unwritten _ := rfl
  future _ _ := rfl
  drained _ _ := rfl

omit [Fintype P] [DecidableEq P] in
theorem recorded_initial : Recorded (initial P) where
  numbered _ _ _ hin := by cases hin
  begun _ he := absurd he List.not_mem_nil
  current _ he := absurd he List.not_mem_nil
  joined _ hleft := absurd hleft List.not_mem_nil
  bounded _ he := absurd he List.not_mem_nil
  pending _ he := absurd he List.not_mem_nil
  past _ he := absurd he List.not_mem_nil

theorem step_invariant {action : Action P} {after : State P} (hinv : Grouped state ∧ Recorded state)
    (hexec : exec size state action = some (.ok after)) : Grouped after ∧ Recorded after := by
  obtain ⟨hgrp, hrec⟩ := hinv
  cases action with
  | beginOp process | retest process =>
    simp only [exec] at hexec
    split at hexec
    case h_2 => cases hexec
    case h_1 hphase =>
      cases hexec
      exact ⟨grouped_beginTest hgrp (by rw [hphase]; rfl)
        (by rw [hphase]; rfl), recorded_beginTest hrec⟩
  | interrupt process =>
    simp only [exec] at hexec
    split at hexec
    case h_2 => cases hexec
    case h_1 hphase =>
      cases hexec
      exact ⟨grouped_move hgrp (by rw [hphase]; rfl) (by rw [hphase]; rfl)
        (fun _ h => by cases h), hrec.move (fun _ _ h => by cases h)⟩
  | logWrite process block =>
    simp only [exec] at hexec
    split at hexec
    case h_2 => cases hexec
    case h_1 op mine hphase =>
      rw [Option.some.injEq] at hexec
      exact ⟨grouped_logWrite hgrp hphase hexec, recorded_logWrite hrec hphase hexec⟩
  | endOp process =>
    simp only [exec] at hexec
    split at hexec
    case h_2 => cases hexec
    case h_1 op mine hphase =>
      rw [Option.some.injEq] at hexec
      exact ⟨grouped_endOp hgrp hphase hexec, recorded_endOp hrec hexec⟩
  | commitStep process =>
    simp only [exec] at hexec
    split at hexec
    case h_2 => cases hexec
    case h_1 stage hphase =>
      cases hexec
      exact ⟨grouped_commitStep hgrp hphase, recorded_commitStep hgrp hrec hphase⟩

theorem runs_invariant (hruns : Runs size state) : Grouped state ∧ Recorded state :=
  hruns.invariant (fun _ hinit => hinit ▸ ⟨grouped_initial, recorded_initial⟩)
    fun _ _ _ hinv _ hexec => step_invariant hinv hexec

theorem header_kept {action : Action P} {after : State P}
    (hgrp : Grouped state) (hcommitting : state.committing = true)
    (hexec : exec size state action = some (.ok after)) (hchanged : after.lh ≠ state.lh) :
    ∃ process stage, action = .commitStep process ∧ state.phase process = .commit stage := by
  have hbegin : ∀ process : P, (beginTest state process).lh = state.lh := by
    intro process
    rw [beginTest, if_pos hcommitting]
    rfl
  have hclosed : ∀ process op mine, state.phase process ≠ .inside op mine := by
    intro process op mine hin
    rw [not_committing hgrp hin] at hcommitting
    cases hcommitting
  cases action with
  | beginOp process | retest process =>
    simp only [exec] at hexec
    split at hexec <;> cases hexec
    exact absurd (hbegin process) hchanged
  | interrupt process =>
    simp only [exec] at hexec
    split at hexec <;> cases hexec
    exact absurd rfl hchanged
  | logWrite process block | endOp process =>
    simp only [exec] at hexec
    split at hexec
    case h_2 => cases hexec
    case h_1 op mine hphase => exact absurd hphase (hclosed process op mine)
  | commitStep process =>
    simp only [exec] at hexec
    split at hexec
    case h_2 => cases hexec
    case h_1 stage hphase => exact ⟨process, stage, rfl, hphase⟩

theorem no_order_panic (hgrp : Grouped state) (action : Action P) :
    exec size state action ≠ some (.error .logCommitting) ∧
      exec size state action ≠ some (.error .logWriteOutside) := by
  cases action with
  | logWrite process block =>
    simp only [exec]
    split
    case h_2 => simp
    case h_1 op mine hphase =>
      have hpos := outstanding_pos hgrp hphase
      rw [logWrite]
      split
      · simp
      · rw [if_neg (by omega)]
        simp
  | endOp process =>
    simp only [exec]
    split
    case h_2 => simp
    case h_1 op mine hphase =>
      rw [endOp, if_neg (by simp [not_committing hgrp hphase])]
      split <;> simp
  | beginOp process | retest process | interrupt process | commitStep process =>
    simp only [exec]
    split <;> simp

/-- Transactions are not split and do not overlap a commit: in every state of
every run a commit in progress is the only one and no operation is open, only it
changes the header, the panics about the order of the calls are not reached, and
all blocks that an operation logs belong to one commit, which has written them
when it is complete. -/
theorem transactions_not_split (size : ℤ) {state : State P} (hruns : Runs size state) :
    (state.committing = true → state.outstanding = 0) ∧
    (∀ process other stage stage', state.phase process = .commit stage →
      state.phase other = .commit stage' → other = process) ∧
    (∀ action after, exec size state action = some (.ok after) →
      state.committing = true → after.lh ≠ state.lh →
        ∃ process stage, action = .commitStep process ∧ state.phase process = .commit stage) ∧
    (∀ action, exec size state action ≠ some (.error .logCommitting) ∧
      exec size state action ≠ some (.error .logWriteOutside)) ∧
    (∀ op, ∃ epoch, ∀ entry ∈ state.logged, entry.op = op → entry.epoch = epoch ∧
        (epoch < state.epoch → entry.block ∈ state.written epoch)) ∧
    (∀ entry ∈ state.logged, state.epoch ≤ entry.epoch →
      entry.block ∈ state.lh ∨ entry.block ∈ state.written state.epoch) := by
  obtain ⟨hgrouped, hrecorded⟩ := runs_invariant hruns
  refine ⟨hgrouped.exclusive, fun _ _ _ _ hcommit hother =>
      commit_unique hgrouped hcommit hother,
    fun action after hexec hcommitting hchanged =>
      header_kept hgrouped hcommitting hexec hchanged,
    no_order_panic hgrouped, fun op => ?_, fun entry hentry hepoch => ?_⟩
  · by_cases hlogged : ∃ first ∈ state.logged, first.op = op
    · obtain ⟨first, hfirst, rfl⟩ := hlogged
      refine ⟨first.epoch, fun entry hentry hop => ?_⟩
      have hepoch := hrecorded.joined entry hentry first hfirst hop
      exact ⟨hepoch, fun hpast =>
        hepoch ▸ hrecorded.past entry hentry (hepoch ▸ hpast)⟩
    · exact ⟨0, fun entry hentry hop => absurd ⟨entry, hentry, hop⟩ hlogged⟩
  · exact hrecorded.pending entry hentry (Nat.le_antisymm (hrecorded.bounded entry hentry) hepoch)

end

/-- Two processes log in one group, and the second to end commits both. -/
theorem transactions_not_split_group : ∃ state : State (Fin 2),
    Runs 30 state ∧ (state.epoch = 1 ∧ state.written 0 = [7, 8]) ∧
      ∃ epoch, ∀ entry ∈ state.logged, entry.op = 0 → entry.epoch = epoch ∧
        (epoch < state.epoch → entry.block ∈ state.written epoch) := by
  obtain ⟨state, hruns, htest⟩ :=
    @exists_reachable _ _ _ (exec 30) (fun _ _ => True) (· = initial (Fin 2)) (fun _ _ => true)
      (fun state => decide (state.epoch = 1 ∧ state.written 0 = [7, 8])) _
      ([.beginOp 0, .beginOp 1, .logWrite 0 7, .logWrite 1 8, .logWrite 0 8,
        .endOp 0, .endOp 1] ++ List.replicate 11 (.commitStep 1))
      rfl (fun _ _ _ => trivial) (by decide)
  exact ⟨state, hruns, of_decide_eq_true htest, (transactions_not_split 30 hruns).2.2.2.2.1 0⟩

end Xv6.TransactionOrder
