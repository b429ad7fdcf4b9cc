import Mathlib

/-!
# Interleaved executions

A system of processes is given by the effect of one atomic action on the shared
state: the action may be disabled, it may fail, or it gives the next state.
Safety properties are proved by induction over the runs; a run can be
restricted to actions that satisfy a condition.
-/

namespace Xv6.Interleaving

open Function Finset Nat

universe u v w

variable {σ : Type u} {ι : Type v} {ε : Type w}

/-- `exec state action` is `none` when the action is not enabled. -/
abbrev System (σ : Type u) (ι : Type v) (ε : Type w) := σ → ι → Option (Except ε σ)

/-- The states of the runs whose actions are all allowed. -/
inductive Reachable (exec : System σ ι ε) (allowed : σ → ι → Prop)
    (initial : σ → Prop) : σ → Prop where
  | start {state : σ} : initial state → Reachable exec allowed initial state
  | next {state after : σ} {action : ι} :
      Reachable exec allowed initial state → allowed state action →
      exec state action = some (.ok after) →
      Reachable exec allowed initial after

variable {exec : System σ ι ε} {allowed : σ → ι → Prop} {initial : σ → Prop}

theorem Reachable.invariant {invariant : σ → Prop} {state : σ}
    (hreachable : Reachable exec allowed initial state)
    (hstart : ∀ state, initial state → invariant state)
    (hstep : ∀ state action after, invariant state → allowed state action →
      exec state action = some (.ok after) → invariant after) : invariant state := by
  induction hreachable with
  | start hinit => exact hstart _ hinit
  | next _ hallow hexec ih => exact hstep _ _ _ ih hallow hexec

/-- Execute a list of actions, checking the restriction on the way. -/
def runActions (exec : System σ ι ε) (check : σ → ι → Bool) : σ → List ι → Option σ
  | state, [] => some state
  | state, action :: actions =>
    if check state action then
      match exec state action with
      | some (.ok after) => runActions exec check after actions
      | _ => none
    else none

theorem reachable_runActions {check : σ → ι → Bool} {actions : List ι}
    {state after : σ} (hreachable : Reachable exec allowed initial state)
    (hcheck : ∀ state action, check state action = true → allowed state action)
    (hrun : runActions exec check state actions = some after) :
    Reachable exec allowed initial after := by
  induction actions generalizing state with
  | nil =>
    cases hrun
    exact hreachable
  | cons action actions ih =>
    rw [runActions] at hrun
    split at hrun
    case isFalse => cases hrun
    case isTrue hallow =>
      split at hrun
      case h_2 => cases hrun
      case h_1 middle hexec => exact ih (hreachable.next (hcheck _ _ hallow) hexec) hrun

theorem exists_reachable {check : σ → ι → Bool} {test : σ → Bool} {start : σ}
    (actions : List ι) (hstart : initial start)
    (hcheck : ∀ state action, check state action = true → allowed state action)
    (hrun : (runActions exec check start actions).any test = true) :
    ∃ state, Reachable exec allowed initial state ∧ test state = true := by
  cases hstate : runActions exec check start actions with
  | none =>
    rw [hstate] at hrun
    cases hrun
  | some state =>
    rw [hstate] at hrun
    exact ⟨state, reachable_runActions (.start hstart) hcheck hstate, hrun⟩

/-! ## Sums over the processes -/

section Sums
variable {P L : Type*} [Fintype P] [DecidableEq P]

theorem sum_update (weight : L → ℕ) (place : P → L) (process : P) (moved : L) :
    (∑ other, weight (update place process moved other)) + weight (place process) =
      (∑ other, weight (place other)) + weight moved := by
  have hrest : ∀ other ∈ Finset.univ.erase process,
      weight (update place process moved other) = weight (place other) := by
    intro other ho
    rw [update_of_ne (ne_of_mem_erase ho)]
  rw [← add_sum_erase _ _ (mem_univ process),
    ← add_sum_erase Finset.univ (fun other => weight (place other))
      (mem_univ process), sum_congr rfl hrest,
    update_self]
  omega

theorem weight_le_sum (weight : L → ℕ) (place : P → L) (process : P) :
    weight (place process) ≤ ∑ other, weight (place other) := by
  rw [← add_sum_erase Finset.univ (fun other => weight (place other)) (mem_univ process)]
  exact le_add_right _ _

/-- The sum of one entry of the processes' tables after one process has changed
one entry. -/
theorem sum_update_entry {K : Type*} [DecidableEq K] (table : P → K → ℕ)
    (process : P) (key other : K) (count : ℕ) :
    (∑ q, update table process (update (table process) key count) q other) +
        (if other = key then table process key else 0) =
      (∑ q, table q other) + if other = key then count else 0 := by
  have hsum := sum_update (fun held : K → ℕ => held other) table process
    (update (table process) key count)
  by_cases ho : other = key
  · subst ho
    simpa using hsum
  · simpa [ho] using hsum

omit [Fintype P] in
theorem update_entry {K : Type*} [DecidableEq K] (table : P → K → ℕ)
    (process q : P) (key other : K) (count : ℕ) :
    update table process (update (table process) key count) q other =
      if q = process ∧ other = key then count else table q other := by
  by_cases hq : q = process
  · subst hq
    by_cases ho : other = key <;> simp [ho]
  · simp [hq]

end Sums

end Xv6.Interleaving
