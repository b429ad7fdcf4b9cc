import Mathlib

/-!
# Computations that may panic

Rules for programs in `Except`.  `Avoids` is a postcondition that also says
which errors the program cannot raise: with all errors bad it is total
correctness, with none bad it is partial correctness.
-/

namespace Xv6.Outcome

universe u v

variable {ε : Type u} {α β : Type v}

/-- The program either returns a result that satisfies `post`, or fails with
an error that is not bad. -/
def Avoids (bad : ε → Prop) (program : Except ε α) (post : α → Prop) : Prop :=
  match program with
  | .ok result => post result
  | .error failure => ¬ bad failure

@[simp]
theorem ok_bind (value : α) (next : α → Except ε β) : (Except.ok value >>= next) = next value := rfl

@[simp]
theorem error_bind (panic : ε) (next : α → Except ε β) :
    ((Except.error panic : Except ε α) >>= next) = .error panic := rfl

@[simp]
theorem pure_eq_ok (value : α) : (pure value : Except ε α) = .ok value := rfl

@[simp]
theorem throw_eq_error (panic : ε) : (throw panic : Except ε α) = .error panic := rfl

theorem bind_eq_ok {program : Except ε α} {next : α → Except ε β} {result : β} :
    program >>= next = .ok result ↔ ∃ value, program = .ok value ∧ next value = .ok result := by
  cases program with
  | error panic => simp
  | ok value => simp

/-- A loop over a list returns when each iteration does; the invariant may speak of
the elements that are left. -/
theorem foldlM_returns {ι : Type*} {step : α → ι → Except ε α} {invariant : List ι → α → Prop}
    (hstep : ∀ item rest state, invariant (item :: rest) state →
      ∃ after, step state item = .ok after ∧ invariant rest after)
    {items : List ι} {state : α} (hstart : invariant items state) :
    ∃ after, items.foldlM step state = .ok after ∧ invariant [] after := by
  induction items generalizing state with
  | nil => exact ⟨state, rfl, hstart⟩
  | cons item rest ih =>
    obtain ⟨middle, hmiddle, hrest⟩ := hstep item rest state hstart
    obtain ⟨after, hafter, hend⟩ := ih hrest
    exact ⟨after, by rw [List.foldlM_cons, hmiddle, ok_bind, hafter], hend⟩

namespace Avoids

variable {bad : ε → Prop}

theorem ok {value : α} {post : α → Prop} (hpost : post value) : Avoids bad (.ok value) post := hpost

theorem error {failure : ε} {post : α → Prop} (hfailure : ¬ bad failure) :
    Avoids bad (.error failure) post := hfailure

theorem bind {program : Except ε α} {next : α → Except ε β}
    {middle : α → Prop} {post : β → Prop} (hprogram : Avoids bad program middle)
    (hnext : ∀ value, middle value → Avoids bad (next value) post) :
    Avoids bad (program >>= next) post := by
  cases program with
  | error failure => exact hprogram
  | ok value => exact hnext value hprogram

theorem mono {program : Except ε α} {weak strong : α → Prop} (hprogram : Avoids bad program strong)
    (himplies : ∀ value, strong value → weak value) : Avoids bad program weak := by
  cases program with
  | error failure => exact hprogram
  | ok value => exact himplies value hprogram

theorem returns {program : Except ε α} {post : α → Prop}
    (hprogram : Avoids (fun _ => True) program post) :
    ∃ value, program = .ok value ∧ post value := by
  cases program with
  | error failure => exact absurd trivial hprogram
  | ok value => exact ⟨value, rfl, hprogram⟩

theorem of_returns {program : Except ε α} {post : α → Prop}
    (hprogram : ∃ value, program = .ok value ∧ post value) : Avoids bad program post := by
  obtain ⟨value, rfl, hvalue⟩ := hprogram
  exact hvalue

/-- The rule for a loop over `0, 1, …, count - 1`: an invariant that every
iteration keeps holds at the end. -/
theorem foldlM_range {σ : Type v} {step : σ → ℕ → Except ε σ}
    {invariant : ℕ → σ → Prop} (count : ℕ) {state : σ} (hstart : invariant 0 state)
    (hstep : ∀ index < count, ∀ state, invariant index state →
      Avoids bad (step state index) (invariant (index + 1))) :
    Avoids bad ((List.range count).foldlM step state) (invariant count) := by
  induction count with
  | zero => exact ok hstart
  | succ count ih =>
    rw [List.range_succ, List.foldlM_append]
    refine bind (ih fun index hi => hstep index (Nat.lt_succ_of_lt hi)) fun state hstate => ?_
    have hlast := hstep count (Nat.lt_succ_self count) state hstate
    cases hres : step state count with
    | error failure | ok final =>
      rw [hres] at hlast
      simpa [hres] using hlast

end Avoids

end Xv6.Outcome
