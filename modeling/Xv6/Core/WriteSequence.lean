import Mathlib

/-!
# Sequences of writes to a store

A store is a function from addresses to contents, and a device executes a list
of single writes in issue order.  The two facts every crash argument needs are
that a run of writes may be cut anywhere (an invariant kept by each write is
kept by every initial part), and that replaying a complete list of writes
forgets how much of it had been executed before.
-/

namespace Xv6.WriteSequence

open Function

variable {Address Content : Type*} [DecidableEq Address]

def applyWrites : List (Address × Content) → (Address → Content) → Address → Content
  | [], store => store
  | write :: writes, store => applyWrites writes (update store write.1 write.2)

@[simp]
theorem applyWrites_nil (store : Address → Content) : applyWrites [] store = store := rfl

@[simp]
theorem applyWrites_cons (write : Address × Content)
    (writes : List (Address × Content)) (store : Address → Content) :
    applyWrites (write :: writes) store = applyWrites writes (update store write.1 write.2) := rfl

theorem applyWrites_append (first second : List (Address × Content)) (store : Address → Content) :
    applyWrites (first ++ second) store = applyWrites second (applyWrites first store) := by
  induction first generalizing store with
  | nil => rfl
  | cons write writes ih => exact ih (update store write.1 write.2)

theorem applyWrites_untouched (writes : List (Address × Content))
    (store : Address → Content) (address : Address)
    (huntouched : ∀ write ∈ writes, write.1 ≠ address) :
    applyWrites writes store address = store address := by
  induction writes generalizing store with
  | nil => rfl
  | cons write writes ih =>
    rw [applyWrites_cons, ih _ fun other ho => huntouched other (List.mem_cons_of_mem write ho)]
    exact update_of_ne (huntouched write List.mem_cons_self).symm _ _

/-- If every write to `address` carries the same contents and there is at
least one, or the address held them already, the address ends with them. -/
theorem applyWrites_constant (writes : List (Address × Content))
    (store : Address → Content) (address : Address) (content : Content)
    (hsame : ∀ write ∈ writes, write.1 = address → write.2 = content)
    (hreached : store address = content ∨ ∃ write ∈ writes, write.1 = address) :
    applyWrites writes store address = content := by
  induction writes generalizing store with
  | nil => simpa using hreached
  | cons write writes ih =>
    apply ih
    · intro other ho
      exact hsame other (List.mem_cons_of_mem write ho)
    · by_cases hhead : write.1 = address
      · left
        subst hhead
        rw [update_self]
        exact hsame write List.mem_cons_self rfl
      · rcases hreached with hstore | ⟨other, ho, haddress⟩
        · left
          rw [update_of_ne (Ne.symm hhead), hstore]
        · right
          rcases List.mem_cons.mp ho with hfst | hrest
          · subst hfst
            exact absurd haddress hhead
          · exact ⟨other, hrest, haddress⟩

/-- A property that each single write keeps survives a cut of the sequence at
any point. -/
theorem applyWrites_take_invariant (invariant : (Address → Content) → Prop)
    (writes : List (Address × Content)) (store : Address → Content)
    (hkeeps : ∀ write ∈ writes, ∀ current, invariant current →
      invariant (update current write.1 write.2)) (hstart : invariant store) (count : ℕ) :
    invariant (applyWrites (writes.take count) store) := by
  induction writes generalizing store count with
  | nil => simpa using hstart
  | cons write writes ih =>
    cases count with
    | zero => simpa using hstart
    | succ count =>
      rw [List.take_succ_cons, applyWrites_cons]
      apply ih
      · intro other ho
        exact hkeeps other (List.mem_cons_of_mem write ho)
      · exact hkeeps write List.mem_cons_self store hstart

end Xv6.WriteSequence
