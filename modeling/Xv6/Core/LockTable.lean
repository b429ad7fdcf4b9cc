import Mathlib

/-!
# Tables of lock holders

A table gives the holder of each lock.  It agrees with what each agent believes to
hold when the two say the same; acquiring a free lock and releasing a held one
keep the agreement, and no lock has two holders.
-/

namespace Xv6.LockTable

variable {K A : Type*}

/-- The table and the agents agree on who holds what. -/
def Agrees (table : K → Option A) (holds : A → K → Prop) : Prop :=
  ∀ agent key, table key = some agent ↔ holds agent key

variable {table : K → Option A} {holds after : A → K → Prop}

theorem Agrees.unique (hagrees : Agrees table holds) {agent other : A} {key : K}
    (hagent : holds agent key) (ho : holds other key) : agent = other := by
  have hfst := (hagrees agent key).mpr hagent
  have hsnd := (hagrees other key).mpr ho
  exact Option.some.inj (hfst.symm.trans hsnd)

theorem Agrees.free (hagrees : Agrees table holds) {agent : A} {key : K}
    (hfree : table key = none) : ¬ holds agent key := by
  intro hheld
  rw [(hagrees agent key).mpr hheld] at hfree
  cases hfree

theorem Agrees.keep (hagrees : Agrees table holds) (agent : A)
    (hagent : ∀ key, after agent key ↔ holds agent key)
    (hothers : ∀ other, other ≠ agent → ∀ key, after other key ↔ holds other key) :
    Agrees table after := by
  intro other key
  rw [hagrees other key]
  by_cases ho : other = agent
  · rw [ho, hagent key]
  · rw [hothers other ho key]

variable [DecidableEq K]

theorem Agrees.acquire (hagrees : Agrees table holds) {agent : A} {key : K}
    (hfree : table key = none)
    (hagent : ∀ other, after agent other ↔ other = key ∨ holds agent other)
    (hothers : ∀ other, other ≠ agent → ∀ key, after other key ↔ holds other key) :
    Agrees (Function.update table key (some agent)) after := by
  intro holder other
  by_cases hholder : holder = agent
  · subst hholder
    rw [hagent other]
    by_cases ho : other = key
    · simp [ho]
    · simp [ho, hagrees holder other]
  · rw [hothers holder hholder other]
    by_cases ho : other = key
    · subst ho
      simp [hagrees.free hfree, Ne.symm hholder]
    · simp [ho, hagrees holder other]

theorem Agrees.release (hagrees : Agrees table holds) {agent : A} {key : K}
    (hheld : holds agent key)
    (hagent : ∀ other, after agent other ↔ other ≠ key ∧ holds agent other)
    (hothers : ∀ other, other ≠ agent → ∀ key, after other key ↔ holds other key) :
    Agrees (Function.update table key none) after := by
  intro holder other
  by_cases ho : other = key
  · subst ho
    by_cases hholder : holder = agent
    · simp [hholder, hagent other]
    · have hfree : ¬ holds holder other := fun hholds => hholder (hagrees.unique hholds hheld)
      simp [hothers holder hholder other, hfree]
  · rw [Function.update_of_ne ho, hagrees holder other]
    by_cases hholder : holder = agent
    · simp [hholder, hagent other, ho]
    · rw [hothers holder hholder other]

end Xv6.LockTable
