import Mathlib

/-!
# Exclusive assignment of resources to positions

An allocator marks resources as used, and the positions of some data structure
hold them.  `Exact` says that the marks and the positions agree: every held
resource is marked, every marked resource is held, and no resource is held
twice.  Handing out an unmarked resource to an empty position and taking a
resource back from its position both keep the agreement.
-/

namespace Xv6.Assignment

open Function

variable {ι α : Type*} [DecidableEq ι] {used : α → Prop} {held : ι → Option α}

structure Exact (used : α → Prop) (held : ι → Option α) : Prop where
  marked : ∀ position resource, held position = some resource → used resource
  found : ∀ resource, used resource → ∃ position, held position = some resource
  unique : ∀ left right resource,
    held left = some resource → held right = some resource → left = right

namespace Exact

omit [DecidableEq ι] in
theorem congr {used' : α → Prop} {held' : ι → Option α}
    (hexact : Exact used held) (hused : ∀ resource, used' resource ↔ used resource)
    (hheld : ∀ position, held' position = held position) :
    Exact used' held' where
  marked position resource hpos :=
    (hused resource).mpr (hexact.marked position resource (hheld position ▸ hpos))
  found resource hresource := by
    obtain ⟨position, hpos⟩ := hexact.found resource ((hused resource).mp hresource)
    exact ⟨position, (hheld position).trans hpos⟩
  unique left right resource hleft hright :=
    hexact.unique left right resource (hheld left ▸ hleft) (hheld right ▸ hright)

theorem assign (hexact : Exact used held) {position : ι} {resource : α}
    (hfresh : ¬ used resource) (hnil : held position = none) :
    Exact (fun other => used other ∨ other = resource) (update held position (some resource)) where
  marked other value hvalue := by
    by_cases ho : other = position
    · subst ho
      rw [update_self, Option.some.injEq] at hvalue
      exact Or.inr hvalue.symm
    · rw [update_of_ne ho] at hvalue
      exact Or.inl (hexact.marked other value hvalue)
  found value hvalue := by
    rcases hvalue with hvalue | rfl
    · obtain ⟨other, ho⟩ := hexact.found value hvalue
      have hne : other ≠ position := by
        rintro rfl
        rw [hnil] at ho
        cases ho
      exact ⟨other, (update_of_ne hne _ _).trans ho⟩
    · exact ⟨position, update_self _ _ _⟩
  unique left right value hleft hright := by
    have hpos : ∀ other, update held position (some resource)
        other = some resource → other = position := by
      intro other ho
      by_contra hne
      rw [update_of_ne hne] at ho
      exact hfresh (hexact.marked other resource ho)
    by_cases hvalue : value = resource
    · subst hvalue
      rw [hpos left hleft, hpos right hright]
    · have hkept : ∀ other, update held position (some resource)
          other = some value → held other = some value := by
        intro other ho
        by_cases hne : other = position
        · subst hne
          rw [update_self, Option.some.injEq] at ho
          exact absurd ho.symm hvalue
        · rwa [update_of_ne hne] at ho
      exact hexact.unique left right value (hkept left hleft) (hkept right hright)

theorem release (hexact : Exact used held) {position : ι} {resource : α}
    (hheld : held position = some resource) :
    Exact (fun other => used other ∧ other ≠ resource) (update held position none) where
  marked other value hvalue := by
    have hne : other ≠ position := by
      rintro rfl
      rw [update_self] at hvalue
      cases hvalue
    rw [update_of_ne hne] at hvalue
    refine ⟨hexact.marked other value hvalue, ?_⟩
    rintro rfl
    exact hne (hexact.unique other position value hvalue hheld)
  found value hvalue := by
    obtain ⟨other, ho⟩ := hexact.found value hvalue.1
    have hne : other ≠ position := by
      rintro rfl
      rw [hheld, Option.some.injEq] at ho
      exact hvalue.2 ho.symm
    exact ⟨other, (update_of_ne hne _ _).trans ho⟩
  unique left right value hleft hright := by
    have hkept : ∀ other, update held position none other =
        some value → held other = some value := by
      intro other ho
      by_cases hne : other = position
      · subst hne
        rw [update_self] at ho
        cases ho
      · rwa [update_of_ne hne] at ho
    exact hexact.unique left right value (hkept left hleft) (hkept right hright)

end Exact

end Xv6.Assignment
