import Xv6.Vm.AddressSpace

/-!
# Resizing user memory

`uvmalloc` and `uvmdealloc` move the end of user memory to a size that need not be
page aligned.  The pages below the end keep their bytes, the new pages are zero, and a
call that runs out of memory leaves the address space as it was.
-/

namespace Xv6.Resize

open Riscv Kalloc PageTable PageMap Mapping UserMemory Ownership AddressSpace

/-- What a successful `uvmalloc` leaves. -/
structure Enlarged (before after : Memory) (pagetable oldsz newsz : ℕ) : Prop where
  mapped : Filled after pagetable (pageCount (max oldsz newsz))
  kept : KeepsData before after pagetable (pageCount oldsz)
  fresh : ZeroPages after pagetable (pageCount oldsz) (pageCount (max oldsz newsz))

/-- User memory is as before.  Page-table pages may have been added; no other page
left the free list. -/
structure Restored (before after : Memory) (pagetable oldsz : ℕ) : Prop where
  mapped : Filled after pagetable (pageCount oldsz)
  kept : KeepsData before after pagetable (pageCount oldsz)
  returned : tablePages after pagetable + (after.freelist : Multiset ℕ) =
    tablePages before pagetable + (before.freelist : Multiset ℕ)

/-- What `uvmdealloc` leaves. -/
structure Reduced (before after : Memory) (pagetable oldsz newsz : ℕ) : Prop where
  mapped : Filled after pagetable (pageCount (min oldsz newsz))
  kept : KeepsData before after pagetable (pageCount (min oldsz newsz))
  tables : tablePages after pagetable = tablePages before pagetable
  freed : (after.freelist : Multiset ℕ) = (leafPages before pagetable (pageCount (min oldsz newsz))
      (pageCount oldsz - pageCount (min oldsz newsz)) : Multiset ℕ) + (before.freelist : Multiset ℕ)

section
variable {memory after : Memory} {pagetable oldsz : ℕ} {hand : Multiset ℕ}

/-- Two address spaces with the same first pages and nothing above them have the same
leaves, so what one of them lacks is in its page table or free. -/
theorem restored_of_conserves (hcons : Conserves memory after pagetable hand hand)
    (hbefore : Filled memory pagetable (pageCount oldsz))
    (hafter : Filled after pagetable (pageCount oldsz))
    (hkept : KeepsData memory after pagetable (pageCount oldsz)) :
    Restored memory after pagetable oldsz := by
  refine ⟨hafter, hkept, ?_⟩
  have hleaves : userLeaves after pagetable = userLeaves memory pagetable := by
    apply userLeaves_congr
    intro page huser
    by_cases hpage : page < pageCount oldsz
    · exact (hkept page hpage).1
    · rw [hafter.absent page (by omega) huser, hbefore.absent page (by omega) huser]
  have hpages := add_left_cancel hcons.pages
  rw [holdings, holdings, hleaves, add_right_comm, add_right_comm _ (userLeaves _ _)] at hpages
  exact add_right_cancel hpages

theorem uvmdealloc_reduces (hsound : Sound memory pagetable hand)
    (hfill : Filled memory pagetable (pageCount oldsz)) (newsz : ℕ) :
    ∃ after, uvmdealloc memory pagetable oldsz newsz = .ok (min oldsz newsz, after) ∧
      Reduced memory after pagetable oldsz newsz := by
  obtain ⟨after, hdealloc, -, -, hmapped, hkept, htables, hfreed⟩ :=
    uvmdealloc_spec hsound hfill newsz
  exact ⟨after, hdealloc, hmapped, hkept, htables, hfreed⟩

theorem uvmalloc_enlarges (hsound : Sound memory pagetable hand)
    (hfill : Filled memory pagetable (pageCount oldsz)) (newsz : ℕ) :
    ∃ result after, uvmalloc memory pagetable oldsz newsz = .ok (result, after) ∧
      Conserves memory after pagetable hand hand ∧
      (result = max oldsz newsz ∧ Enlarged memory after pagetable oldsz newsz ∨
        result = 0 ∧ Restored memory after pagetable oldsz) := by
  obtain ⟨result, after, halloc, hcons, -, hkept, hres⟩ := uvmalloc_spec hsound hfill newsz
  refine ⟨result, after, halloc, hcons, ?_⟩
  rcases hres with ⟨hzero, hmapped⟩ | ⟨hmax, hmapped, -, hfresh⟩
  · exact Or.inr ⟨hzero, restored_of_conserves hcons hfill hmapped hkept⟩
  · exact Or.inl ⟨hmax, hmapped, hkept, hfresh⟩

theorem uvmdealloc_undoes (hsound : Sound memory pagetable hand)
    (hfill : Filled memory pagetable (pageCount oldsz)) {newsz : ℕ}
    (hcons : Conserves memory after pagetable hand hand)
    (henlarged : Enlarged memory after pagetable oldsz newsz) :
    ∃ undone, uvmdealloc after pagetable (max oldsz newsz) oldsz = .ok (oldsz, undone) ∧
      Restored memory undone pagetable oldsz := by
  obtain ⟨undone, hdealloc, hconserves', -, hmapped, hkept, -⟩ :=
    uvmdealloc_spec (hcons.sound hsound) henlarged.mapped oldsz
  rw [min_eq_right (le_max_left oldsz newsz)] at hdealloc hmapped hkept
  exact ⟨undone, hdealloc, restored_of_conserves (hcons.trans hconserves')
    hfill hmapped (henlarged.kept.trans hkept)⟩

/-- For every old and new size and every state of the free list, `uvmalloc` grows user
memory to the new size or leaves it as it was, `uvmdealloc` cuts it to the new size, and
`uvmdealloc` after `uvmalloc` gives the old memory back. -/
theorem resize_exact (hsound : Sound memory pagetable hand)
    (hfilled : Filled memory pagetable (pageCount oldsz)) (newsz : ℕ) :
    (∃ result after, uvmalloc memory pagetable oldsz newsz = .ok (result, after) ∧
      (result = max oldsz newsz ∧ Enlarged memory after pagetable oldsz newsz ∧
          (∃ undone, uvmdealloc after pagetable (max oldsz newsz) oldsz =
            .ok (oldsz, undone) ∧ Restored memory undone pagetable oldsz) ∨
        result = 0 ∧ Restored memory after pagetable oldsz)) ∧
    ∃ after, uvmdealloc memory pagetable oldsz newsz = .ok (min oldsz newsz, after) ∧
      Reduced memory after pagetable oldsz newsz := by
  refine ⟨?_, uvmdealloc_reduces hsound hfilled newsz⟩
  obtain ⟨result, after, halloc, hconserves, hresult⟩ :=
    uvmalloc_enlarges hsound hfilled newsz
  refine ⟨result, after, halloc, ?_⟩
  rcases hresult with ⟨hmax, henlarged⟩ | hfailed
  · exact Or.inl ⟨hmax, henlarged, uvmdealloc_undoes hsound hfilled hconserves henlarged⟩
  · exact Or.inr hfailed

end

/-- Growing from nothing to one byte with three free pages: the page needs two
page-table pages, so this allocation is the last that succeeds. -/
theorem resize_exact_blank : ∃ after, uvmalloc blankMemory KERNBASE 0 1 = .ok (1, after) ∧
      Enlarged blankMemory after KERNBASE 0 1 := by
  have hfilled : Filled blankMemory KERNBASE (pageCount 0) :=
    ⟨Nat.zero_le _, fun page hpage => absurd hpage (Nat.not_lt_zero page),
      fun page _ _ => lookup_zeroed (readPte_blankMemory KERNBASE) _⟩
  have hone : (uvmalloc blankMemory KERNBASE 0 1).map Prod.fst = .ok 1 := by
    decide +kernel
  obtain ⟨⟨result, after, halloc, hresult⟩, -⟩ :=
    resize_exact sound_blankMemory hfilled 1
  rw [halloc] at hone
  have hresult' : result = 1 := Except.ok.inj hone
  subst hresult'
  rcases hresult with ⟨-, henlarged, -⟩ | ⟨hzero, -⟩
  · exact ⟨after, halloc, henlarged⟩
  · exact absurd hzero one_ne_zero

end Xv6.Resize
