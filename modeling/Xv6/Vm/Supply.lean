import Xv6.Vm.AddressSpace

/-!
# Enough free pages

An upper bound for the pages that a mapping takes from the free list: at most two tables
below the root.  With that many pages left the allocations of `uvmalloc` succeed.
-/

namespace Xv6.Supply

open Riscv Kalloc PageTable Mapping UserMemory Ownership AddressSpace Outcome

variable {memory after : Memory} {pagetable va pa : ℕ} {perm : Pte} {mapped : Bool}

theorem walkLevels_supply (va : ℕ) (alloc : Bool) (levels : List ℕ) (memory : Memory) (table : ℕ) :
    memory.freelist.length ≤
      (walkLevels va alloc levels memory table).2.freelist.length + levels.length := by
  induction levels generalizing memory table with
  | nil => exact le_refl _
  | cons level levels ih =>
    rw [walkLevels, List.length_cons]
    split
    next =>
      have hrest := ih memory (PTE2PA (readPte memory table (PX level va)))
      omega
    next =>
      split
      next =>
        cases hkal : kalloc memory with
        | mk result popped =>
          cases result with
          | none =>
            obtain ⟨rfl, -⟩ := kalloc_none hkal
            exact Nat.le_add_right _ _
          | some page =>
            have hpopped := congrArg List.length (kalloc_some hkal).1
            rw [List.length_cons] at hpopped
            have hrest := ih (writePte (fillPage popped page 0) table (PX level va)
              (PA2PTE page ||| PTE_V)) page
            have hsame : (writePte (fillPage popped page 0) table (PX level va)
                (PA2PTE page ||| PTE_V)).freelist = popped.freelist := rfl
            rw [hsame] at hrest
            dsimp only
            omega
      next => exact Nat.le_add_right _ _

theorem mappagesPage_supply
    (hmap : mappagesPage memory pagetable va pa perm = .ok (mapped, after)) :
    memory.freelist.length ≤ after.freelist.length + 2 := by
  have hwalk := walkLevels_supply va true [2, 1] memory pagetable
  by_cases hva : MAXVA ≤ va
  · rw [mappagesPage, walk, if_pos hva] at hmap
    cases hmap
  rw [mappagesPage, walk, if_neg hva] at hmap
  cases hlevels : walkLevels va true [2, 1] memory pagetable with
  | mk table next =>
    rw [hlevels] at hmap hwalk
    cases table with
    | none =>
      cases hmap
      exact hwalk
    | some low =>
      simp only [ok_bind, Option.map_some] at hmap
      split at hmap
      next => cases hmap
      next =>
        cases hmap
        exact hwalk

theorem mappages_succeeds (hsound : WellFormed memory pagetable) (hva : va < MAXVA)
    (halign : va % PGSIZE = 0) (hnone : lookup memory pagetable va = none)
    (hfree : 2 < memory.freelist.length)
    (hmap : mappages memory pagetable va PGSIZE pa perm = .ok (mapped, after)) :
    mapped = true ∧ memory.freelist.length ≤ after.freelist.length + 2 := by
  obtain ⟨mapped', after', taken, hmap', -, hnil, -⟩ :=
    mappages_single hsound hva halign hnone pa perm
  rw [hmap, Except.ok.injEq, Prod.mk.injEq] at hmap'
  obtain ⟨rfl, rfl⟩ := hmap'
  rw [mappages_eq_page hva halign] at hmap
  have hsupply := mappagesPage_supply hmap
  cases mapped with
  | true => exact ⟨rfl, hsupply⟩
  | false =>
    rw [hnil rfl, List.length_nil] at hsupply
    omega

/-- A page and its mapping take at most three pages, and fail only when there are not more. -/
theorem map_fresh_supply {popped filled : Memory} {mem : ℕ} {hand : Multiset ℕ}
    (hsound : Sound memory pagetable hand) (hkal : kalloc memory = (some mem, popped))
    (hfill : Rewritten popped filled mem) (hva : va < TRAPFRAME) (halign : va % PGSIZE = 0)
    (hnone : lookup memory pagetable va = none)
    (hmap : mappages filled pagetable va PGSIZE mem perm = .ok (mapped, after)) :
    (mapped = false → memory.freelist.length ≤ 3) ∧
      memory.freelist.length ≤ after.freelist.length + 3 := by
  obtain ⟨hcons, hlook⟩ := conserves_kalloc hsound hkal
  obtain ⟨htouched, hlook'⟩ := conserves_touch (hcons.sound hsound)
    (Multiset.mem_cons_self mem hand) hfill.kernelEnd hfill.freelist hfill.frame
  have hwell := (htouched.sound (hcons.sound hsound)).wellFormed
  have hmax : va < MAXVA := lt_trans hva (by decide)
  have hpopped := congrArg List.length (kalloc_some hkal).1
  rw [List.length_cons] at hpopped
  have hsupply := mappagesPage_supply ((mappages_eq_page hmax halign mem perm).symm.trans hmap)
  rw [hfill.freelist] at hsupply
  refine ⟨fun hfalse => ?_, by omega⟩
  by_contra hmany
  rw [(mappages_succeeds hwell hmax halign (by rw [hlook', hlook, hnone])
    (by rw [hfill.freelist]; omega) hmap).1] at hfalse
  cases hfalse

/-- The loop of `uvmalloc` takes at most three pages for each of its iterations. -/
theorem uvmallocLoop_succeeds {base page : ℕ} {hand : Multiset ℕ} (count : ℕ)
    (hsound : Sound memory pagetable hand) (hfill : Filled memory pagetable page)
    (hfree : 3 * count < memory.freelist.length) :
    ∃ after, uvmallocLoop pagetable (base * PGSIZE) count memory (page * PGSIZE) =
      .ok (true, after) ∧
      memory.freelist.length ≤ after.freelist.length + 3 * count := by
  induction count generalizing memory page with
  | zero => exact ⟨memory, rfl, Nat.le_add_right _ _⟩
  | succ count ih =>
    have huser := filled_lt_TRAPFRAME hfill hsound
    have hva := page_lt_TRAPFRAME huser
    have halign := Nat.mul_mod_left page PGSIZE
    have hnone := hfill.absent page (le_refl page) huser
    cases hkal : kalloc memory with
    | mk result popped =>
      cases result with
      | none =>
        obtain ⟨-, hnil⟩ := kalloc_none hkal
        rw [hnil] at hfree
        exact absurd hfree (Nat.not_lt_zero _)
      | some mem =>
        have hrewritten := rewritten_fillPage popped mem 0
        obtain ⟨mapped, next, hmap, htrue, -⟩ := map_fresh hsound hkal hrewritten
          hva halign hnone (by decide : IsPerm PTE_USER)
        obtain ⟨hfalse, hnext⟩ := map_fresh_supply hsound hkal hrewritten hva halign hnone hmap
        obtain rfl : mapped = true := Bool.eq_true_of_not_eq_false fun h => by
          have := hfalse h
          omega
        obtain ⟨hgrown, hmaps⟩ := htrue rfl
        have hfilled' := filled_map hfill hmaps huser (PTE_FLAGS_user mem)
        obtain ⟨after, hloop, hafter⟩ := ih (hgrown.sound hsound) hfilled' (by omega)
        refine ⟨after, ?_, by omega⟩
        rw [Nat.add_mul, one_mul] at hloop
        simp only [uvmallocLoop, hkal, hmap, ok_bind, if_true]
        exact hloop

theorem uvmalloc_succeeds {oldsz newsz : ℕ} {hand : Multiset ℕ}
    (hsound : Sound memory pagetable hand)
    (hfill : Filled memory pagetable (pageCount oldsz)) (hle : oldsz ≤ newsz)
    (hfree : 3 * (pageCount newsz - pageCount oldsz) < memory.freelist.length) :
    ∃ after, uvmalloc memory pagetable oldsz newsz = .ok (newsz, after) ∧ memory.freelist.length ≤
        after.freelist.length + 3 * (pageCount newsz - pageCount oldsz) := by
  have hround := PGROUNDUP_eq hfill.bound
  have hsteps : pageSteps (pageCount oldsz * PGSIZE) newsz = pageCount newsz - pageCount oldsz := by
    simp only [pageCount, pageSteps, PGSIZE_eq]
    omega
  rw [← hsteps] at hfree ⊢
  obtain ⟨after, hloop, hafter⟩ := @uvmallocLoop_succeeds memory pagetable
    (pageCount oldsz) (pageCount oldsz) hand _ hsound hfill hfree
  refine ⟨after, ?_, hafter⟩
  rw [uvmalloc, if_neg (not_lt.mpr hle), hround]
  simp only [hloop, ok_bind, if_true, pure_eq_ok]

end Xv6.Supply
