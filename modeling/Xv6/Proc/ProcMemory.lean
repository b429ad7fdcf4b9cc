import Xv6.Vm.Supply

/-!
# Page tables of processes

The model of `proc_pagetable` and `proc_freepagetable` of `kernel/proc.c`.  A
process owns the pages of its address space; what the functions do with pages
is stated as an exchange with the free list, which composes over several
address spaces.
-/

namespace Xv6.ProcMemory

open Riscv Kalloc PageTable PageMap Mapping UserMemory Ownership TearDown AddressSpace Supply
open Outcome

variable {before after memory : Memory} {pagetable va sz : ℕ}

/-- `proc_pagetable`; `trampoline` is the page of `trampoline.S`. -/
def procPagetable (memory : Memory) (trampoline trapframe : ℕ) : Except Panic (Option ℕ × Memory) :=
  match uvmcreate memory with
  | (none, memory) => return (none, memory)
  | (some pagetable, memory) => do
    let (mapped, memory) ← mappages memory pagetable TRAMPOLINE PGSIZE trampoline (PTE_R ||| PTE_X)
    if mapped = false then
      let memory ← uvmfree memory pagetable 0
      return (none, memory)
    let (mapped, memory) ← mappages memory pagetable TRAPFRAME PGSIZE trapframe (PTE_R ||| PTE_W)
    if mapped = false then
      let memory ← uvmunmap memory pagetable TRAMPOLINE 1 false
      let memory ← uvmfree memory pagetable 0
      return (none, memory)
    return (some pagetable, memory)

def procFreepagetable (memory : Memory) (pagetable sz : ℕ) :
    Except Panic Memory := do
  let memory ← uvmunmap memory pagetable TRAMPOLINE 1 false
  let memory ← uvmunmap memory pagetable TRAPFRAME 1 false
  uvmfree memory pagetable sz

/-! ## Exchanges with the free list -/

def spacePages (memory : Memory) (pagetable : ℕ) : Multiset ℕ :=
  tablePages memory pagetable + userLeaves memory pagetable

theorem holdings_eq (memory : Memory) (pagetable : ℕ) :
    holdings memory pagetable = spacePages memory pagetable + (memory.freelist : Multiset ℕ) := rfl

/-- The owners of `given` work with these and the free pages, and end up with
`taken`; no other page is written. -/
structure Exchange (before after : Memory) (given taken : Multiset ℕ) :
    Prop where
  kernelEnd : after.kernelEnd = before.kernelEnd
  pages : taken + (after.freelist : Multiset ℕ) = given + (before.freelist : Multiset ℕ)
  frame : ∀ pa, pa ∉ given + (before.freelist : Multiset ℕ) → after.page pa = before.page pa

theorem Exchange.refl (memory : Memory) (given : Multiset ℕ) : Exchange memory memory given given :=
  ⟨rfl, rfl, fun _ _ => rfl⟩

theorem Exchange.trans {first second third : Memory} {given middle taken : Multiset ℕ}
    (hfst : Exchange first second given middle) (hsnd : Exchange second third middle taken) :
    Exchange first third given taken := by
  constructor
  · rw [hsnd.kernelEnd, hfst.kernelEnd]
  · rw [hsnd.pages, hfst.pages]
  · intro pa hpa
    have hpa' : pa ∉ middle + (second.freelist : Multiset ℕ) := by
      rw [hfst.pages]
      exact hpa
    rw [hsnd.frame pa hpa', hfst.frame pa hpa]

theorem conserves_exchange {hand kept : Multiset ℕ}
    (hcons : Conserves before after pagetable hand kept) :
    Exchange before after (hand + spacePages before pagetable)
      (kept + spacePages after pagetable) := by
  refine ⟨hcons.kernelEnd, ?_, ?_⟩
  · rw [add_assoc, add_assoc, ← holdings_eq, ← holdings_eq, hcons.pages]
  · intro pa hpa
    apply hcons.frame
    rwa [holdings_eq, ← add_assoc]

theorem released_exchange (hrel : Released before after pagetable) :
    Exchange before after (spacePages before pagetable) 0 := by
  refine ⟨hrel.kernelEnd, ?_, ?_⟩
  · rw [zero_add, hrel.freelist, holdings_eq]
  · exact hrel.frame

/-! ## The address space of a process -/

/-- The address space of a process: `sz` bytes of user memory, the trap frame
and the trampoline, and nothing else. -/
structure ProcessSpace (memory : Memory)
    (trampoline pagetable trapframe sz : ℕ) : Prop where
  interior : InteriorPlain memory pagetable
  upper : UpperUnused memory pagetable
  filled : Filled memory pagetable (pageCount sz)
  trampoline : lookup memory pagetable TRAMPOLINE = some (leafPte trampoline (PTE_R ||| PTE_X))
  trapframe : lookup memory pagetable TRAPFRAME = some (leafPte trapframe (PTE_R ||| PTE_W))

theorem TRAPFRAME_page : TRAPFRAME = userPages * PGSIZE := by
  rw [userPages_eq]
  decide

theorem TRAMPOLINE_page : TRAMPOLINE = (userPages + 1) * PGSIZE := by
  rw [userPages_eq]
  decide

theorem userPages_add_two : userPages + 2 = MAXVA / PGSIZE := by
  rw [userPages_eq]
  decide

theorem lookup_above (hva : userPages + 2 ≤ va / PGSIZE) :
    lookup memory pagetable va = none := by
  apply lookup_of_le
  rw [userPages_eq] at hva
  simp only [PGSIZE_eq, MAXVA_eq] at *
  omega

theorem present_leaf {pa : ℕ} {perm : Pte}
    (hsome : lookup memory pagetable va = some (leafPte pa perm))
    (hperm : IsPerm perm) (hleaf : perm ||| PTE_V ≠ PTE_V) : Present memory pagetable va := by
  refine ⟨_, hsome, ?_⟩
  rw [PTE_FLAGS_leafPte pa hperm]
  exact hleaf

/-- Unmapping the trampoline or the trap frame, on the way to freeing the page
table. -/
theorem uvmunmap_high {page : ℕ}
    (hsound : Sound memory pagetable 0) (hlow : userPages ≤ page) (hhigh : page < userPages + 2)
    (hpres : Present memory pagetable (page * PGSIZE)) :
    ∃ after, uvmunmap memory pagetable (page * PGSIZE) 1 false = .ok after ∧
      Conserves memory after pagetable 0 0 ∧ UnmapsPages memory after pagetable page 1 := by
  obtain ⟨after, hunmap, hunmaps, hcons⟩ := conserves_uvmunmap_high hsound
    hlow (userPages_add_two ▸ hhigh) hpres
  exact ⟨after, hunmap, hcons, hunmaps⟩

theorem uvmfree_low (hsound : Sound memory pagetable 0)
    (hfill : Filled memory pagetable (pageCount sz))
    (htrapframe : lookup memory pagetable TRAPFRAME = none)
    (htrampoline : lookup memory pagetable TRAMPOLINE = none) :
    ∃ after, uvmfree memory pagetable sz = .ok after ∧ Released memory after pagetable := by
  apply uvmfree_spec hsound hfill
  intro va hva
  by_cases habove : userPages + 2 ≤ va / PGSIZE
  · exact lookup_above habove
  · rw [← lookup_round, PGROUNDDOWN]
    by_cases hfst : va / PGSIZE = userPages
    · rw [hfst, ← TRAPFRAME_page, htrapframe]
    · have hsnd : va / PGSIZE = userPages + 1 := by omega
      rw [hsnd, ← TRAMPOLINE_page, htrampoline]

theorem procFreepagetable_spec {trampoline trapframe : ℕ} (hsound : Sound memory pagetable 0)
    (hspace : ProcessSpace memory trampoline pagetable trapframe sz) :
    ∃ after, procFreepagetable memory pagetable sz = .ok after ∧
      Released memory after pagetable := by
  have htrampoline := hspace.trampoline
  have htrapframe := hspace.trapframe
  rw [TRAMPOLINE_page] at htrampoline
  rw [TRAPFRAME_page] at htrapframe
  obtain ⟨first, hunmap, hcons, hunmaps⟩ := uvmunmap_high hsound
    (Nat.le_succ userPages) (by omega)
    (present_leaf htrampoline (by decide) (by decide))
  have htrapframe' : lookup first pagetable (userPages * PGSIZE) =
      some (leafPte trapframe (PTE_R ||| PTE_W)) := by
    rw [hunmaps, page_mul_div, if_neg (by omega), htrapframe]
  obtain ⟨second, hunmap', hconserves', hunmaps'⟩ := uvmunmap_high
    (hcons.sound hsound) (le_refl userPages) (by omega)
    (present_leaf htrapframe' (by decide) (by decide))
  have hboth := hcons.trans hconserves'
  have hfill : Filled second pagetable (pageCount sz) := by
    apply hspace.filled.congr
    intro page hpage
    rw [hunmaps', page_mul_div, if_neg (by omega), hunmaps, page_mul_div, if_neg (by omega)]
  obtain ⟨after, hfree, hrel⟩ := uvmfree_low (hboth.sound hsound) hfill
    (by rw [TRAPFRAME_page, hunmaps', page_mul_div, if_pos (by omega)])
    (by
      rw [TRAMPOLINE_page, hunmaps', page_mul_div, if_neg (by omega), hunmaps,
        page_mul_div, if_pos (by omega)])
  refine ⟨after, ?_, conserves_released hboth hrel⟩
  rw [procFreepagetable, TRAMPOLINE_page, hunmap, ok_bind, TRAPFRAME_page, hunmap', ok_bind, hfree]

/-- Distinct free pages of the allocator: all that the creation of an address
space needs. -/
structure FreeSound (memory : Memory) : Prop where
  distinct : memory.freelist.Nodup
  managed : ∀ pa ∈ memory.freelist, Managed memory pa

theorem filled_zero (hnone : ∀ page < userPages,
    lookup memory pagetable (page * PGSIZE) = none) : Filled memory pagetable (pageCount 0) := by
  refine ⟨Nat.zero_le _, ?_, fun page _ hpage => hnone page hpage⟩
  intro page hpage
  exact absurd hpage (Nat.not_lt_zero page)

/-- `proc_pagetable` builds an address space without user memory from free
pages, or returns all of them. -/
theorem procPagetable_spec (hfree : FreeSound memory) (trampoline trapframe : ℕ) :
    ∃ result after, procPagetable memory trampoline trapframe = .ok (result, after) ∧
      (result = none → Exchange memory after 0 0) ∧
      ∀ pagetable, result = some pagetable → Exchange memory after 0 (spacePages after pagetable) ∧
        Sound after pagetable 0 ∧ ProcessSpace after trampoline pagetable trapframe 0 := by
  have hcreate := @uvmcreate_spec memory 0
    (by simpa using hfree.distinct) (by simpa using hfree.managed)
  rcases hcreate with ⟨hnone, -⟩ | ⟨pagetable, empty, hsome, hend, hholdings, hframe, hsound, hlook⟩
  · refine ⟨none, memory, ?_, fun _ => Exchange.refl memory 0, by simp⟩
    rw [procPagetable, hnone]
    rfl
  · -- Whatever happens to the new address space, it started as free pages.
    have hstart : Exchange memory empty 0 (spacePages empty pagetable) := by
      refine ⟨hend, ?_, ?_⟩
      · rw [zero_add, ← holdings_eq, hholdings]
      · intro pa hpa
        exact hframe pa (by simpa using hpa)
    have hdrop : ∀ {middle final : Memory}, Conserves empty middle pagetable 0 0 →
        Released middle final pagetable → Exchange memory final 0 0 := by
      intro middle final hcons hrel
      exact hstart.trans (released_exchange (conserves_released hcons hrel))
    obtain ⟨mapped, first, hmap, -, hmaps, hcons⟩ :=
      conserves_mappages_high hsound (by decide : TRAPFRAME ≤ TRAMPOLINE)
        (by decide) (by decide) (hlook TRAMPOLINE) trampoline
        (PTE_R ||| PTE_X)
    have hsound₁ := hcons.sound hsound
    cases mapped with
    | false =>
      have hlookup₁ : ∀ va, lookup first pagetable va = none := by
        intro va
        rw [hmaps, if_neg (by simp), hlook]
      obtain ⟨final, hfinal, hrel⟩ := uvmfree_low hsound₁
        (filled_zero fun page _ => hlookup₁ (page * PGSIZE))
        (hlookup₁ TRAPFRAME) (hlookup₁ TRAMPOLINE)
      refine ⟨none, final, ?_, fun _ => hdrop hcons hrel, by simp⟩
      simp only [procPagetable, hsome, hmap, ok_bind, if_true, hfinal, pure_eq_ok]
    | true =>
      have hlookup₁ : ∀ va, lookup first pagetable va =
          if va / PGSIZE = userPages + 1 then
            some (leafPte trampoline (PTE_R ||| PTE_X)) else none := by
        intro va
        rw [hmaps.single, TRAMPOLINE_page, page_mul_div, hlook]
      have hnone : lookup first pagetable TRAPFRAME = none := by
        rw [hlookup₁, TRAPFRAME_page, page_mul_div, if_neg (by omega)]
      obtain ⟨mapped, second, hmap', -, hmaps', hconserves'⟩ :=
        conserves_mappages_high hsound₁ (le_refl TRAPFRAME) (by decide)
          (by decide) hnone trapframe (PTE_R ||| PTE_W)
      have hboth := hcons.trans hconserves'
      have hsound₂ := hboth.sound hsound
      cases mapped with
      | false =>
        have hlookup₂ : ∀ va, lookup second pagetable va =
            lookup first pagetable va := by
          intro va
          rw [hmaps', if_neg (by simp)]
        have hpres : Present second pagetable ((userPages + 1) * PGSIZE) := by
          have hleaf : lookup second pagetable ((userPages + 1) * PGSIZE) =
              some (leafPte trampoline (PTE_R ||| PTE_X)) := by
            rw [hlookup₂, hlookup₁, page_mul_div, if_pos rfl]
          exact present_leaf hleaf (by decide) (by decide)
        obtain ⟨third, hunmap, hconserves'', hunmaps⟩ := uvmunmap_high
          hsound₂ (Nat.le_succ userPages) (by omega) hpres
        have hlookup₃ : ∀ va, lookup third pagetable va = none := by
          intro va
          rw [hunmaps, hlookup₂, hlookup₁]
          by_cases hpage : va / PGSIZE = userPages + 1
          · rw [if_pos (by omega)]
          · rw [if_neg (by omega), if_neg hpage]
        have hall := hboth.trans hconserves''
        obtain ⟨final, hfinal, hrel⟩ := uvmfree_low (hall.sound hsound)
          (filled_zero fun page _ => hlookup₃ (page * PGSIZE))
          (hlookup₃ TRAPFRAME) (hlookup₃ TRAMPOLINE)
        refine ⟨none, final, ?_, fun _ => hdrop hall hrel, by simp⟩
        rw [← TRAMPOLINE_page] at hunmap
        simp only [procPagetable, hsome, hmap, hmap', ok_bind, if_true, hunmap, hfinal, pure_eq_ok]
        rfl
      | true =>
        have hlookup₂ : ∀ va, lookup second pagetable va =
            if va / PGSIZE = userPages then
              some (leafPte trapframe (PTE_R ||| PTE_W))
            else lookup first pagetable va := by
          intro va
          rw [hmaps'.single, TRAPFRAME_page, page_mul_div]
        refine ⟨some pagetable, second, ?_, by simp, ?_⟩
        · simp only [procPagetable, hsome, hmap, hmap', ok_bind, pure_eq_ok]
          rfl
        · rintro found hf
          obtain rfl : pagetable = found := by simpa using hf
          refine ⟨hstart.trans ?_, hsound₂, hsound₂.interior, hsound₂.upper, ?_, ?_, ?_⟩
          · simpa using conserves_exchange hboth
          · apply filled_zero
            intro page hpage
            rw [hlookup₂, hlookup₁, page_mul_div, if_neg (by omega), if_neg (by omega)]
          · rw [hlookup₂, hlookup₁, TRAMPOLINE_page, page_mul_div, if_neg (by omega), if_pos rfl]
          · rw [hlookup₂, TRAPFRAME_page, page_mul_div, if_pos rfl]

/-- With six free pages `proc_pagetable` succeeds. -/
theorem procPagetable_succeeds (hsound : FreeSound memory)
    (hfree : 5 < memory.freelist.length) (trampoline trapframe : ℕ) :
    ∃ pagetable after, procPagetable memory trampoline trapframe = .ok (some pagetable, after) ∧
      memory.freelist.length ≤ after.freelist.length + 5 := by
  have hcreate := @uvmcreate_spec memory 0
    (by simpa using hsound.distinct) (by simpa using hsound.managed)
  rcases hcreate with ⟨-, hnil⟩ | ⟨pagetable, empty, hsome, -, -, -, hnil, hlook⟩
  · rw [hnil] at hfree
    exact absurd hfree (Nat.not_lt_zero _)
  have hpopped : memory.freelist.length = empty.freelist.length + 1 := by
    rw [uvmcreate] at hsome
    cases hkal : kalloc memory with
    | mk result popped =>
      rw [hkal] at hsome
      cases result with
      | none => cases hsome
      | some page =>
        cases hsome
        exact congrArg List.length (kalloc_some hkal).1
  obtain ⟨mapped, first, hmap, -, hmaps, hcons⟩ :=
    conserves_mappages_high hnil (by decide : TRAPFRAME ≤ TRAMPOLINE) (by decide)
      (by decide) (hlook TRAMPOLINE) trampoline (PTE_R ||| PTE_X)
  obtain ⟨rfl, hfst⟩ := mappages_succeeds hnil.wellFormed (by decide) (by decide)
    (hlook TRAMPOLINE) (by omega) hmap
  have hsound₁ := hcons.sound hnil
  have hnone : lookup first pagetable TRAPFRAME = none := by
    rw [hmaps.single, TRAMPOLINE_page, TRAPFRAME_page, page_mul_div, page_mul_div,
      if_neg (by omega), hlook]
  obtain ⟨mapped, second, hmap', -⟩ :=
    conserves_mappages_high hsound₁ (le_refl TRAPFRAME) (by decide) (by decide) hnone
      trapframe (PTE_R ||| PTE_W)
  obtain ⟨rfl, hsnd⟩ := mappages_succeeds hsound₁.wellFormed (by decide) (by decide)
    hnone (by omega) hmap'
  refine ⟨pagetable, second, ?_, by omega⟩
  simp only [procPagetable, hsome, hmap, hmap', ok_bind, Bool.true_eq_false, if_false, pure_eq_ok]

end Xv6.ProcMemory
