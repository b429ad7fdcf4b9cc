import Xv6.Vm.Supply

/-!
# Copying an address space

`uvmcopy` of `kernel/vm.c`, as `fork` calls it: the child has an empty address space
of its own, and the parent's page table and pages are not among what the child and the
allocator hold.  Every page is copied to a page that was free, or nothing is left of
the copy.
-/

namespace Xv6.Copying

open Outcome Riscv Kalloc PageTable PageMap Mapping Ownership UserMemory AddressSpace Supply
open List Option

variable {memory popped : Memory} {pagetable va page mem total pa table : ℕ} {pte : Pte}
  {index : Fin 512}

theorem walk_of_lookup (hsome : lookup memory pagetable va = some pte) :
    ∃ ref, walk memory pagetable va false = .ok (some ref, memory) ∧
      loadPte memory ref = pte ∧ hasFlag pte PTE_V = true := by
  obtain ⟨low, hlow, hread, hval⟩ := lookup_eq_some hsome
  exact ⟨(low, PX 0 va), walk_present false (lookup_lt hsome) hlow, hread, hval⟩

/-! ## Two address spaces -/

/-- The page table `old` and its first `count` pages lie outside what the copy into
`new` works with. -/
structure Apart (memory : Memory) (old new count : ℕ) (hand : Multiset ℕ) : Prop where
  tables : ∀ pa ∈ tablePages memory old, pa ∉ hand + holdings memory new
  data : ∀ page < count, ∀ pte, lookup memory old (page * PGSIZE) = some pte →
    PTE2PA pte ∉ hand + holdings memory new

section
variable {before after : Memory} {old new count : ℕ} {hand : Multiset ℕ}

theorem Apart.lookup (hapart : Apart before old new count hand)
    (hcons : Conserves before after new hand hand) (va : ℕ) :
    lookup after old va = lookup before old va :=
  lookup_congr (fun pa hpa => hcons.frame pa (hapart.tables pa hpa)) va

theorem Apart.keepsData (hapart : Apart before old new count hand)
    (hcons : Conserves before after new hand hand) : KeepsData before after old count := by
  intro page hpage
  constructor
  · exact hapart.lookup hcons _
  · intro pte hsome
    exact hcons.frame _ (hapart.data page hpage pte hsome)

theorem Apart.step (hapart : Apart before old new count hand)
    (hcons : Conserves before after new hand hand) : Apart after old new count hand := by
  constructor
  · intro pa hpa
    rw [tablePages_congr fun pa hpa => hcons.frame pa (hapart.tables pa hpa)] at hpa
    rw [hcons.pages]
    exact hapart.tables pa hpa
  · intro page hpage pte hsome
    rw [hapart.lookup hcons] at hsome
    rw [hcons.pages]
    exact hapart.data page hpage pte hsome

end

theorem leaf_mem_holdings
    (hpage : page < userPages) (hsome : lookup memory pagetable (page * PGSIZE) = some pte) :
    PTE2PA pte ∈ holdings memory pagetable := by
  rw [holdings, Multiset.mem_add, Multiset.mem_add]
  exact Or.inl (Or.inr (mem_userLeaves hpage hsome))

/-! ## One page -/

/-- A page that such a step takes from the free list, or leaves there, was free. -/
theorem map_fresh_freelist {filled next : Memory}
    {hand : Multiset ℕ} (hsound : Sound memory pagetable hand)
    (hkal : kalloc memory = (some mem, popped))
    (hfill : Rewritten popped filled mem) (hva : va < TRAPFRAME)
    (halign : va % PGSIZE = 0) (hnone : lookup memory pagetable va = none)
    {perm : Pte} {mapped : Bool}
    (hmap : mappages filled pagetable va PGSIZE mem perm = .ok (mapped, next)) :
    mem ∈ memory.freelist ∧ ∀ pa ∈ next.freelist, pa ∈ memory.freelist := by
  obtain ⟨hpopped, hlook⟩ := conserves_kalloc hsound hkal
  obtain ⟨htouched, hlookup'⟩ := conserves_touch (hpopped.sound hsound)
    (Multiset.mem_cons_self mem hand) hfill.kernelEnd hfill.freelist hfill.frame
  have hsound' := (hpopped.trans htouched).sound hsound
  have hfree := (kalloc_some hkal).1
  obtain ⟨mapped', final, taken, hfinal, hgrown, -, -⟩ := mappages_single
    hsound'.wellFormed (lt_trans hva (by decide)) halign
    ((hlookup' va).trans ((hlook va).trans hnone)) mem perm
  rw [hmap, Except.ok.injEq, Prod.mk.injEq] at hfinal
  have htaken := hgrown.freelist
  rw [hfill.freelist, ← hfinal.2] at htaken
  constructor
  · rw [hfree]
    exact mem_cons_self
  · intro pa hpa
    rw [hfree, htaken]
    exact mem_cons_of_mem mem (mem_append_right taken hpa)

/-- A page of the child: the parent's flags and bytes, in a page that was free. -/
def CopiedPage (before after : Memory) (old new page : ℕ) : Prop :=
  ∃ pte mem, lookup before old (page * PGSIZE) = some pte ∧
    lookup after new (page * PGSIZE) = some (leafPte mem (PTE_FLAGS pte)) ∧
    PTE2PA (leafPte mem (PTE_FLAGS pte)) = mem ∧
    after.page mem = before.page (PTE2PA pte) ∧ mem ∈ before.freelist

section
variable {memory next after : Memory} {old new page count : ℕ} {hand : Multiset ℕ}

/-- A page that is copied stays copied while the child's address space grows. -/
theorem CopiedPage.later (hcopied : CopiedPage memory next old new page)
    (hkeeps : KeepsData next after new (page + 1)) : CopiedPage memory after old new page := by
  obtain ⟨pte, mem, hold, hnew, hpa, hdata, hfree⟩ := hcopied
  obtain ⟨hlook, hpages⟩ := hkeeps page (Nat.lt_succ_self page)
  refine ⟨pte, mem, hold, hlook.trans hnew, hpa, ?_, hfree⟩
  have hsame := hpages _ hnew
  rw [hpa] at hsame
  rw [hsame, hdata]

/-- A page that is copied after a step was copied from what was there before it. -/
theorem CopiedPage.earlier (hcopied : CopiedPage next after old new page)
    (hkeeps : KeepsData memory next old total) (hpage : page < total)
    (hfree : ∀ pa ∈ next.freelist, pa ∈ memory.freelist) :
    CopiedPage memory after old new page := by
  obtain ⟨pte, mem, hold, hnew, hpa, hdata, hmem⟩ := hcopied
  obtain ⟨hlook, hpages⟩ := hkeeps page hpage
  rw [hlook] at hold
  refine ⟨pte, mem, hold, hnew, hpa, ?_, hfree mem hmem⟩
  rw [hdata, hpages pte hold]

theorem uvmunmap_all (hsound : Sound memory new hand) (hfill : Filled memory new page) :
    ∃ after, uvmunmap memory new 0 (page * PGSIZE / PGSIZE) true = .ok after ∧
      Conserves memory after new hand hand ∧ HighSame memory after new ∧ Filled after new 0 := by
  have hbound := hfill.bound
  have hrange : 0 + page ≤ userPages := by omega
  obtain ⟨after, hunmap, hunmaps, hcons⟩ := conserves_uvmunmap hsound
    hrange (fun other _ ho => hfill.present other (by omega)) true
  refine ⟨after, ?_, hcons, ?_, filled_unmap hfill (Nat.zero_le page) hunmaps⟩
  · rw [page_mul_div]
    simpa using hunmap
  · intro va hva
    rw [hunmaps, if_neg (by omega)]

theorem copiedPage_fresh (hsound : Sound memory new hand) (hfill : Filled memory new page)
    (hapart : Apart memory old new total hand) (hpage : page < total)
    (hsome : lookup memory old (page * PGSIZE) = some pte)
    (hkal : kalloc memory = (some mem, popped))
    (hmap : mappages (copyPage popped mem (PTE2PA pte)) new (page * PGSIZE) PGSIZE mem
      (PTE_FLAGS pte) = .ok (true, next))
    (hmaps : MapsPages memory next new (page * PGSIZE) 1 mem (PTE_FLAGS pte)) :
    CopiedPage memory next old new page ∧ KeepsData memory next new page ∧
      ∀ pa ∈ next.freelist, pa ∈ memory.freelist := by
  have huser := filled_lt_TRAPFRAME hfill hsound
  have hnone := hfill.absent page (le_refl page) huser
  have hfresh := rewritten_copyPage popped mem (PTE2PA pte)
  have halign := Nat.mul_mod_left page PGSIZE
  have hbelow := page_lt_TRAPFRAME huser
  obtain ⟨hmem, hfree⟩ := map_fresh_freelist hsound hkal hfresh hbelow halign hnone hmap
  obtain ⟨hframe, hcontents⟩ := map_fresh_frame hsound hkal hfresh hbelow halign hnone hmap
  obtain ⟨hpopped, -⟩ := conserves_kalloc hsound hkal
  have hman := (hpopped.sound hsound).managed mem (by simp)
  have hpa : PTE2PA (leafPte mem (PTE_FLAGS pte)) = mem := by
    rw [PTE2PA_leafPte (managed_lt hman) (isPerm_PTE_FLAGS pte), managed_round hman]
  -- The parent's page is not the free page that the copy takes.
  have hsource : PTE2PA pte ≠ mem := by
    intro heq
    apply hapart.data page hpage pte hsome
    rw [heq, Multiset.mem_add, holdings, Multiset.mem_add, Multiset.mem_coe]
    exact Or.inr (Or.inr hmem)
  refine ⟨⟨pte, mem, hsome, ?_, hpa, ?_, hmem⟩, ?_, hfree⟩
  · rw [hmaps.single, if_pos rfl]
  · rw [hcontents]
    exact (Function.update_self mem _ _).trans ((kalloc_some hkal).2.2 _ hsource)
  · apply keepsData_outside hsound hfill.bound _ hframe
    intro other ho
    rw [hmaps, page_mul_div, page_mul_div, if_neg (by omega)]

theorem uvmcopyLoop_spec (count : ℕ)
    (hsound : Sound memory new hand) (hfill : Filled memory new page)
    (hapart : Apart memory old new total hand) (htotal : page + count ≤ total)
    (hpres : ∀ other, page ≤ other → other < page + count → Present memory old (other * PGSIZE)) :
    ∃ copied after, uvmcopyLoop old new count memory (page * PGSIZE) = .ok (copied, after) ∧
      Conserves memory after new hand hand ∧ HighSame memory after new ∧
      Filled after new (if copied then page + count else 0) ∧
      (copied = true → KeepsData memory after new page ∧
        ∀ other, page ≤ other → other < page + count → CopiedPage memory after old new other) ∧
      (copied = false → memory.freelist.length ≤ 3 * count) := by
  induction count generalizing memory page with
  | zero =>
    exact ⟨true, memory, rfl, Conserves.refl memory new hand, fun _ _ => rfl, hfill,
      fun _ => ⟨KeepsData.refl memory new page, fun other hlow hhigh =>
        absurd hhigh (Nat.not_lt.mpr hlow)⟩, Bool.noConfusion⟩
  | succ count ih =>
    have huser := filled_lt_TRAPFRAME hfill hsound
    obtain ⟨pte, hsome, hleaf⟩ := hpres page (le_refl page) (by omega)
    obtain ⟨ref, hwalk, hload, hval⟩ := walk_of_lookup hsome
    cases hkal : kalloc memory with
    | mk result popped =>
      cases result with
      | none =>
        obtain ⟨rfl, hnil⟩ := kalloc_none hkal
        obtain ⟨after, hunmap, hcons, hhigh, hres⟩ := uvmunmap_all hsound hfill
        refine ⟨false, after, ?_, hcons, hhigh, hres, Bool.noConfusion, fun _ => by simp [hnil]⟩
        simp only [uvmcopyLoop, hwalk, ok_bind, hload, hval, hkal,
          hunmap, Bool.not_true, pure_eq_ok]
        rfl
      | some mem =>
        have hnone := hfill.absent page (le_refl page) huser
        obtain ⟨mapped, next, hmap, htrue, hfalse⟩ := map_fresh hsound
          hkal (rewritten_copyPage popped mem (PTE2PA pte))
          (page_lt_TRAPFRAME huser) (Nat.mul_mod_left page PGSIZE) hnone
          (isPerm_PTE_FLAGS pte)
        obtain ⟨hshort, hsupply⟩ := map_fresh_supply hsound hkal
          (rewritten_copyPage popped mem (PTE2PA pte)) (page_lt_TRAPFRAME huser)
          (Nat.mul_mod_left page PGSIZE) hnone hmap
        cases mapped with
        | false =>
          obtain ⟨freed, hkfree, hcons, hlook⟩ := hfalse rfl
          have hfilled' : Filled freed new page := hfill.congr fun other _ => hlook (other * PGSIZE)
          obtain ⟨after, hunmap, hconserves', hhigh, hres⟩ :=
            uvmunmap_all (hcons.sound hsound) hfilled'
          refine ⟨false, after, ?_, hcons.trans hconserves',
            (highSame_of_lookup hlook).trans hhigh, hres,
            Bool.noConfusion, fun _ => (hshort rfl).trans (by omega)⟩
          simp only [uvmcopyLoop, hwalk, ok_bind, hload, hval,
            hkal, hmap, hkfree, hunmap, Bool.not_true, pure_eq_ok]
          rfl
        | true =>
          obtain ⟨hcons, hmaps⟩ := htrue rfl
          have hleaf' : PTE_FLAGS (leafPte mem (PTE_FLAGS pte)) ≠
              PTE_V := by
            rw [PTE_FLAGS_leafPte mem (isPerm_PTE_FLAGS pte), PTE_FLAGS_or_PTE_V hval]
            exact hleaf
          obtain ⟨hcopied, hkeeps, hfree⟩ := copiedPage_fresh hsound hfill
            hapart (by omega) hsome hkal hmap hmaps
          have hpar := hapart.keepsData hcons
          obtain ⟨copied, after, hloop, hconserves', hhigh, hres, hpages, hfails⟩ :=
            ih (hcons.sound hsound) (filled_map hfill hmaps huser hleaf')
              (hapart.step hcons) (by omega) (by
                intro other hfst hlast
                rw [Present, hapart.lookup hcons]
                exact hpres other (by omega) (by omega))
          have hnext : page + 1 + count = page + (count + 1) := by omega
          rw [hnext] at hres
          refine ⟨copied, after, ?_, hcons.trans hconserves', ?_, hres, ?_, fun hfalse => by
            have := hfails hfalse
            omega⟩
          · simp only [uvmcopyLoop, hwalk, ok_bind, hload, hval,
              hkal, hmap, Bool.not_true, if_true]
            rw [← Nat.succ_mul]
            exact hloop
          · intro va hva
            rw [hhigh va hva, hmaps, page_mul_div, if_neg (by omega)]
          · intro hall
            obtain ⟨hkeeps', hrest⟩ := hpages hall
            refine ⟨hkeeps.trans (hkeeps'.mono (Nat.le_succ page)), ?_⟩
            intro other hlow hlast
            by_cases heq : other = page
            · subst heq
              exact hcopied.later hkeeps'
            · exact (hrest other (by omega) (by omega)).earlier hpar (by omega) hfree

end

/-! ## The copy as a whole -/

/-- The child after a successful copy: it has exactly the first `count` pages, with the
parent's flags and bytes, in pages of its own.  What one process stores in its pages
changes neither the translations nor the bytes of the other. -/
structure Forked (before after : Memory) (old new count : ℕ) : Prop where
  filled : Filled after new count
  copied : ∀ page < count, CopiedPage before after old new page
  distinct : ∀ page < count, ∀ other < count, ∀ pte pte',
    lookup after new (page * PGSIZE) = some pte →
    lookup after new (other * PGSIZE) = some pte' → PTE2PA pte = PTE2PA pte' → page = other
  apart : ∀ page < count, ∀ other < count, ∀ pte pte', lookup after new (page * PGSIZE) = some pte →
    lookup after old (other * PGSIZE) = some pte' → PTE2PA pte ≠ PTE2PA pte'
  childStores : ∀ page < count, ∀ pte stored,
    lookup after new (page * PGSIZE) = some pte → Rewritten after stored (PTE2PA pte) →
      (∀ va, lookup stored old va = lookup after old va) ∧ KeepsData after stored old count
  parentStores : ∀ page < count, ∀ pte stored,
    lookup after old (page * PGSIZE) = some pte → Rewritten after stored (PTE2PA pte) →
      (∀ va, lookup stored new va = lookup after new va) ∧ KeepsData after stored new count

theorem store_invisible {stored : Memory} {count : ℕ}
    (hstored : Rewritten memory stored pa) (htable : pa ∉ tablePages memory pagetable)
    (hdata : ∀ page < count, ∀ pte, lookup memory pagetable (page * PGSIZE) = some pte →
      PTE2PA pte ≠ pa) : (∀ va, lookup stored pagetable va = lookup memory pagetable va) ∧
      KeepsData memory stored pagetable count := by
  have hlook : ∀ va, lookup stored pagetable va = lookup memory pagetable va := by
    apply lookup_congr
    intro table hmem
    apply hstored.frame
    intro heq
    rw [heq] at hmem
    exact htable hmem
  refine ⟨hlook, fun page hpage => ⟨hlook _, fun pte hsome => ?_⟩⟩
  exact hstored.frame _ (hdata page hpage pte hsome)

section
variable {before after : Memory} {old new count : ℕ} {hand : Multiset ℕ}

theorem forked_of_copied (hsound : Sound after new hand)
    (hapart : Apart after old new count hand) (hfill : Filled after new count)
    (hcopied : ∀ page < count, CopiedPage before after old new page) :
    Forked before after old new count := by
  have hbound := hfill.bound
  have hheld : ∀ page < count, ∀ pte, lookup after new (page * PGSIZE) = some pte →
      PTE2PA pte ∈ hand + holdings after new := by
    intro page hpage pte hsome
    exact Multiset.mem_add.mpr (Or.inr (leaf_mem_holdings (by omega) hsome))
  have hdiffer : ∀ page < count, ∀ other < count, ∀ pte pte',
      lookup after new (page * PGSIZE) = some pte →
      lookup after old (other * PGSIZE) = some pte' → PTE2PA pte ≠ PTE2PA pte' := by
    intro page hpage other ho pte pte' hnew hold heq
    apply hapart.data other ho pte' hold
    rw [← heq]
    exact hheld page hpage pte hnew
  refine ⟨hfill, hcopied, ?_, hdiffer, ?_, ?_⟩
  · intro page hpage other ho pte pte' hsome hsome' heq
    exact leaf_inj hsound (by omega) (by omega) hsome hsome' heq
  · intro page hpage pte stored hsome hstored
    apply store_invisible hstored
    · intro htable
      exact hapart.tables _ htable (hheld page hpage pte hsome)
    · intro other ho pte' hold
      exact (hdiffer page hpage other ho pte pte' hsome hold).symm
  · intro page hpage pte stored hsome hstored
    apply store_invisible hstored
    · intro htable
      apply hapart.data page hpage pte hsome
      rw [holdings, Multiset.mem_add, Multiset.mem_add, Multiset.mem_add]
      exact Or.inr (Or.inl (Or.inl htable))
    · intro other ho pte' hnew
      exact hdiffer other ho page hpage pte' pte hnew hsome

/-- An address space without pages has given back what it took, but for the pages of its
page table. -/
theorem freed_of_empty (hcons : Conserves before after new hand hand)
    (hafter : Filled after new 0) :
    ∀ pa ∈ before.freelist, pa ∈ after.freelist ∨ pa ∈ tablePages after new := by
  have hleaves : userLeaves after new = 0 := by
    rw [userLeaves, leafPages_none]
    · rfl
    · intro page _ hpage
      exact hafter.absent page (Nat.zero_le page) (by omega)
  intro pa hfree
  have hheld : pa ∈ holdings after new := by
    have hpages := add_left_cancel hcons.pages
    rw [hpages, holdings, Multiset.mem_add]
    exact Or.inr (Multiset.mem_coe.mpr hfree)
  rw [holdings, hleaves, add_zero, Multiset.mem_add, Multiset.mem_coe] at hheld
  exact hheld.symm

end

/-- `uvmcopy`, wherever it runs out of memory: the parent is as it was, and the child has
a copy of its own of every page, or no page at all.  With three free pages for each page to
copy, and one to spare, it does not run out. -/
theorem uvmcopy_exact (memory : Memory) (old new sz : ℕ) (hand : Multiset ℕ)
    (hsound : Sound memory new hand) (hempty : Filled memory new 0)
    (hapart : Apart memory old new (pageCount sz) hand)
    (hpresent : ∀ page < pageCount sz, Present memory old (page * PGSIZE)) :
    ∃ copied after, uvmcopy memory old new sz = .ok (copied, after) ∧
      (∀ va, lookup after old va = lookup memory old va) ∧
      KeepsData memory after old (pageCount sz) ∧
      HighSame memory after new ∧
      (3 * pageCount sz < memory.freelist.length → copied = true) ∧
      (copied = true → Forked memory after old new (pageCount sz)) ∧
      (copied = false → Filled after new 0 ∧
        ∀ pa ∈ memory.freelist, pa ∈ after.freelist ∨ pa ∈ tablePages after new) := by
  have hsteps : pageSteps 0 sz = pageCount sz := by
    simp only [pageSteps, pageCount, Nat.sub_zero]
  obtain ⟨copied, after, hloop, hconserves, hhigh, hfilled, hcopied, hfails⟩ :=
    uvmcopyLoop_spec (pageCount sz) hsound hempty hapart (Nat.zero_add _).le
      fun page _ hpage => hpresent page (by omega)
  rw [Nat.zero_mul] at hloop
  refine ⟨copied, after, ?_, hapart.lookup hconserves, hapart.keepsData hconserves, hhigh,
    fun hmany => ?_, ?_, ?_⟩
  · rw [uvmcopy, hsteps, hloop]
  · by_contra hne
    exact absurd hmany (Nat.not_lt.mpr (hfails (Bool.not_eq_true copied ▸ hne)))
  · rintro rfl
    rw [if_pos rfl, Nat.zero_add] at hfilled
    apply forked_of_copied (hconserves.sound hsound) (hapart.step hconserves) hfilled
    intro page hpage
    exact (hcopied rfl).2 page (Nat.zero_le page) (by omega)
  · rintro rfl
    exact ⟨hfilled, freed_of_empty hconserves hfilled⟩

/-- A parent with one page, and four free pages. -/
def parentMemory : Memory :=
  writePte (writePte (writePte
    { blankMemory with freelist := blankMemory.freelist ++ [KERNBASE + 0x8000] }
    (KERNBASE + 0x4000) 0 (PA2PTE (KERNBASE + 0x5000) ||| PTE_V)) (KERNBASE + 0x5000) 0
    (PA2PTE (KERNBASE + 0x6000) ||| PTE_V)) (KERNBASE + 0x6000) 0
    (leafPte (KERNBASE + 0x7000) PTE_USER)

theorem readPte_parentMemory (hne : table = KERNBASE ∨ index ≠ 0) :
    readPte parentMemory table index = 0 := by
  have ho : ∀ entry, entry ≠ KERNBASE → table ≠ entry ∨ index ≠ 0 := by
    intro entry he
    cases hne with
    | inl hroot =>
      left
      rw [hroot]
      exact he.symm
    | inr hi => exact Or.inr hi
  rw [parentMemory, readPte_writePte_ne _ _ _ _ _ _ (ho _ (by decide)),
    readPte_writePte_ne _ _ _ _ _ _ (ho _ (by decide)),
    readPte_writePte_ne _ _ _ _ _ _ (ho _ (by decide))]
  exact readPte_blankMemory table index

theorem tableChild_parentMemory {next found : ℕ}
    (hfst : tableChild parentMemory table 0 = some next)
    (hf : tableChild parentMemory table index = some found) : found = next := by
  by_cases hi : index = 0
  · rw [hi, hfst, some.injEq] at hf
    exact hf.symm
  · rw [tableChild, readPte_parentMemory (Or.inr hi)] at hf
    simp at hf

theorem tablePages_parentMemory (hpa : pa ∈ tablePages parentMemory (KERNBASE + 0x4000)) :
    pa = KERNBASE + 0x4000 ∨ pa = KERNBASE + 0x5000 ∨ pa = KERNBASE + 0x6000 := by
  have hroot : tableChild parentMemory (KERNBASE + 0x4000) 0 = some (KERNBASE + 0x5000) := by
    decide +kernel
  have hmiddle : tableChild parentMemory (KERNBASE + 0x5000) 0 = some (KERNBASE + 0x6000) := by
    decide +kernel
  rw [tablePages, RadixTree.mem_nodes_succ] at hpa
  cases hpa with
  | inl hfst => exact Or.inl hfst
  | inr hbelow =>
    obtain ⟨index, next, hnext, hmem⟩ := hbelow
    rw [tableChild_parentMemory hroot hnext, RadixTree.mem_nodes_succ] at hmem
    cases hmem with
    | inl hsnd => exact Or.inr (Or.inl hsnd)
    | inr hlast =>
      obtain ⟨index, last, hlast, hmem⟩ := hlast
      rw [tableChild_parentMemory hmiddle hlast, RadixTree.nodes_zero,
        Multiset.mem_singleton] at hmem
      exact Or.inr (Or.inr hmem)

/-- The page of the parent is copied. -/
theorem uvmcopy_exact_parentMemory :
    ∃ after, uvmcopy parentMemory (KERNBASE + 0x4000) KERNBASE 1 = .ok (true, after) ∧
      KeepsData parentMemory after (KERNBASE + 0x4000) (pageCount 1) ∧
      Forked parentMemory after (KERNBASE + 0x4000) KERNBASE (pageCount 1) := by
  have hzero : ∀ index, readPte parentMemory KERNBASE index = 0 :=
    fun index => readPte_parentMemory (Or.inl rfl)
  have hempty : Filled parentMemory KERNBASE 0 :=
    ⟨Nat.zero_le _, fun page hpage => absurd hpage (Nat.not_lt_zero page),
      fun page _ _ => lookup_zeroed hzero _⟩
  have hlookup : lookup parentMemory (KERNBASE + 0x4000) (0 * PGSIZE) =
      some (leafPte (KERNBASE + 0x7000) PTE_USER) := by
    decide +kernel
  have hone : ∀ page < pageCount 1, page = 0 := by decide
  have hapart : Apart parentMemory (KERNBASE + 0x4000) KERNBASE (pageCount 1) 0 := by
    constructor
    · intro pa hpa
      rw [zero_add, holdings_zeroed hzero]
      rcases tablePages_parentMemory hpa with rfl | rfl | rfl <;> decide
    · intro page hpage pte hsome
      rw [hone page hpage, hlookup, some.injEq] at hsome
      rw [zero_add, holdings_zeroed hzero, ← hsome]
      decide
  obtain ⟨copied, after, hcopy, -, hkeeps, -, hmany, hforked, -⟩ :=
    uvmcopy_exact parentMemory (KERNBASE + 0x4000) KERNBASE 1 0
      (sound_zeroed hzero (by decide) (by decide)) hempty hapart (by
        intro page hpage
        rw [hone page hpage]
        exact ⟨_, hlookup, PTE_FLAGS_user _⟩)
  obtain rfl := hmany (by decide)
  exact ⟨after, hcopy, hkeeps, hforked rfl⟩

end Xv6.Copying
