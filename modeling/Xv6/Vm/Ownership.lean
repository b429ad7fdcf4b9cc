import Xv6.Vm.UserMemory

/-!
# Ownership of physical pages

The pages that one address space and the free list hold between them: the
page-table pages, the pages mapped below `TRAPFRAME` and the free pages.  The
functions of `kernel/vm.c` move pages between the three and the hand of their
caller; `Conserves` says that none is lost or duplicated on the way and that no
other page is written.
-/

namespace Xv6.Ownership

open Riscv Kalloc PageTable PageMap RadixTree Mapping List Option

variable {memory : Memory} {before after : Memory} {hand : Multiset ℕ} {pagetable : ℕ}
variable {first page count va pa npages : ℕ} {second : Memory} {pte perm : Pte}
  {given kept : Multiset ℕ} {taken : List ℕ}

def userPages : ℕ := TRAPFRAME / PGSIZE

theorem userPages_eq : userPages = 67108862 := rfl
/-- The physical pages mapped below `TRAPFRAME`, once for every virtual page. -/
def userLeaves (memory : Memory) (pagetable : ℕ) : Multiset ℕ :=
  (leafPages memory pagetable 0 userPages : Multiset ℕ)

attribute [irreducible] userPages

theorem userLeaves_congr {first : Memory}
    (hsame : ∀ page < userPages, lookup second pagetable (page * PGSIZE) =
      lookup first pagetable (page * PGSIZE)) :
    userLeaves second pagetable = userLeaves first pagetable := by
  rw [userLeaves, userLeaves, leafPages_congr]
  intro page _ hpage
  exact hsame page (by omega)

theorem userLeaves_congr_pa {first : Memory} (hsame : ∀ page < userPages,
      (lookup second pagetable (page * PGSIZE)).map PTE2PA =
        (lookup first pagetable (page * PGSIZE)).map PTE2PA) :
    userLeaves second pagetable = userLeaves first pagetable := by
  rw [userLeaves, userLeaves, leafPages, leafPages]
  refine congrArg Multiset.ofList (filterMap_congr fun page hpage => ?_)
  rw [mem_range'_1] at hpage
  exact hsame page (by omega)

theorem mem_userLeaves {pagetable : ℕ} (hpage : page < userPages)
    (hsome : lookup memory pagetable (page * PGSIZE) = some pte) :
    PTE2PA pte ∈ userLeaves memory pagetable := by
  rw [userLeaves, Multiset.mem_coe]
  exact mem_leafPages (Nat.zero_le page) (by omega) hsome

theorem userLeaves_split (memory : Memory) (pagetable : ℕ) (hrange : first + count ≤ userPages) :
    userLeaves memory pagetable = (leafPages memory pagetable 0 first : Multiset ℕ) +
        leafPages memory pagetable first count +
        leafPages memory pagetable (first + count) (userPages - (first + count)) := by
  have hwhole : userPages = first + (count + (userPages - (first + count))) := by omega
  rw [userLeaves]
  nth_rewrite 1 [hwhole]
  rw [leafPages_append, leafPages_append, Nat.zero_add, Multiset.coe_add,
    Multiset.coe_add, append_assoc]

theorem userLeaves_unmap {pagetable : ℕ}
    (hunmaps : UnmapsPages before after pagetable first count)
    (hrange : first + count ≤ userPages) :
    userLeaves before pagetable = (leafPages before pagetable first count : Multiset ℕ) +
        userLeaves after pagetable := by
  have hout : ∀ page, ¬(first ≤ page ∧ page < first + count) →
      lookup after pagetable (page * PGSIZE) = lookup before pagetable (page * PGSIZE) := by
    intro page hpage
    rw [hunmaps, page_mul_div, if_neg hpage]
  have hlow : leafPages after pagetable 0 first =
      leafPages before pagetable 0 first := by
    apply leafPages_congr
    intro page _ hpage
    exact hout page (by omega)
  have hhigh : leafPages after pagetable (first + count) (userPages - (first + count)) =
      leafPages before pagetable (first + count) (userPages - (first + count)) := by
    apply leafPages_congr
    intro page hpage _
    exact hout page (by omega)
  have hin : leafPages after pagetable first count = [] := by
    apply leafPages_none
    intro page hfst hlast
    rw [hunmaps, page_mul_div, if_pos ⟨hfst, hlast⟩]
  rw [userLeaves_split before pagetable hrange,
    userLeaves_split after pagetable hrange, hlow, hhigh, hin]
  simp only [Multiset.coe_nil, add_zero]
  abel

theorem userLeaves_map {pagetable : ℕ} (hmaps : MapsPages before after pagetable va 1 pa perm)
    (hva : va / PGSIZE < userPages) (hnone : lookup before pagetable va = none) :
    userLeaves after pagetable = PTE2PA (leafPte pa perm) ::ₘ userLeaves before pagetable := by
  have hout : ∀ page, page ≠ va / PGSIZE → lookup after pagetable (page * PGSIZE) =
        lookup before pagetable (page * PGSIZE) := by
    intro page hpage
    rw [hmaps, page_mul_div, if_neg (by omega)]
  have hlow : leafPages after pagetable 0 (va / PGSIZE) =
      leafPages before pagetable 0 (va / PGSIZE) := by
    apply leafPages_congr
    intro page _ hpage
    exact hout page (by omega)
  have hhigh : leafPages after pagetable (va / PGSIZE + 1) (userPages - (va / PGSIZE + 1)) =
      leafPages before pagetable (va / PGSIZE + 1) (userPages - (va / PGSIZE + 1)) := by
    apply leafPages_congr
    intro page hpage _
    exact hout page (by omega)
  have hbefore : leafPages before pagetable (va / PGSIZE) 1 = [] := by
    apply leafPages_none
    intro page hfst hlast
    have hpage : page = va / PGSIZE := by omega
    rw [hpage, ← hnone, ← lookup_round before pagetable va, PGROUNDDOWN]
  have hafter : leafPages after pagetable (va / PGSIZE) 1 = [PTE2PA (leafPte pa perm)] := by
    rw [leafPages_succ, hmaps, page_mul_div, if_pos (by omega), Nat.sub_self,
      Nat.zero_mul, Nat.add_zero]
    rw [leafPages_none (by omega)]
    rfl
  have hrange : va / PGSIZE + 1 ≤ userPages := hva
  rw [userLeaves_split before pagetable hrange,
    userLeaves_split after pagetable hrange, hlow, hhigh, hbefore, hafter]
  simp only [Multiset.coe_nil, add_zero, Multiset.coe_singleton, ← Multiset.singleton_add]
  abel

/-! ## Holdings -/

/-- The pages that an address space and the free list hold. -/
def holdings (memory : Memory) (pagetable : ℕ) : Multiset ℕ :=
  tablePages memory pagetable + userLeaves memory pagetable + (memory.freelist : Multiset ℕ)

/-- No page is held twice, every held page belongs to the allocator, and the
page table is a tree.  `hand` is what the running function holds itself. -/
structure Sound (memory : Memory) (pagetable : ℕ) (hand : Multiset ℕ) :
    Prop where
  distinct : (hand + holdings memory pagetable).Nodup
  managed : ∀ pa ∈ hand + holdings memory pagetable, Managed memory pa
  interior : InteriorPlain memory pagetable
  upper : UpperUnused memory pagetable

/-- The step from `before` to `after` moves pages between the hand, the address
space and the free list, and writes only pages among them. -/
structure Conserves (before after : Memory) (pagetable : ℕ)
    (given kept : Multiset ℕ) : Prop where
  kernelEnd : after.kernelEnd = before.kernelEnd
  pages : kept + holdings after pagetable = given + holdings before pagetable
  frame : ∀ pa, pa ∉ given + holdings before pagetable → after.page pa = before.page pa
  interior : InteriorPlain before pagetable → InteriorPlain after pagetable
  upper : UpperUnused before pagetable → UpperUnused after pagetable

theorem Conserves.refl (memory : Memory) (pagetable : ℕ)
    (hand : Multiset ℕ) : Conserves memory memory pagetable hand hand :=
  ⟨rfl, rfl, fun _ _ => rfl, id, id⟩

theorem Conserves.trans {first third : Memory} {middle : Multiset ℕ}
    (hfst : Conserves first second pagetable given middle)
    (hsnd : Conserves second third pagetable middle kept) :
    Conserves first third pagetable given kept := by
  constructor
  · rw [hsnd.kernelEnd, hfst.kernelEnd]
  · rw [hsnd.pages, hfst.pages]
  · intro pa hpa
    have hpa' : pa ∉ middle + holdings second pagetable := by
      rw [hfst.pages]
      exact hpa
    rw [hsnd.frame pa hpa', hfst.frame pa hpa]
  · intro hinterior
    exact hsnd.interior (hfst.interior hinterior)
  · intro hupper
    exact hsnd.upper (hfst.upper hupper)

theorem Conserves.sound (hstep : Conserves before after pagetable given kept)
    (hsound : Sound before pagetable given) : Sound after pagetable kept := by
  constructor
  · rw [hstep.pages]
    exact hsound.distinct
  · intro pa hpa
    rw [hstep.pages] at hpa
    simpa only [Managed, hstep.kernelEnd] using hsound.managed pa hpa
  · exact hstep.interior hsound.interior
  · exact hstep.upper hsound.upper

section Sound

variable {memory : Memory} {pagetable : ℕ} {hand : Multiset ℕ}
variable (hsound : Sound memory pagetable hand)

include hsound

theorem Sound.wellFormed : WellFormed memory pagetable := by
  constructor
  · refine Multiset.nodup_of_le ?_ hsound.distinct
    rw [holdings, add_right_comm]
    exact (Multiset.le_add_right _ _).trans (Multiset.le_add_left _ _)
  · intro pa hpa
    apply hsound.managed
    rw [holdings, Multiset.mem_add, Multiset.mem_add, Multiset.mem_coe]
    exact Or.inr (Or.inr hpa)
  · exact hsound.interior

theorem Sound.drop_hand : Sound memory pagetable 0 := by
  refine ⟨?_, ?_, hsound.interior, hsound.upper⟩
  · rw [zero_add]
    exact (Multiset.nodup_add.mp hsound.distinct).2.1
  · intro pa hpa
    rw [zero_add] at hpa
    exact hsound.managed pa (Multiset.mem_add.mpr (Or.inr hpa))

theorem Sound.hand_not_mem (hpa : pa ∈ hand) : pa ∉ holdings memory pagetable :=
  Multiset.disjoint_left.mp (Multiset.nodup_add.mp hsound.distinct).2.2 hpa

theorem Sound.hand_not_table (hpa : pa ∈ hand) : pa ∉ tablePages memory pagetable := by
  intro htable
  apply hsound.hand_not_mem hpa
  rw [holdings, Multiset.mem_add, Multiset.mem_add]
  exact Or.inl (Or.inl htable)

theorem Sound.leaf_managed (hpage : page < userPages)
    (hsome : lookup memory pagetable (page * PGSIZE) = some pte) : Managed memory (PTE2PA pte) := by
  apply hsound.managed
  rw [holdings, Multiset.mem_add, Multiset.mem_add, Multiset.mem_add]
  exact Or.inr (Or.inl (Or.inr (mem_userLeaves hpage hsome)))

theorem Sound.releasable (hrange : first + count ≤ userPages) :
    Releasable memory pagetable first count := by
  have hle : tablePages memory pagetable + (memory.freelist : Multiset ℕ) +
      (leafPages memory pagetable first count : Multiset ℕ) ≤ hand + holdings memory pagetable := by
    refine Multiset.le_iff_exists_add.mpr ⟨hand +
      (leafPages memory pagetable 0 first : Multiset ℕ) +
      (leafPages memory pagetable (first + count) (userPages - (first + count)) : Multiset ℕ), ?_⟩
    rw [holdings, userLeaves_split memory pagetable hrange]
    abel
  exact Multiset.nodup_of_le hle hsound.distinct

end Sound

/-! ## Pages in the hand -/

section Hand

variable {before after : Memory} {pagetable : ℕ} {hand : Multiset ℕ}

theorem conserves_touch (hsound : Sound before pagetable hand)
    (hpa : pa ∈ hand) (hend : after.kernelEnd = before.kernelEnd)
    (hfree : after.freelist = before.freelist)
    (hsame : ∀ other, other ≠ pa → after.page other = before.page other) :
    Conserves before after pagetable hand hand ∧
      ∀ va, lookup after pagetable va = lookup before pagetable va := by
  have hpages : ∀ table ∈ tablePages before pagetable, after.page table = before.page table := by
    intro table htable
    apply hsame
    rintro rfl
    exact hsound.hand_not_table hpa htable
  have hlook := lookup_congr hpages
  refine ⟨⟨hend, ?_, ?_, interiorPlain_congr hpages,
    upperUnused_congr (hpages pagetable (root_mem_nodes _ 2 pagetable))⟩,
    hlook⟩
  · rw [holdings, holdings, tablePages_congr hpages, hfree,
      userLeaves_congr fun page _ => hlook (page * PGSIZE)]
  · intro other ho
    apply hsame
    rintro rfl
    exact ho (Multiset.mem_add.mpr (Or.inl hpa))

theorem conserves_kalloc (hsound : Sound before pagetable hand)
    (hkal : kalloc before = (some page, after)) :
    Conserves before after pagetable hand (page ::ₘ hand) ∧
      ∀ va, lookup after pagetable va = lookup before pagetable va := by
  obtain ⟨hlist, hkernel, hkept⟩ := kalloc_some hkal
  have hfree : page ∈ before.freelist := by
    rw [hlist]
    exact mem_cons_self
  have hpages : ∀ table ∈ tablePages before pagetable, after.page table = before.page table := by
    intro table htable
    apply hkept
    rintro rfl
    exact hsound.wellFormed.not_mem_freelist htable hfree
  have hlook := lookup_congr hpages
  refine ⟨⟨hkernel, ?_, ?_, interiorPlain_congr hpages,
    upperUnused_congr (hpages pagetable (root_mem_nodes _ 2 pagetable))⟩, hlook⟩
  · rw [holdings, holdings, tablePages_congr hpages, hlist,
      userLeaves_congr fun page _ => hlook (page * PGSIZE)]
    simp only [← Multiset.cons_coe, Multiset.cons_add, Multiset.add_cons]
  · intro pa hpa
    apply hkept
    rintro rfl
    apply hpa
    rw [holdings, Multiset.mem_add, Multiset.mem_add, Multiset.mem_coe]
    exact Or.inr (Or.inr hfree)

theorem conserves_kfree (hsound : Sound before pagetable (pa ::ₘ hand)) :
    ∃ after, kfree before pa = .ok after ∧ Conserves before after pagetable (pa ::ₘ hand) hand ∧
      ∀ va, lookup after pagetable va = lookup before pagetable va := by
  have hmem : pa ∈ pa ::ₘ hand := Multiset.mem_cons_self pa hand
  have hman : Managed before pa := hsound.managed pa (Multiset.mem_add.mpr (Or.inl hmem))
  have hpages := freePage_page (hsound.hand_not_table hmem)
  have hlook := lookup_congr hpages
  refine ⟨freePage before pa, kfree_of_managed hman, ⟨rfl, ?_, ?_, interiorPlain_congr hpages,
    upperUnused_congr (hpages pagetable (root_mem_nodes _ 2 pagetable))⟩,
    hlook⟩
  · rw [holdings, holdings, tablePages_congr hpages,
      userLeaves_congr fun page _ => hlook (page * PGSIZE), freePage]
    simp only [← Multiset.cons_coe, Multiset.cons_add, Multiset.add_cons]
  · intro other ho
    apply fillPage_page_ne
    rintro rfl
    exact ho (Multiset.mem_add.mpr (Or.inl hmem))

end Hand

/-! ## Mapping and unmapping -/

theorem div_lt_userPages (hva : va < TRAPFRAME) : va / PGSIZE < userPages := by
  rw [userPages_eq]
  simp only [PGSIZE_eq, TRAPFRAME_eq] at *
  omega

theorem userPages_le_div (hva : TRAPFRAME ≤ va) : userPages ≤ va / PGSIZE := by
  rw [userPages_eq]
  simp only [PGSIZE_eq, TRAPFRAME_eq] at *
  omega

theorem grown_holdings (hgrown : Grown before after pagetable taken) :
    holdings after pagetable + userLeaves before pagetable =
      holdings before pagetable + userLeaves after pagetable := by
  rw [holdings, holdings, hgrown.pages, hgrown.freelist, ← Multiset.coe_add]
  abel

theorem grown_frame {pagetable : ℕ} (hgrown : Grown before after pagetable taken)
    (hpa : pa ∉ holdings before pagetable) : after.page pa = before.page pa := by
  rw [holdings, Multiset.mem_add, Multiset.mem_add, Multiset.mem_coe,
    hgrown.freelist, mem_append] at hpa
  exact hgrown.frame pa (by tauto) (by tauto)

theorem conserves_mappages {pagetable : ℕ} (hsound : Sound memory pagetable (pa ::ₘ hand))
    (hva : va < TRAPFRAME) (halign : va % PGSIZE = 0)
    (hnone : lookup memory pagetable va = none)
    (hperm : IsPerm perm) :
    ∃ mapped after, mappages memory pagetable va PGSIZE pa perm = .ok (mapped, after) ∧
      (mapped = false → after.freelist = []) ∧
      MapsPages memory after pagetable va mapped.toNat pa perm ∧
      Conserves memory after pagetable (pa ::ₘ hand) (if mapped then hand else pa ::ₘ hand) := by
  have hmax : va < MAXVA := lt_trans hva (by decide)
  have hman : Managed memory pa := hsound.managed pa (by simp)
  have hpa : PTE2PA (leafPte pa perm) = pa := by
    rw [PTE2PA_leafPte (managed_lt hman) hperm, managed_round hman]
  obtain ⟨mapped, after, taken, hmap, hgrown, hnil, hmaps⟩ :=
    mappages_single hsound.wellFormed hmax halign hnone pa perm
  refine ⟨mapped, after, hmap, hnil, hmaps, hgrown.kernelEnd, ?_, ?_, hgrown.interior, hgrown.upper⟩
  · have heq := grown_holdings hgrown
    cases mapped with
    | false =>
      have hleaves : userLeaves after pagetable =
          userLeaves memory pagetable := by
        apply userLeaves_congr
        intro page _
        rw [hmaps, if_neg (by simp)]
      rw [hleaves, add_left_inj] at heq
      rw [heq]
      rfl
    | true =>
      have hleaves := userLeaves_map hmaps (div_lt_userPages hva) hnone
      rw [hpa] at hleaves
      rw [hleaves, Multiset.add_cons, ← Multiset.cons_add, add_left_inj] at heq
      rw [if_pos rfl, heq, Multiset.cons_add, Multiset.add_cons]
  · intro other ho
    exact grown_frame hgrown fun hmem => ho (Multiset.mem_add.mpr (Or.inr hmem))

theorem conserves_mappages_high {pagetable : ℕ} (hsound : Sound memory pagetable hand)
    (hlow : TRAPFRAME ≤ va) (hva : va < MAXVA) (halign : va % PGSIZE = 0)
    (hnone : lookup memory pagetable va = none) (pa : ℕ) (perm : Pte) :
    ∃ mapped after, mappages memory pagetable va PGSIZE pa perm = .ok (mapped, after) ∧
      (mapped = false → after.freelist = []) ∧
      MapsPages memory after pagetable va mapped.toNat pa perm ∧
      Conserves memory after pagetable hand hand := by
  obtain ⟨mapped, after, taken, hmap, hgrown, hnil, hmaps⟩ :=
    mappages_single hsound.wellFormed hva halign hnone pa perm
  have hleaves : userLeaves after pagetable = userLeaves memory pagetable := by
    apply userLeaves_congr
    intro page hpage
    have hhigh := userPages_le_div hlow
    rw [hmaps, page_mul_div, if_neg (by omega)]
  refine ⟨mapped, after, hmap, hnil, hmaps, hgrown.kernelEnd, ?_, ?_, hgrown.interior, hgrown.upper⟩
  · have heq := grown_holdings hgrown
    rw [hleaves, add_left_inj] at heq
    rw [heq]
  · intro other ho
    exact grown_frame hgrown fun hmem => ho (Multiset.mem_add.mpr (Or.inr hmem))

def Present (memory : Memory) (pagetable va : ℕ) : Prop :=
  ∃ pte, lookup memory pagetable va = some pte ∧ PTE_FLAGS pte ≠ PTE_V

theorem unmapCount_eq (hrange : first + npages ≤ MAXVA / PGSIZE) :
    unmapCount (first * PGSIZE) npages = npages := by
  simp only [unmapCount, PGSIZE_eq, MAXVA_eq] at *
  omega

/-- Unmapping pages that are present returns.  The call is described by the
pages that leave the address space, freed or not. -/
theorem uvmunmap_returns {pagetable : ℕ}
    {doFree : Bool} (hwell : WellFormed memory pagetable) (hrange : first + npages ≤ MAXVA / PGSIZE)
    (hpres : ∀ page, first ≤ page → page < first + npages →
      Unmappable memory pagetable (page * PGSIZE) doFree)
    (hrelease : doFree = true → Releasable memory pagetable first npages) :
    ∃ after freed, uvmunmap memory pagetable (first * PGSIZE) npages doFree = .ok after ∧
      Shrunk memory after pagetable freed ∧ UnmapsPages memory after pagetable first npages ∧
      List.Perm freed (freedPages memory pagetable first npages doFree) := by
  obtain ⟨after, freed, hloop, hshrunk, hunmaps, -, hperm⟩ :=
    uvmunmapLoop_total npages hwell hpres hrelease
  refine ⟨after, freed, ?_, hshrunk, hunmaps, hperm⟩
  rw [uvmunmap_aligned (Nat.mul_mod_left first PGSIZE), unmapCount_eq hrange, page_mul_div]
  exact hloop

theorem shrunk_frame {pagetable : ℕ}
    {freed : List ℕ} (hshrunk : Shrunk before after pagetable freed)
    (hpa : pa ∉ holdings before pagetable)
    (hfreed : ∀ page ∈ freed, page ∈ userLeaves before pagetable) :
    after.page pa = before.page pa := by
  rw [holdings, Multiset.mem_add, Multiset.mem_add] at hpa
  apply hshrunk.frame pa (by tauto)
  intro hmem
  exact hpa (Or.inl (Or.inr (hfreed pa hmem)))

theorem userPages_le : userPages ≤ MAXVA / PGSIZE := by
  rw [userPages_eq]
  decide

/-- Unmapping a range below `TRAPFRAME`: its pages go to the free list, or to
the hand if they are not freed. -/
theorem conserves_uvmunmap {memory : Memory} {pagetable first npages : ℕ}
    {hand : Multiset ℕ} (hsound : Sound memory pagetable hand)
    (hrange : first + npages ≤ userPages)
    (hpres : ∀ page, first ≤ page → page < first + npages →
      Present memory pagetable (page * PGSIZE)) (doFree : Bool) :
    ∃ after, uvmunmap memory pagetable (first * PGSIZE) npages doFree = .ok after ∧
      UnmapsPages memory after pagetable first npages ∧
      Conserves memory after pagetable hand (if doFree then hand else
        (leafPages memory pagetable first npages : Multiset ℕ) + hand) := by
  have hunmappable : ∀ page, first ≤ page → page < first + npages →
      Unmappable memory pagetable (page * PGSIZE) doFree := by
    intro page hfst hlast
    obtain ⟨pte, hsome, hleaf⟩ := hpres page hfst hlast
    exact ⟨pte, hsome, hleaf, fun _ => hsound.leaf_managed (by omega) hsome⟩
  obtain ⟨after, freed, hunmap, hshrunk, hunmaps, hperm⟩ :=
    uvmunmap_returns hsound.wellFormed (hrange.trans userPages_le)
      hunmappable fun _ => hsound.releasable hrange
  have hleaves := userLeaves_unmap hunmaps hrange
  have hfreed : (freed : Multiset ℕ) =
      freedPages memory pagetable first npages doFree :=
    Multiset.coe_eq_coe.mpr hperm
  refine ⟨after, hunmap, hunmaps, hshrunk.kernelEnd, ?_, ?_, hshrunk.interior, hshrunk.upper⟩
  · rw [holdings, holdings, hshrunk.pages, hshrunk.freelist, ← Multiset.coe_add, hfreed, hleaves]
    cases doFree with
    | false =>
      simp only [freedPages, Bool.false_eq_true, if_false, Multiset.coe_nil, zero_add]
      abel
    | true =>
      simp only [freedPages, if_true]
      abel
  · intro pa hpa
    apply shrunk_frame hshrunk fun hmem => hpa (Multiset.mem_add.mpr (Or.inr hmem))
    intro page hpage
    rw [hleaves, Multiset.mem_add]
    left
    rw [Multiset.mem_coe]
    have hmem := hperm.subset hpage
    cases doFree with
    | false => exact absurd hmem (by simp [freedPages])
    | true => exact hmem

theorem conserves_uvmunmap_high {pagetable : ℕ} (hsound : Sound memory pagetable hand)
    (hlow : userPages ≤ first) (hhigh : first < MAXVA / PGSIZE)
    (hpres : Present memory pagetable (first * PGSIZE)) :
    ∃ after, uvmunmap memory pagetable (first * PGSIZE) 1 false = .ok after ∧
      UnmapsPages memory after pagetable first 1 ∧ Conserves memory after pagetable hand hand := by
  have hunmappable : ∀ page, first ≤ page → page < first + 1 →
      Unmappable memory pagetable (page * PGSIZE) false := by
    intro page hfst hlast
    have hpage : page = first := by omega
    obtain ⟨pte, hsome, hleaf⟩ := hpres
    exact ⟨pte, hpage ▸ hsome, hleaf, by simp⟩
  obtain ⟨after, freed, hunmap, hshrunk, hunmaps, hperm⟩ :=
    uvmunmap_returns hsound.wellFormed hhigh hunmappable (by simp)
  have hnone : freed = [] := perm_nil.mp hperm
  subst hnone
  have hleaves : userLeaves after pagetable = userLeaves memory pagetable := by
    apply userLeaves_congr
    intro page hpage
    rw [hunmaps, page_mul_div, if_neg (by omega)]
  refine ⟨after, hunmap, hunmaps, hshrunk.kernelEnd, ?_, ?_, hshrunk.interior, hshrunk.upper⟩
  · rw [holdings, holdings, hshrunk.pages, hshrunk.freelist, hleaves, nil_append]
  · intro pa hpa
    exact shrunk_frame hshrunk (fun hmem => hpa (Multiset.mem_add.mpr (Or.inr hmem))) (by simp)

/-! ## Filled address spaces -/

def pageCount (sz : ℕ) : ℕ := (sz + PGSIZE - 1) / PGSIZE

theorem PGROUNDUP_eq {sz : ℕ} (hsz : pageCount sz ≤ userPages) :
    PGROUNDUP sz = pageCount sz * PGSIZE := by
  rw [userPages_eq] at hsz
  simp only [PGROUNDUP, pageCount, PGSIZE_eq] at *
  omega

/-- The first `count` pages are present, and no other page below `TRAPFRAME`
has a translation. -/
structure Filled (memory : Memory) (pagetable count : ℕ) : Prop where
  bound : count ≤ userPages
  present : ∀ page < count, Present memory pagetable (page * PGSIZE)
  absent : ∀ page, count ≤ page → page < userPages → lookup memory pagetable (page * PGSIZE) = none

theorem Filled.congr {first : Memory} {pagetable : ℕ} (hfill : Filled first pagetable count)
    (hsame : ∀ page < userPages, lookup second pagetable (page * PGSIZE) =
      lookup first pagetable (page * PGSIZE)) : Filled second pagetable count := by
  have hbound := hfill.bound
  refine ⟨hbound, ?_, ?_⟩
  · intro page hpage
    rw [Present, hsame page (by omega)]
    exact hfill.present page hpage
  · intro page hcount hpage
    rw [hsame page hpage]
    exact hfill.absent page hcount hpage

theorem length_leafPages (count : ℕ) (hpres : ∀ page, first ≤ page → page < first + count →
      Present memory pagetable (page * PGSIZE)) :
    (leafPages memory pagetable first count).length = count := by
  induction count generalizing first with
  | zero => rw [leafPages_none (by omega), length_nil]
  | succ count ih =>
    obtain ⟨pte, hsome, -⟩ := hpres first (le_refl first) (by omega)
    rw [leafPages_succ, hsome, length_append, ih]
    · simp only [map_some, toList_some, length_singleton]
      omega
    · intro page hfst hlast
      exact hpres page (by omega) (by omega)

/-- Distinct pages of the allocator are at most as many as fit below
`PHYSTOP`. -/
theorem length_le_of_managed {pages : List ℕ}
    (hnd : pages.Nodup) (hman : ∀ pa ∈ pages, Managed memory pa) :
    pages.length ≤ PHYSTOP / PGSIZE := by
  have hinjective : (pages.map fun pa => pa / PGSIZE).Nodup := by
    apply List.Nodup.map_on _ hnd
    intro first hfst second hsnd heq
    have hfirst' := (hman first hfst).1
    have hsecond' := (hman second hsnd).1
    simp only [PGSIZE_eq] at *
    omega
  have hsubset : (pages.map fun pa => pa / PGSIZE) ⊆ List.range (PHYSTOP / PGSIZE) := by
    intro page hpage
    obtain ⟨pa, hpa, rfl⟩ := mem_map.mp hpage
    have hbound := (hman pa hpa).2.2
    have halign := (hman pa hpa).1
    rw [mem_range]
    simp only [PGSIZE_eq, PHYSTOP_eq] at *
    omega
  have hlen := (hinjective.subperm hsubset).length_le
  rwa [length_map, length_range] at hlen

theorem Filled.count_le {pagetable : ℕ} (hfill : Filled memory pagetable count)
    (hsound : Sound memory pagetable hand) : count ≤ PHYSTOP / PGSIZE := by
  have hrange : 0 + count ≤ userPages := by
    rw [Nat.zero_add]
    exact hfill.bound
  have hlen : (leafPages memory pagetable 0 count).length = count := by
    apply length_leafPages
    intro page _ hpage
    exact hfill.present page (by omega)
  have hnd : (leafPages memory pagetable 0 count).Nodup :=
    Multiset.coe_nodup.mp (Multiset.nodup_of_le (Multiset.le_add_left _ _)
      (hsound.releasable hrange))
  have hman : ∀ pa ∈ leafPages memory pagetable 0 count,
      Managed memory pa := by
    intro pa hpa
    apply hsound.managed
    rw [holdings, userLeaves_split memory pagetable hrange]
    simp only [Multiset.mem_add, Multiset.mem_coe]
    tauto
  rw [← hlen]
  exact length_le_of_managed hnd hman

end Xv6.Ownership
