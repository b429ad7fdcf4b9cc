import Xv6.Vm.Ownership

/-!
# Freeing a page table

`freewalk` returns the pages of a page table without leaves to the free list,
and `uvmfree` does so after unmapping the user pages.  Together they give back
exactly the pages that the address space held.
-/

namespace Xv6.TearDown

open Riscv Kalloc RadixTree PageTable PageMap Mapping UserMemory Ownership Outcome List Option

variable {depth table frames pagetable : ℕ} {before after memory : Memory} {hand : Multiset ℕ}

/-- A tree of page-table pages without leaves: the entries above the last level
have no permission bits, and those of the last level are invalid. -/
def Collapsible (memory : Memory) : ℕ → ℕ → Prop
  | 0, table => ∀ index, hasFlag (readPte memory table index) PTE_V = false
  | depth + 1, table => ∀ index,
      hasFlag (readPte memory table index) PTE_V →
      hasFlag (readPte memory table index) (PTE_R ||| PTE_W ||| PTE_X) = false ∧
        Collapsible memory depth (PTE2PA (readPte memory table index))

theorem collapsible_congr {first second : Memory}
    (hsame : ∀ pa ∈ nodes (tableChild first) depth table, second.page pa = first.page pa)
    (htree : Collapsible first depth table) : Collapsible second depth table := by
  have hread : readPte second table = readPte first table :=
    readPte_congr (hsame table (root_mem_nodes _ depth table))
  induction depth generalizing table with
  | zero =>
    intro index
    rw [hread]
    exact htree index
  | succ depth ih =>
    intro index hval
    rw [hread] at hval ⊢
    obtain ⟨hplain, hbelow⟩ := htree index hval
    have hbelow' : ∀ pa ∈ nodes (tableChild first) depth (PTE2PA (readPte first table index)),
        second.page pa = first.page pa := by
      intro pa hpa
      apply hsame
      rw [mem_nodes_succ]
      exact Or.inr ⟨index, _, by simp [tableChild, hval], hpa⟩
    exact ⟨hplain, ih hbelow' hbelow (readPte_congr (hbelow' _ (root_mem_nodes _ depth _)))⟩

def freewalkEntry (frames table : ℕ) (memory : Memory) (index : Fin 512) :
    Except Panic Memory :=
  let pte := readPte memory table index
  if hasFlag pte PTE_V && !hasFlag pte (PTE_R ||| PTE_W ||| PTE_X) then do
    let memory ← freewalk frames memory (PTE2PA pte)
    return writePte memory table index 0
  else if hasFlag pte PTE_V then throw .freewalkLeaf
  else return memory

theorem freewalk_succ (frames : ℕ) (memory : Memory) (table : ℕ) :
    freewalk (frames + 1) memory table = entryIndices.foldlM (freewalkEntry frames table) memory >>=
        fun memory => kfree memory table := rfl

/-- `after` is `before` with the pages `freed` on the free list, and with no
page changed but these and possibly `table`. -/
structure Collapses (before after : Memory) (table : ℕ)
    (freed : Multiset ℕ) : Prop where
  kernelEnd : after.kernelEnd = before.kernelEnd
  freelist : (after.freelist : Multiset ℕ) = freed + (before.freelist : Multiset ℕ)
  frame : ∀ pa, pa ∉ freed → pa ≠ table → after.page pa = before.page pa

/-- `freewalk` with enough stack frees a leafless tree of a depth. -/
def FreesTrees (frames depth : ℕ) : Prop :=
  ∀ memory table, Collapsible memory depth table → (nodes (tableChild memory) depth table +
      (memory.freelist : Multiset ℕ)).Nodup →
    (∀ pa ∈ nodes (tableChild memory) depth table, Managed memory pa) →
    ∃ after, freewalk frames memory table = .ok after ∧
      Collapses memory after table (nodes (tableChild memory) depth table)

section Entry

variable {frames depth table : ℕ} {memory : Memory} {index : Fin 512}

theorem freewalkEntry_spec (hfrees : FreesTrees frames depth)
    (htree : hasFlag (readPte memory table index) PTE_V →
      hasFlag (readPte memory table index) (PTE_R ||| PTE_W ||| PTE_X) = false ∧
        Collapsible memory depth (PTE2PA (readPte memory table index)))
    (hdist : (subtree (tableChild memory) depth table index + (memory.freelist : Multiset ℕ)).Nodup)
    (htable : table ∉ subtree (tableChild memory) depth table index)
    (hman : ∀ pa ∈ subtree (tableChild memory) depth table index, Managed memory pa) :
    ∃ after, freewalkEntry frames table memory index = .ok after ∧ Collapses memory after table
        (subtree (tableChild memory) depth table index) ∧
      ∀ other, other ≠ index → readPte after table other = readPte memory table other := by
  by_cases hval : hasFlag (readPte memory table index) PTE_V
  · obtain ⟨hplain, hbelow⟩ := htree hval
    have hsubtree : subtree (tableChild memory) depth table index = nodes (tableChild memory) depth
          (PTE2PA (readPte memory table index)) := by
      simp [subtree, tableChild, hval]
    rw [hsubtree] at hdist htable hman ⊢
    obtain ⟨middle, hfree, hcollapse⟩ := hfrees memory _ hbelow hdist hman
    have hroot : middle.page table = memory.page table := by
      apply hcollapse.frame table htable
      rintro heq
      apply htable
      rw [← heq]
      exact root_mem_nodes _ depth table
    refine ⟨writePte middle table index 0, ?_, ⟨hcollapse.kernelEnd, hcollapse.freelist, ?_⟩, ?_⟩
    · simp [freewalkEntry, hval, hplain, hfree]
    · intro pa hpa hne
      rw [writePte_page_ne middle table index 0 hne]
      apply hcollapse.frame pa hpa
      rintro rfl
      exact hpa (root_mem_nodes _ depth _)
    · intro other ho
      rw [readPte_writePte_ne _ _ _ _ _ _ (Or.inr ho), readPte_congr hroot]
  · have hsubtree : subtree (tableChild memory) depth table index = 0 := by
      simp [subtree, tableChild, hval]
    refine ⟨memory, ?_, ⟨rfl, ?_, fun _ _ _ => rfl⟩, fun _ _ => rfl⟩
    · simp [freewalkEntry, hval]
    · rw [hsubtree, zero_add]

end Entry

theorem subtree_congr {index : Fin 512}
    (hread : readPte after table index = readPte before table index)
    (hsame : ∀ pa ∈ subtree (tableChild before) depth table index, after.page pa = before.page pa) :
    subtree (tableChild after) depth table index =
      subtree (tableChild before) depth table index := by
  have hchild : tableChild after table index =
      tableChild before table index := by
    simp only [tableChild, hread]
  rw [subtree, hchild]
  cases hnext : tableChild before table index with
  | none => simp [subtree, hnext]
  | some next =>
    rw [subtree, hnext] at hsame
    simp only [subtree, hnext, elim_some] at hsame ⊢
    apply nodes_congr
    intro path found hlen hpath
    exact tableChild_congr (hsame found (mem_nodes_of_descend (Nat.le_of_lt hlen) hpath))

theorem freewalkEntries_spec (hfrees : FreesTrees frames depth) (indices : List (Fin 512))
    (honce : indices.Nodup) (memory : Memory)
    (htree : ∀ index ∈ indices, hasFlag (readPte memory table index) PTE_V →
      hasFlag (readPte memory table index) (PTE_R ||| PTE_W ||| PTE_X) = false ∧
        Collapsible memory depth (PTE2PA (readPte memory table index)))
    (hdist : (table ::ₘ ((indices.map (subtree (tableChild memory) depth table)).sum +
        (memory.freelist : Multiset ℕ))).Nodup)
    (hman : ∀ pa ∈ (indices.map (subtree (tableChild memory) depth table)).sum,
      Managed memory pa) : ∃ after, indices.foldlM (freewalkEntry frames table) memory = .ok after ∧
      Collapses memory after table (indices.map (subtree (tableChild memory) depth table)).sum := by
  induction indices generalizing memory with
  | nil => exact ⟨memory, rfl, rfl, by simp, fun _ _ _ => rfl⟩
  | cons index indices ih =>
    rw [map_cons, sum_cons] at hdist hman ⊢
    rw [nodup_cons] at honce
    rw [Multiset.nodup_cons] at hdist
    obtain ⟨htable, hnd⟩ := hdist
    have hhere : table ∉ subtree (tableChild memory) depth table index := by
      intro hmem
      exact htable (Multiset.mem_add.mpr (Or.inl (Multiset.mem_add.mpr (Or.inl hmem))))
    have hhereFree : (subtree (tableChild memory) depth table index +
        (memory.freelist : Multiset ℕ)).Nodup := by
      refine Multiset.nodup_of_le ?_ hnd
      gcongr
      exact Multiset.le_add_right _ _
    obtain ⟨middle, he, hcollapse, hothers⟩ := freewalkEntry_spec hfrees
      (htree index mem_cons_self) hhereFree hhere
      fun pa hpa => hman pa (Multiset.mem_add.mpr (Or.inl hpa))
    have hout : ∀ other ∈ indices, ∀ pa ∈ subtree (tableChild memory) depth table other,
        middle.page pa = memory.page pa := by
      intro other ho pa hpa
      have hlater : pa ∈ (indices.map (subtree (tableChild memory) depth table)).sum :=
        Multiset.mem_of_le (single_le_sum (fun _ _ => Multiset.zero_le _) _ (mem_map_of_mem ho)) hpa
      apply hcollapse.frame
      · intro hmem
        have hpair := (Multiset.nodup_add.mp hnd).1
        exact Multiset.disjoint_left.mp (Multiset.nodup_add.mp hpair).2.2 hmem hlater
      · rintro rfl
        exact htable (Multiset.mem_add.mpr (Or.inl (Multiset.mem_add.mpr (Or.inr hlater))))
    have hread : ∀ other ∈ indices, readPte middle table other = readPte memory table other := by
      intro other ho
      apply hothers
      rintro rfl
      exact honce.1 ho
    have hmap : indices.map (subtree (tableChild middle) depth table) =
        indices.map (subtree (tableChild memory) depth table) :=
      map_congr_left fun other ho => subtree_congr (hread other ho) (hout other ho)
    have htree' : ∀ other ∈ indices, hasFlag (readPte middle table other) PTE_V →
        hasFlag (readPte middle table other) (PTE_R ||| PTE_W ||| PTE_X) = false ∧
        Collapsible middle depth (PTE2PA (readPte middle table other)) := by
      intro other ho hval
      rw [hread other ho] at hval ⊢
      obtain ⟨hplain, hbelow⟩ := htree other (mem_cons_of_mem _ ho) hval
      refine ⟨hplain, collapsible_congr ?_ hbelow⟩
      intro pa hpa
      apply hout other ho
      simpa [subtree, tableChild, hval] using hpa
    obtain ⟨after, hloop, hcollapse'⟩ := ih honce.2 middle htree' (by
        rw [hmap, hcollapse.freelist, Multiset.nodup_cons]
        have hmove : (indices.map (subtree (tableChild memory) depth table)).sum +
            (subtree (tableChild memory) depth table index + (memory.freelist : Multiset ℕ)) =
            subtree (tableChild memory) depth table index +
            (indices.map (subtree (tableChild memory) depth table)).sum +
              (memory.freelist : Multiset ℕ) := by
          abel
        rw [hmove]
        exact ⟨htable, hnd⟩)
      (by
        rw [hmap]
        intro pa hpa
        have hbefore := hman pa (Multiset.mem_add.mpr (Or.inr hpa))
        simpa only [Managed, hcollapse.kernelEnd] using hbefore)
    rw [hmap] at hcollapse'
    refine ⟨after, ?_, ?_, ?_, ?_⟩
    · rw [foldlM_cons, he, ok_bind, hloop]
    · rw [hcollapse'.kernelEnd, hcollapse.kernelEnd]
    · rw [hcollapse'.freelist, hcollapse.freelist]
      abel
    · intro pa hpa hne
      rw [Multiset.mem_add, not_or] at hpa
      rw [hcollapse'.frame pa hpa.2 hne, hcollapse.frame pa hpa.1 hne]

theorem freewalkEntries_invalid (frames : ℕ)
    (hinvalid : ∀ index, hasFlag (readPte memory table index) PTE_V = false)
    (indices : List (Fin 512)) :
    indices.foldlM (freewalkEntry frames table) memory = .ok memory := by
  induction indices with
  | nil => rfl
  | cons index indices ih =>
    have he : freewalkEntry frames table memory index = .ok memory := by
      simp [freewalkEntry, hinvalid index]
    rw [foldlM_cons, he, ok_bind, ih]

theorem nodes_succ_list (memory : Memory) (depth table : ℕ) :
    nodes (tableChild memory) (depth + 1) table = table ::ₘ
      (entryIndices.map (subtree (tableChild memory) depth table)).sum := by
  rw [nodes_succ, sum_entryIndices]

theorem collapses_root {freed : Multiset ℕ} (hcollapse : Collapses before after table freed)
    (hman : Managed before table) :
    ∃ final, kfree after table = .ok final ∧ Collapses before final table (table ::ₘ freed) := by
  have hafter : Managed after table := by simpa only [Managed, hcollapse.kernelEnd] using hman
  refine ⟨freePage after table, kfree_of_managed hafter, hcollapse.kernelEnd, ?_, ?_⟩
  · rw [freePage, ← Multiset.cons_coe, hcollapse.freelist, Multiset.cons_add]
  · intro pa hpa hne
    rw [Multiset.mem_cons, not_or] at hpa
    rw [freePage, fillPage_page_ne after 1 hne, hcollapse.frame pa hpa.2 hne]

theorem freesTrees (depth : ℕ) (hframes : depth < frames) :
    FreesTrees frames depth := by
  induction depth generalizing frames with
  | zero =>
    intro memory table htree hdist hman
    obtain ⟨frames, rfl⟩ := Nat.exists_eq_succ_of_ne_zero (Nat.pos_iff_ne_zero.mp hframes)
    rw [nodes_zero] at hman ⊢
    rw [Nat.succ_eq_add_one, freewalk_succ, freewalkEntries_invalid frames htree, ok_bind]
    exact collapses_root ⟨rfl, by simp, fun _ _ _ => rfl⟩
      (hman table (Multiset.mem_singleton_self table))
  | succ depth ih =>
    intro memory table htree hdist hman
    obtain ⟨frames, rfl⟩ := Nat.exists_eq_succ_of_ne_zero
      (Nat.ne_of_gt (lt_trans (Nat.succ_pos depth) hframes))
    rw [nodes_succ_list] at hdist hman ⊢
    rw [Multiset.cons_add] at hdist
    obtain ⟨middle, hloop, hcollapse⟩ := freewalkEntries_spec
      (ih (Nat.lt_of_succ_lt_succ hframes)) entryIndices
      nodup_entryIndices memory (fun index _ => htree index) hdist
      fun pa hpa => hman pa (Multiset.mem_cons_of_mem hpa)
    rw [Nat.succ_eq_add_one, freewalk_succ, hloop, ok_bind]
    exact collapses_root hcollapse (hman table (Multiset.mem_cons_self table _))

/-! ## Page tables without translations -/

theorem exists_address (top middle low : Fin 512) (htop : top.val < 256) :
    ∃ va < MAXVA, PX 2 va = top ∧ PX 1 va = middle ∧ PX 0 va = low := by
  refine ⟨top.val * 2 ^ 30 + middle.val * 2 ^ 21 + low.val * 2 ^ 12, ?_, ?_, ?_, ?_⟩
  · have hmiddle := middle.isLt
    have hlow := low.isLt
    rw [MAXVA_eq]
    omega
  · apply Fin.ext
    simp only [PX]
    omega
  · apply Fin.ext
    simp only [PX]
    omega
  · apply Fin.ext
    simp only [PX]
    omega

theorem collapsible_of_lookup
    (hinterior : InteriorPlain memory pagetable) (hupper : UpperUnused memory pagetable)
    (hnone : ∀ va, lookup memory pagetable va = none) : Collapsible memory 2 pagetable := by
  intro top htop
  refine ⟨hinterior [] pagetable top (by decide) rfl htop, ?_⟩
  have htopChild : tableChild memory pagetable top =
      some (PTE2PA (readPte memory pagetable top)) := by
    simp [tableChild, htop]
  intro middle hmiddle
  refine ⟨hinterior [top] _ middle Nat.one_lt_two (by simp [htopChild]) hmiddle, ?_⟩
  have hmiddleChild : tableChild memory (PTE2PA (readPte memory pagetable top)) middle =
      some (PTE2PA (readPte memory (PTE2PA (readPte memory pagetable top)) middle)) := by
    simp [tableChild, hmiddle]
  intro low
  by_contra hval
  rw [Bool.not_eq_false] at hval
  have hlower : top.val < 256 := by
    by_contra hle
    rw [hupper top (Nat.le_of_not_lt hle)] at htop
    exact absurd htop (by simp)
  obtain ⟨va, hva, rfl, rfl, rfl⟩ := exists_address top middle low hlower
  have hlow : lowTable memory pagetable va = some (PTE2PA (readPte memory
      (PTE2PA (readPte memory pagetable (PX 2 va))) (PX 1 va))) := by
    rw [lowTable, tablePath, descend_cons, htopChild, bind_some,
      descend_cons, hmiddleChild, bind_some, descend_nil]
  have hlook := hnone va
  rw [lookup_eq _ _ hva, hlow, bind_some, if_pos hval] at hlook
  exact absurd hlook (by simp)

/-- `after` is `before` with every page of the address space given back. -/
structure Released (before after : Memory) (pagetable : ℕ) : Prop where
  kernelEnd : after.kernelEnd = before.kernelEnd
  freelist : (after.freelist : Multiset ℕ) = holdings before pagetable
  frame : ∀ pa, pa ∉ holdings before pagetable → after.page pa = before.page pa

theorem freewalk_spec
    (hsound : Sound memory pagetable hand) (hnone : ∀ va, lookup memory pagetable va = none) :
    ∃ after, freewalk PGSIZE memory pagetable = .ok after ∧ Released memory after pagetable := by
  have hleaves : userLeaves memory pagetable = 0 := by
    rw [userLeaves, leafPages_none fun page _ _ => hnone (page * PGSIZE)]
    rfl
  have hholdings : holdings memory pagetable =
      tablePages memory pagetable + (memory.freelist : Multiset ℕ) := by
    rw [holdings, hleaves, add_zero]
  have hman : ∀ pa ∈ nodes (tableChild memory) 2 pagetable,
      Managed memory pa := by
    intro pa hpa
    apply hsound.managed
    rw [hholdings, Multiset.mem_add, Multiset.mem_add]
    exact Or.inr (Or.inl hpa)
  obtain ⟨after, hfree, hcollapse⟩ := freesTrees 2 (by decide : 2 < PGSIZE) memory pagetable
    (collapsible_of_lookup hsound.interior hsound.upper hnone)
    hsound.wellFormed.distinct hman
  refine ⟨after, hfree, hcollapse.kernelEnd, ?_, ?_⟩
  · rw [hcollapse.freelist, hholdings]
    rfl
  · intro pa hpa
    rw [hholdings, Multiset.mem_add, not_or] at hpa
    apply hcollapse.frame pa hpa.1
    rintro rfl
    exact hpa.1 (root_mem_nodes _ 2 pa)

/-- Releasing what is left of an address space after its pages were unmapped. -/
theorem conserves_released {middle : Memory} (hcons : Conserves before middle pagetable 0 0)
    (hrel : Released middle after pagetable) : Released before after pagetable := by
  have hholdings : holdings middle pagetable = holdings before pagetable := by
    simpa using hcons.pages
  refine ⟨hrel.kernelEnd.trans hcons.kernelEnd, ?_, ?_⟩
  · rw [hrel.freelist, hholdings]
  · intro pa hpa
    have hout : pa ∉ holdings middle pagetable := by
      rw [hholdings]
      exact hpa
    rw [hrel.frame pa hout, hcons.frame pa (by simpa)]

/-- `uvmfree` on an address space whose trampoline and trap frame are unmapped
returns and gives back all of it. -/
theorem uvmfree_spec {sz : ℕ}
    (hsound : Sound memory pagetable hand) (hfill : Filled memory pagetable (pageCount sz))
    (hhigh : ∀ va, userPages ≤ va / PGSIZE → lookup memory pagetable va = none) :
    ∃ after, uvmfree memory pagetable sz = .ok after ∧ Released memory after pagetable := by
  have hrange : 0 + pageCount sz ≤ userPages := by
    rw [Nat.zero_add]
    exact hfill.bound
  obtain ⟨middle, hunmap, hunmaps, hcons⟩ := conserves_uvmunmap hsound.drop_hand hrange
    (fun page _ hpage => hfill.present page (by omega)) true
  rw [if_pos rfl] at hcons
  have hnone : ∀ va, lookup middle pagetable va = none := by
    intro va
    rw [hunmaps]
    by_cases hpage : va / PGSIZE < pageCount sz
    · rw [if_pos ⟨Nat.zero_le _, by omega⟩]
    · rw [if_neg (by omega)]
      by_cases huser : va / PGSIZE < userPages
      · rw [← lookup_round, PGROUNDDOWN]
        exact hfill.absent _ (by omega) huser
      · exact hhigh va (by omega)
  obtain ⟨after, hfree, hrel⟩ := freewalk_spec (hcons.sound hsound.drop_hand) hnone
  refine ⟨after, ?_, conserves_released hcons hrel⟩
  · have hround : PGROUNDUP sz / PGSIZE = pageCount sz := by
      rw [PGROUNDUP_eq hfill.bound, page_mul_div]
    rw [Nat.zero_mul] at hunmap
    by_cases hsz : 0 < sz
    · simp only [uvmfree, hsz, if_true, hround, hunmap, ok_bind, hfree]
    · -- No page is unmapped, by the code as by the call described above.
      have hcount : pageCount sz = 0 := by
        obtain rfl : sz = 0 := by omega
        rfl
      have hsame : middle = memory := by
        rw [hcount] at hunmap
        exact (Except.ok.inj hunmap).symm
      simp only [uvmfree, hsz, if_false, pure_eq_ok, ok_bind, ← hsame, hfree]

end Xv6.TearDown
