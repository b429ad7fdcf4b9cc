import Xv6.Vm.PageTable

/-!
# Page tables as partial maps

What the functions of `kernel/vm.c` do to the translation `lookup`, to the
page-table pages and to the free list.  An allocating `walk` splices fresh
page-table pages into the tree and changes no translation; a store through the
entry it returns changes the translation of one page.
-/

namespace Xv6.PageMap

open Riscv Kalloc RadixTree PageTable

variable {memory : Memory} {first second : Memory} {pagetable va low : ℕ}
variable {other pa page table : ℕ} {index : Fin 512} {taken : List ℕ}

/-! ## Addresses -/

/-- Two addresses below `MAXVA` share all three indices exactly when they lie
in the same page. -/
theorem px_eq_iff {va : ℕ} (hva : va < MAXVA) (ho : other < MAXVA) :
    (PX 2 va = PX 2 other ∧ PX 1 va = PX 1 other ∧ PX 0 va = PX 0 other) ↔
      va / PGSIZE = other / PGSIZE := by
  simp only [PX, Fin.mk.injEq, PGSIZE_eq, MAXVA_eq] at *
  norm_num at *
  constructor
  · rintro ⟨htop, hmiddle, hlow⟩
    omega
  · intro hpage
    have hmiddle : ∀ a : ℕ, a / 2097152 = a / 4096 / 512 := by omega
    have htop : ∀ a : ℕ, a / 1073741824 = a / 4096 / 262144 := by omega
    rw [hmiddle, hmiddle, htop, htop, hpage]
    simp

theorem px_top_lt {va : ℕ} (hva : va < MAXVA) : (PX 2 va).val < 256 := by
  simp only [PX, MAXVA_eq] at *
  norm_num at *
  omega

theorem lookup_round (memory : Memory) (pagetable va : ℕ) :
    lookup memory pagetable (PGROUNDDOWN va) = lookup memory pagetable va := by
  have hpage : PGROUNDDOWN va / PGSIZE = va / PGSIZE := by
    simp only [PGROUNDDOWN, PGSIZE_eq]
    omega
  by_cases hva : va < MAXVA
  · have hround : PGROUNDDOWN va < MAXVA := lt_of_le_of_lt (Nat.div_mul_le_self va PGSIZE) hva
    obtain ⟨htop, hmiddle, hlow⟩ := (px_eq_iff hround hva).mpr hpage
    rw [lookup_eq _ _ hround, lookup_eq _ _ hva, lowTable, lowTable, tablePath,
      tablePath, htop, hmiddle, hlow]
  · have hround : MAXVA ≤ PGROUNDDOWN va := by
      simp only [PGROUNDDOWN, PGSIZE_eq, MAXVA_eq] at *
      omega
    rw [lookup_of_le _ _ hround, lookup_of_le _ _ (Nat.le_of_not_lt hva)]

theorem managed_lt (hman : Managed memory pa) : pa < 2 ^ 64 :=
  lt_of_lt_of_le hman.2.2 (by decide)

theorem managed_round (hman : Managed memory pa) : PGROUNDDOWN pa = pa := by
  have halign := hman.1
  simp only [PGROUNDDOWN, PGSIZE_eq] at *
  omega

theorem PTE2PA_tablePte (hman : Managed memory page) :
    PTE2PA (PA2PTE page ||| PTE_V) = page := by
  have hzero : PA2PTE page ||| PTE_V = leafPte page 0 := by simp [leafPte]
  rw [hzero, PTE2PA_leafPte (managed_lt hman) (by decide), managed_round hman]

theorem hasFlag_tablePte (page : ℕ) : hasFlag (PA2PTE page ||| PTE_V) PTE_V = true := by
  have hzero : PA2PTE page ||| PTE_V = leafPte page 0 := by simp [leafPte]
  rw [hzero, hasFlag_leafPte_V]

theorem hasFlag_tablePte_perm (page : ℕ) :
    hasFlag (PA2PTE page ||| PTE_V) (PTE_R ||| PTE_W ||| PTE_X) = false := by
  have hzero : (PA2PTE page ||| PTE_V) &&& (PTE_R ||| PTE_W ||| PTE_X) =
      0 := by
    apply BitVec.eq_of_getLsbD_eq
    intro bit hbit
    by_cases hlow : bit < 4
    · interval_cases bit <;> simp [PA2PTE, PTE_V, PTE_R, PTE_W, PTE_X]
    · have hmask : (PTE_R ||| PTE_W ||| PTE_X).getLsbD bit = false := by
        apply Nat.testBit_lt_two_pow
        calc
          (PTE_R ||| PTE_W ||| PTE_X).toNat < 2 ^ 4 := by decide
          _ ≤ 2 ^ bit := Nat.pow_le_pow_right (by norm_num) (by omega)
      simp [hmask]
  simp [hasFlag, hzero]

/-! ## Frames -/

theorem tableChild_congr (hpage : second.page table = first.page table) :
    tableChild second table = tableChild first table := by
  funext index
  simp only [tableChild, readPte_congr hpage]

theorem tablePages_congr (hpage : ∀ pa ∈ tablePages first pagetable,
    second.page pa = first.page pa) : tablePages second pagetable = tablePages first pagetable := by
  apply nodes_congr
  intro path found hlen hpath
  exact tableChild_congr (hpage found (mem_nodes_of_descend (Nat.le_of_lt hlen) hpath))

theorem lowTable_congr (hpage : ∀ pa ∈ tablePages first pagetable,
      second.page pa = first.page pa) (va : ℕ) :
    lowTable second pagetable va = lowTable first pagetable va := by
  refine descend_congr 2 ?_ (le_refl _)
  intro path found hlen hpath
  exact tableChild_congr (hpage found (mem_nodes_of_descend (Nat.le_of_lt hlen) hpath))

theorem lowTable_mem (hlow : lowTable memory pagetable va = some low) :
    low ∈ tablePages memory pagetable :=
  mem_nodes_of_descend (le_refl _) hlow

theorem lookup_congr (hpage : ∀ pa ∈ tablePages first pagetable,
      second.page pa = first.page pa) (va : ℕ) :
    lookup second pagetable va = lookup first pagetable va := by
  by_cases hva : va < MAXVA
  · rw [lookup_eq _ _ hva, lookup_eq _ _ hva, lowTable_congr hpage]
    cases hlow : lowTable first pagetable va with
    | none => rw [Option.bind_none, Option.bind_none]
    | some low => simp only [Option.bind_some, readPte_congr (hpage low (lowTable_mem hlow))]
  · rw [lookup_of_le _ _ (Nat.le_of_not_lt hva), lookup_of_le _ _ (Nat.le_of_not_lt hva)]

theorem interiorPlain_congr (hpage : ∀ pa ∈ tablePages first pagetable,
      second.page pa = first.page pa) (hinterior : InteriorPlain first pagetable) :
    InteriorPlain second pagetable := by
  intro path table index hlen hpath hval
  have hold : descend (tableChild first) path pagetable = some table := by
    rw [← hpath]
    symm
    refine descend_congr 2 ?_ (Nat.le_of_lt hlen)
    intro route found hroute hf
    exact tableChild_congr (hpage found (mem_nodes_of_descend (Nat.le_of_lt hroute) hf))
  have hread := readPte_congr (hpage table (mem_nodes_of_descend (Nat.le_of_lt hlen) hold))
  rw [hread] at hval ⊢
  exact hinterior path table index hlen hold hval

/-! ## Splicing in a page-table page -/

/-- The store of `walk` that links a freshly zeroed page-table page. -/
def linkTable (memory : Memory) (table : ℕ) (index : Fin 512) (page : ℕ) :
    Memory :=
  writePte (fillPage memory page 0) table index (PA2PTE page ||| PTE_V)

theorem linkTable_page_ne (memory : Memory) (index : Fin 512)
    (htable : pa ≠ table) (hpage : pa ≠ page) :
    (linkTable memory table index page).page pa = memory.page pa := by
  rw [linkTable, writePte_page_ne _ _ _ _ htable, fillPage_page_ne _ _ hpage]

theorem spliced_linkTable (hman : Managed memory page) (hne : page ≠ table)
    (hfree : tableChild memory table index = none) : Spliced (tableChild memory)
      (tableChild (linkTable memory table index page)) table index page := by
  constructor
  · exact hfree
  · simp only [tableChild, linkTable, readPte_writePte_same,
      hasFlag_tablePte, if_true, PTE2PA_tablePte hman]
  · intro slot
    have hread : readPte (linkTable memory table index page) page slot = 0 := by
      rw [linkTable, readPte_writePte_ne _ _ _ _ _ _ (Or.inl hne), readPte_fillPage_zero]
    simp [tableChild, hread]
  · intro node htable hpage
    exact tableChild_congr (linkTable_page_ne memory index htable hpage)
  · intro slot hslot
    have hread : readPte (linkTable memory table index page) table slot =
        readPte memory table slot := by
      rw [linkTable, readPte_writePte_ne _ _ _ _ _ _ (Or.inr hslot)]
      exact congrFun (readPte_congr (fillPage_page_ne memory 0 (Ne.symm hne))) slot
    simp only [tableChild, hread]

theorem lookup_linkTable {pagetable : ℕ} {path : List (Fin 512)}
    (hnd : (tablePages memory pagetable).Nodup) (hman : Managed memory page)
    (hfresh : page ∉ tablePages memory pagetable) (hlen : path.length < 2)
    (hpath : descend (tableChild memory) path pagetable = some table)
    (hfree : tableChild memory table index = none) (va : ℕ) :
    lookup (linkTable memory table index page) pagetable va = lookup memory pagetable va := by
  have hmem : table ∈ tablePages memory pagetable := mem_nodes_of_descend (Nat.le_of_lt hlen) hpath
  have hne : page ≠ table := by
    rintro rfl
    exact hfresh hmem
  have hspliced := spliced_linkTable hman hne hfree
  by_cases hva : va < MAXVA
  · rw [lookup_eq _ _ hva, lookup_eq _ _ hva]
    by_cases htarget : tablePath va = path ++ [index]
    · -- The new table is the last-level table for `va`: it has no entries.
      have hnew : lowTable (linkTable memory table index page) pagetable va =
          some page := by
        rw [lowTable, htarget]
        exact descend_spliced_fresh hspliced hlen hpath hnd hfresh
      have hold : lowTable memory pagetable va = none := by
        rw [lowTable, htarget, descend_append, hpath]
        simp [hfree]
      have hread : readPte (linkTable memory table index page) page (PX 0 va) = 0 := by
        rw [linkTable, readPte_writePte_ne _ _ _ _ _ _ (Or.inl hne), readPte_fillPage_zero]
      simp [hnew, hold, hread]
    · have hsame : lowTable (linkTable memory table index page) pagetable va =
          lowTable memory pagetable va :=
        descend_spliced_of_ne hspliced hlen hpath hnd hfresh (le_refl _) htarget
      rw [hsame]
      cases hlow : lowTable memory pagetable va with
      | none => rw [Option.bind_none, Option.bind_none]
      | some low =>
        -- A last-level table lies deeper than the table that was written.
        have htable : low ≠ table := by
          rintro rfl
          have hpaths := descend_injective hnd (Nat.le_of_lt hlen)
            (le_refl (tablePath va).length) hpath hlow
          rw [hpaths] at hlen
          exact absurd hlen (by simp [tablePath])
        have hpage : low ≠ page := by
          rintro rfl
          exact hfresh (lowTable_mem hlow)
        simp only [Option.bind_some, readPte_congr (linkTable_page_ne memory index htable hpage)]
  · simp [lookup, walk, Nat.le_of_not_lt hva]

theorem upperUnused_congr (hroot : second.page pagetable = first.page pagetable)
    (hupper : UpperUnused first pagetable) : UpperUnused second pagetable := by
  intro index hi
  rw [readPte_congr hroot]
  exact hupper index hi

/-! ## What an allocating walk does -/

/-- `after` is `before` with the free pages `taken` made page-table pages of the
page table; what its entries translate is not said here. -/
structure Grown (before after : Memory) (pagetable : ℕ) (taken : List ℕ) :
    Prop where
  kernelEnd : after.kernelEnd = before.kernelEnd
  freelist : before.freelist = taken ++ after.freelist
  pages : tablePages after pagetable = (taken : Multiset ℕ) + tablePages before pagetable
  frame : ∀ pa, pa ∉ tablePages before pagetable → pa ∉ taken → after.page pa = before.page pa
  interior : InteriorPlain before pagetable → InteriorPlain after pagetable
  upper : UpperUnused before pagetable → UpperUnused after pagetable

theorem Grown.refl (memory : Memory) (pagetable : ℕ) : Grown memory memory pagetable [] :=
  ⟨rfl, rfl, by simp, fun _ _ _ => rfl, id, id⟩

theorem Grown.trans {first second third : Memory}
    {more : List ℕ} (hfst : Grown first second pagetable taken)
    (hsnd : Grown second third pagetable more) : Grown first third pagetable (taken ++ more) := by
  constructor
  · rw [hsnd.kernelEnd, hfst.kernelEnd]
  · rw [hfst.freelist, hsnd.freelist, List.append_assoc]
  · rw [hsnd.pages, hfst.pages, ← Multiset.coe_add]
    abel
  · intro pa hpages htaken
    rw [List.mem_append, not_or] at htaken
    rw [hsnd.frame pa _ htaken.2, hfst.frame pa hpages htaken.1]
    rw [hfst.pages, Multiset.mem_add, not_or]
    exact ⟨by simpa using htaken.1, hpages⟩
  · intro hinterior
    exact hsnd.interior (hfst.interior hinterior)
  · intro hupper
    exact hsnd.upper (hfst.upper hupper)

theorem Grown.wellFormed {before after : Memory} (hgrown : Grown before after pagetable taken)
    (hwell : WellFormed before pagetable) : WellFormed after pagetable := by
  constructor
  · have hdist := hwell.distinct
    rw [hgrown.freelist, ← Multiset.coe_add] at hdist
    rw [hgrown.pages]
    convert hdist using 1
    abel
  · intro pa hpa
    have hman := hwell.managed pa (by
      rw [hgrown.freelist]
      exact List.mem_append_right _ hpa)
    simpa only [Managed, hgrown.kernelEnd] using hman
  · exact hgrown.interior hwell.interior

/-- The linked entry has no permission bits, and the new page has no valid
entries. -/
theorem interiorPlain_linkTable {pagetable : ℕ} {path : List (Fin 512)}
    (hnd : (tablePages memory pagetable).Nodup) (hman : Managed memory page)
    (hfresh : page ∉ tablePages memory pagetable) (hlen : path.length < 2)
    (hpath : descend (tableChild memory) path pagetable = some table)
    (hfree : tableChild memory table index = none) (hinterior : InteriorPlain memory pagetable) :
    InteriorPlain (linkTable memory table index page) pagetable := by
  have htable : table ∈ tablePages memory pagetable :=
    mem_nodes_of_descend (Nat.le_of_lt hlen) hpath
  have hne : page ≠ table := by
    rintro rfl
    exact hfresh htable
  have hspliced := spliced_linkTable hman hne hfree
  intro route found slot hroute hf hval
  by_cases hpage : found = page
  · subst hpage
    have hchild := hspliced.childless slot
    simp [tableChild, hval] at hchild
  · have hold : descend (tableChild memory) route pagetable = some found := by
      rw [← hf]
      symm
      apply descend_spliced_of_ne hspliced hlen hpath hnd hfresh (Nat.le_of_lt hroute)
      rintro rfl
      rw [descend_spliced_fresh hspliced hlen hpath hnd hfresh, Option.some.injEq] at hf
      exact hpage hf.symm
    by_cases he : found = table ∧ slot = index
    · obtain ⟨rfl, rfl⟩ := he
      rw [linkTable, readPte_writePte_same]
      exact hasFlag_tablePte_perm page
    · have hread : readPte (linkTable memory table index page) found slot =
          readPte memory found slot := by
        rw [linkTable, readPte_writePte_ne _ _ _ _ _ _ (by tauto)]
        exact congrFun (readPte_congr (fillPage_page_ne memory 0 hpage)) slot
      rw [hread] at hval ⊢
      exact hinterior route found slot hroute hold hval

theorem grown_linkTable {pagetable : ℕ}
    {rest : List ℕ} {path : List (Fin 512)}
    (hwell : WellFormed memory pagetable)
    (hfree : memory.freelist = page :: rest) (hlen : path.length < 2)
    (hpath : descend (tableChild memory) path pagetable = some table)
    (hslot : tableChild memory table index = none)
    (hlower : path = [] → index.val < 256) :
    let next := linkTable { fillPage memory page 5 with freelist := rest } table index page
    Grown memory next pagetable [page] ∧
      (∀ va, lookup next pagetable va = lookup memory pagetable va) ∧
      descend (tableChild next) (path ++ [index]) pagetable = some page := by
  intro next
  have hman : Managed memory page :=
    hwell.managed page (by rw [hfree]; exact List.mem_cons_self)
  have hfresh : page ∉ tablePages memory pagetable := by
    intro hmem
    exact hwell.not_mem_freelist hmem (by rw [hfree]; exact List.mem_cons_self)
  -- The junk fill of `kalloc` is invisible: the page is outside the tree.
  let popped : Memory := { fillPage memory page 5 with freelist := rest }
  have hpopped : ∀ pa ∈ tablePages memory pagetable, popped.page pa = memory.page pa := by
    intro pa hpa
    apply fillPage_page_ne
    rintro rfl
    exact hfresh hpa
  have hpages : tablePages popped pagetable = tablePages memory pagetable :=
    tablePages_congr hpopped
  have hpathPopped : descend (tableChild popped) path pagetable =
      some table := by
    rw [← hpath]
    refine descend_congr 2 ?_ (Nat.le_of_lt hlen)
    intro route found hroute hf
    exact tableChild_congr (hpopped found (mem_nodes_of_descend (Nat.le_of_lt hroute) hf))
  have htable : table ∈ tablePages memory pagetable :=
    mem_nodes_of_descend (Nat.le_of_lt hlen) hpath
  have hslotPopped : tableChild popped table index = none := by
    rw [tableChild_congr (hpopped table htable), hslot]
  have hne : page ≠ table := by
    rintro rfl
    exact hfresh htable
  have hnd : (tablePages popped pagetable).Nodup := by
    rw [hpages]
    exact hwell.nodup_tablePages
  have hfreshPopped : page ∉ tablePages popped pagetable := by
    rw [hpages]
    exact hfresh
  have hspliced : Spliced (tableChild popped) (tableChild next) table index
      page := spliced_linkTable hman hne hslotPopped
  refine ⟨⟨rfl, hfree, ?_, ?_, ?_, ?_⟩, ?_, ?_⟩
  · have hnodes : tablePages next pagetable = page ::ₘ tablePages popped pagetable :=
      nodes_spliced hspliced hlen hpathPopped hnd hfreshPopped
    rw [hnodes, hpages]
    rfl
  · intro pa hpa htaken
    have hpage : pa ≠ page := by simpa using htaken
    have htable' : pa ≠ table := by
      rintro rfl
      exact hpa htable
    calc
      next.page pa = popped.page pa := linkTable_page_ne popped index htable' hpage
      _ = memory.page pa := fillPage_page_ne memory 5 hpage
  · intro hinterior
    exact interiorPlain_linkTable hnd hman hfreshPopped hlen
      hpathPopped hslotPopped (interiorPlain_congr hpopped hinterior)
  · intro hupper slot hslot'
    have hroot : pagetable ∈ tablePages memory pagetable := root_mem_nodes _ 2 pagetable
    have hpageRoot : pagetable ≠ page := by
      rintro rfl
      exact hfresh hroot
    have he : pagetable ≠ table ∨ slot ≠ index := by
      by_contra hboth
      rw [not_or, not_not, not_not] at hboth
      obtain ⟨rfl, rfl⟩ := hboth
      have hnil : path = [] := descend_injective hwell.nodup_tablePages
        (Nat.le_of_lt hlen) (Nat.zero_le 2) hpath (descend_nil _ _)
      have hi := hlower hnil
      omega
    have hread : readPte next pagetable slot = readPte memory pagetable slot := by
      calc
        readPte next pagetable slot = readPte (fillPage popped page 0) pagetable slot :=
          readPte_writePte_ne _ _ _ _ _ _ he
        _ = readPte popped pagetable slot :=
          congrFun (readPte_congr (fillPage_page_ne popped 0 hpageRoot)) slot
        _ = readPte memory pagetable slot := congrFun (readPte_congr (hpopped pagetable hroot)) slot
    rw [hread]
    exact hupper slot hslot'
  · intro va
    calc
      lookup next pagetable va = lookup popped pagetable va :=
        lookup_linkTable hnd hman hfreshPopped hlen hpathPopped hslotPopped va
      _ = lookup memory pagetable va := lookup_congr hpopped va
  · exact descend_spliced_fresh hspliced hlen hpathPopped hnd hfreshPopped

theorem grown_walkLevels (va : ℕ) (levels : List ℕ) {path : List (Fin 512)}
    (hwell : WellFormed memory pagetable)
    (hlen : path.length + levels.length = 2)
    (hpath : descend (tableChild memory) path pagetable = some table)
    (hlower : path = [] → ∀ level ∈ levels.head?, (PX level va).val < 256) :
    ∃ taken, Grown memory (walkLevels va true levels memory table).2 pagetable taken ∧
      (∀ other, lookup (walkLevels va true levels memory table).2 pagetable
        other = lookup memory pagetable other) ∧
      ((walkLevels va true levels memory table).1 = none →
        (walkLevels va true levels memory table).2.freelist = []) ∧
      ∀ low, (walkLevels va true levels memory table).1 = some low →
        descend (tableChild (walkLevels va true levels memory table).2)
          (path ++ levels.map fun level => PX level va) pagetable =
            some low := by
  induction levels generalizing memory table path with
  | nil =>
    refine ⟨[], Grown.refl memory pagetable, fun _ => rfl, by simp [walkLevels], ?_⟩
    intro low hlow
    simp only [walkLevels, Option.some.injEq] at hlow
    simpa [walkLevels, hlow] using hpath
  | cons level levels ih =>
    have hlength' : path.length < 2 := by
      rw [List.length_cons] at hlen
      omega
    have hnext : (path ++ [PX level va]).length + levels.length = 2 := by
      rw [List.length_append, List.length_singleton]
      rw [List.length_cons] at hlen
      omega
    have happend : path ++ (level :: levels).map (fun level => PX level va) =
        (path ++ [PX level va]) ++ levels.map fun level => PX level va := by
      simp
    rw [happend]
    by_cases hval : hasFlag (readPte memory table (PX level va)) PTE_V
    · have hchild : tableChild memory table (PX level va) =
          some (PTE2PA (readPte memory table (PX level va))) := by
        simp [tableChild, hval]
      have hwalk : walkLevels va true (level :: levels) memory table =
          walkLevels va true levels memory (PTE2PA (readPte memory table (PX level va))) := by
        rw [walkLevels]
        simp only [hval, if_true]
      rw [hwalk]
      refine ih hwell hnext ?_ (by simp)
      rw [descend_append, hpath]
      simp [hchild]
    · have hslot : tableChild memory table (PX level va) = none := by simp [tableChild, hval]
      cases hfree : memory.freelist with
      | nil =>
        have hwalk : walkLevels va true (level :: levels) memory table = (none, memory) := by
          rw [walkLevels]
          simp [hval, kalloc, hfree]
        rw [hwalk]
        exact ⟨[], Grown.refl memory pagetable, fun _ => rfl, fun _ => hfree, by simp⟩
      | cons page rest =>
        obtain ⟨hgrown, hlook, hf⟩ := grown_linkTable hwell hfree hlength'
          hpath hslot fun hnil => hlower hnil level rfl
        have hwalk : walkLevels va true (level :: levels) memory table = walkLevels va true levels
              (linkTable { fillPage memory page 5 with freelist := rest }
                table (PX level va) page) page := by
          rw [walkLevels]
          simp [hval, kalloc, hfree, linkTable]
        rw [hwalk]
        obtain ⟨taken, hmore, hlater, hnone, hlow⟩ :=
          ih (hgrown.wellFormed hwell) hnext hf (by simp)
        refine ⟨[page] ++ taken, hgrown.trans hmore, ?_, hnone, hlow⟩
        intro other
        rw [hlater, hlook]

/-- An allocating `walk` changes no translation.  It fails only when the free
list is empty; otherwise it returns the entry for the address. -/
theorem walk_alloc {pagetable va : ℕ} (hwell : WellFormed memory pagetable) (hva : va < MAXVA) :
    ∃ result after taken, walk memory pagetable va true = .ok (result, after) ∧
      Grown memory after pagetable taken ∧
      (∀ other, lookup after pagetable other = lookup memory pagetable other) ∧
      (result = none → after.freelist = []) ∧
      ∀ ref, result = some ref → lowTable after pagetable va = some ref.1 ∧ ref.2 = PX 0 va := by
  obtain ⟨taken, hgrown, hlook, hnone, hlow⟩ :=
    grown_walkLevels va [2, 1] hwell rfl (descend_nil _ pagetable) (by
      intro _ level hlevel
      obtain rfl : 2 = level := by simpa using hlevel
      exact px_top_lt hva)
  refine ⟨(walkLevels va true [2, 1] memory pagetable).1.map
      fun page => (page, PX 0 va), _, taken, ?_, hgrown, hlook, ?_, ?_⟩
  · rw [walk, if_neg (Nat.not_le.mpr hva)]
  · intro hres
    exact hnone (by simpa using hres)
  · intro ref href
    rw [Option.map_eq_some_iff] at href
    obtain ⟨low, hf, rfl⟩ := href
    exact ⟨hlow low hf, rfl⟩

/-! ## Storing a last-level entry -/

theorem interior_ne_lowTable {pagetable va low : ℕ}
    {path : List (Fin 512)} (hnd : (tablePages memory pagetable).Nodup)
    (hlow : lowTable memory pagetable va = some low) (hlen : path.length < 2)
    (hpath : descend (tableChild memory) path pagetable = some table) : table ≠ low := by
  rintro rfl
  have hpaths := descend_injective hnd (Nat.le_of_lt hlen)
    (le_refl (tablePath va).length) hpath hlow
  rw [hpaths] at hlen
  exact absurd hlen (by simp [tablePath])

theorem tablePages_writeLow (hnd : (tablePages memory pagetable).Nodup)
    (hlow : lowTable memory pagetable va = some low) (index : Fin 512) (pte : Pte) :
    tablePages (writePte memory low index pte) pagetable = tablePages memory pagetable := by
  apply nodes_congr
  intro path found hlen hpath
  exact tableChild_congr (writePte_page_ne memory low index pte
    (interior_ne_lowTable hnd hlow hlen hpath))

theorem lowTable_writeLow (hnd : (tablePages memory pagetable).Nodup)
    (hlow : lowTable memory pagetable va = some low) (index : Fin 512) (pte : Pte) (other : ℕ) :
    lowTable (writePte memory low index pte) pagetable other = lowTable memory pagetable other := by
  refine descend_congr 2 ?_ (le_refl _)
  intro path found hlen hpath
  exact tableChild_congr (writePte_page_ne memory low index pte
    (interior_ne_lowTable hnd hlow hlen hpath))

theorem interiorPlain_writeLow (hnd : (tablePages memory pagetable).Nodup)
    (hlow : lowTable memory pagetable va = some low) (index : Fin 512)
    (pte : Pte) (hinterior : InteriorPlain memory pagetable) :
    InteriorPlain (writePte memory low index pte) pagetable := by
  have hsame : ∀ path found, path.length < 2 →
      descend (tableChild memory) path pagetable = some found →
      (writePte memory low index pte).page found = memory.page found := by
    intro path found hlen hpath
    exact writePte_page_ne memory low index pte (interior_ne_lowTable hnd hlow hlen hpath)
  intro path table slot hlen hpath hval
  have hold : descend (tableChild memory) path pagetable = some table := by
    rw [← hpath]
    symm
    refine descend_congr 2 ?_ (Nat.le_of_lt hlen)
    intro route found hroute hf
    exact tableChild_congr (hsame route found hroute hf)
  rw [readPte_congr (hsame path table hlen hold)] at hval ⊢
  exact hinterior path table slot hlen hold hval

/-- A store through the entry of one page changes the translation of exactly
that page. -/
theorem lookup_writeLow {pagetable va low : ℕ}
    (hnd : (tablePages memory pagetable).Nodup) (hva : va < MAXVA)
    (hlow : lowTable memory pagetable va = some low) (pte : Pte) :
    lookup (writePte memory low (PX 0 va) pte) pagetable other =
      if other / PGSIZE = va / PGSIZE then
        (if hasFlag pte PTE_V then some pte else none)
      else lookup memory pagetable other := by
  by_cases ho : other < MAXVA
  swap
  · have hpage : other / PGSIZE ≠ va / PGSIZE := by
      simp only [PGSIZE_eq, MAXVA_eq] at *
      omega
    rw [if_neg hpage, lookup_of_le _ _ (Nat.le_of_not_lt ho),
      lookup_of_le _ _ (Nat.le_of_not_lt ho)]
  rw [lookup_eq _ _ ho, lookup_eq _ _ ho, lowTable_writeLow hnd hlow]
  by_cases hpage : other / PGSIZE = va / PGSIZE
  · obtain ⟨htop, hmiddle, hbottom⟩ := (px_eq_iff ho hva).mpr hpage
    have hsame : lowTable memory pagetable other = some low := by
      rw [← hlow, lowTable, lowTable, tablePath, tablePath, htop, hmiddle]
    rw [if_pos hpage, hsame, hbottom]
    simp only [Option.bind_some, readPte_writePte_same]
  · rw [if_neg hpage]
    cases hf : lowTable memory pagetable other with
    | none => rw [Option.bind_none, Option.bind_none]
    | some found =>
      have hne : found ≠ low ∨ PX 0 other ≠ PX 0 va := by
        by_contra hboth
        rw [not_or, not_not, not_not] at hboth
        obtain ⟨rfl, hbottom⟩ := hboth
        -- One table at the end of two paths, and one index in it.
        have hpaths := descend_injective hnd
          (le_refl (tablePath other).length) (le_refl (tablePath va).length)
          hf hlow
        simp only [tablePath, List.cons.injEq, and_true] at hpaths
        exact hpage ((px_eq_iff ho hva).mp ⟨hpaths.1, hpaths.2, hbottom⟩)
      simp only [Option.bind_some,
        readPte_writePte_ne memory low found (PX 0 va) (PX 0 other) pte hne]

theorem grown_writeLow (hnd : (tablePages memory pagetable).Nodup)
    (hlow : lowTable memory pagetable va = some low) (index : Fin 512) (pte : Pte) :
    Grown memory (writePte memory low index pte) pagetable [] := by
  have hroot : (writePte memory low index pte).page pagetable =
      memory.page pagetable :=
    writePte_page_ne memory low index pte
      (interior_ne_lowTable hnd hlow (by decide) (descend_nil _ pagetable))
  refine ⟨rfl, rfl, ?_, ?_, interiorPlain_writeLow hnd hlow index pte, upperUnused_congr hroot⟩
  · simpa using tablePages_writeLow hnd hlow index pte
  · intro pa hpa _
    apply writePte_page_ne
    rintro rfl
    exact hpa (lowTable_mem hlow)

/-- The entry that `walk` returns is valid exactly when the address has a
translation. -/
theorem hasFlag_lowEntry (hva : va < MAXVA) (hlow : lowTable memory pagetable va = some low) :
    hasFlag (readPte memory low (PX 0 va)) PTE_V = (lookup memory pagetable va).isSome := by
  rw [lookup_eq _ _ hva, hlow, Option.bind_some]
  cases hasFlag (readPte memory low (PX 0 va)) PTE_V with
  | false => rfl
  | true => rfl

/-! ## The empty page table -/

section Zeroed

variable {memory : Memory} {pagetable : ℕ}
variable (hzero : ∀ index, readPte memory pagetable index = 0)

include hzero

theorem tableChild_zeroed (index : Fin 512) : tableChild memory pagetable index = none := by
  simp [tableChild, hzero index]

theorem tablePages_zeroed : tablePages memory pagetable = {pagetable} :=
  nodes_childless (tableChild_zeroed hzero) 2

theorem lookup_zeroed (va : ℕ) : lookup memory pagetable va = none := by
  by_cases hva : va < MAXVA
  · have hlow : lowTable memory pagetable va = none := by
      rw [lowTable, tablePath, descend_cons, tableChild_zeroed hzero, Option.bind_none]
    rw [lookup_eq _ _ hva, hlow, Option.bind_none]
  · exact lookup_of_le _ _ (Nat.le_of_not_lt hva)

theorem interiorPlain_zeroed : InteriorPlain memory pagetable := by
  intro path table index hlen hpath hval
  cases path with
  | nil =>
    rw [descend_nil, Option.some.injEq] at hpath
    subst hpath
    rw [hzero index] at hval
    simp at hval
  | cons slot path =>
    rw [descend_cons, tableChild_zeroed hzero, Option.bind_none] at hpath
    exact absurd hpath (by simp)

theorem upperUnused_zeroed : UpperUnused memory pagetable := by
  intro index _
  rw [hzero index]
  exact hasFlag_zero PTE_V

end Zeroed

end Xv6.PageMap
