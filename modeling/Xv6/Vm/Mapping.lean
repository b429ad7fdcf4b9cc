import Xv6.Vm.PageMap

/-!
# Mapping and unmapping ranges of pages

The loops of `mappages` and `uvmunmap`.  Each is described by the pages that
move between the free list and the page table and by the translations that
change; the two descriptions compose from one page to a range and from one call
to a sequence of calls.
-/

namespace Xv6.Mapping

open LittleEndian Riscv Kalloc PageTable PageMap RadixTree Outcome List Option

variable {memory after : Memory} {pagetable : ℕ} {doFree : Bool}
variable {before middle second : Memory} {first count pa a va size low page npages : ℕ}
  {perm pte : Pte} {mapped : Bool} {freed : List ℕ}

/-! ## One page of `mappages` -/

/-- The addresses of `count` pages from `first` on translate to the pages from
`pa` on; every other address translates as before. -/
def MapsPages (before after : Memory) (pagetable first count pa : ℕ) (perm : Pte) : Prop :=
  ∀ va, lookup after pagetable va =
    if first / PGSIZE ≤ va / PGSIZE ∧ va / PGSIZE < first / PGSIZE + count then
      some (leafPte (pa + (va / PGSIZE - first / PGSIZE) * PGSIZE) perm)
    else lookup before pagetable va

theorem mapsPages_zero {after : Memory}
    (hsame : ∀ va, lookup after pagetable va = lookup before pagetable va)
    (first pa : ℕ) (perm : Pte) : MapsPages before after pagetable first 0 pa perm := by
  intro va
  rw [if_neg (by omega), hsame]

theorem mapsPages_cons {after : Memory} {pagetable : ℕ}
    (hfst : MapsPages before middle pagetable first 1 pa perm)
    (hrest : MapsPages middle after pagetable (first + PGSIZE) count (pa + PGSIZE) perm) :
    MapsPages before after pagetable first (count + 1) pa perm := by
  intro va
  rw [hrest va, hfst va]
  have hnext : (first + PGSIZE) / PGSIZE = first / PGSIZE + 1 := Nat.add_div_right first (by decide)
  rw [hnext]
  by_cases hlater : first / PGSIZE + 1 ≤ va / PGSIZE ∧ va / PGSIZE < first / PGSIZE + 1 + count
  · have hoffset : pa + PGSIZE + (va / PGSIZE - (first / PGSIZE + 1)) * PGSIZE =
        pa + (va / PGSIZE - first / PGSIZE) * PGSIZE := by
      simp only [PGSIZE_eq] at *
      omega
    rw [if_pos hlater, if_pos (by omega), hoffset]
  · rw [if_neg hlater]
    by_cases hhere : va / PGSIZE = first / PGSIZE
    · rw [if_pos (by omega), if_pos (by omega)]
    · rw [if_neg (by omega), if_neg (by omega)]

theorem MapsPages.single {after : Memory} {pagetable : ℕ}
    (hmaps : MapsPages before after pagetable first 1 pa perm)
    (va : ℕ) :
    lookup after pagetable va =
      if va / PGSIZE = first / PGSIZE then some (leafPte pa perm)
      else lookup before pagetable va := by
  rw [hmaps va]
  by_cases hpage : va / PGSIZE = first / PGSIZE
  · rw [if_pos (by omega), if_pos hpage, hpage, Nat.sub_self, Nat.zero_mul, Nat.add_zero]
  · rw [if_neg (by omega), if_neg hpage]

theorem mappagesPage_fresh {pagetable : ℕ} (hwell : WellFormed memory pagetable) (ha : a < MAXVA)
    (hnone : lookup memory pagetable a = none) (pa : ℕ) (perm : Pte) :
    ∃ mapped after taken, mappagesPage memory pagetable a pa perm = .ok (mapped, after) ∧
      Grown memory after pagetable taken ∧ (mapped = false → after.freelist = []) ∧
      MapsPages memory after pagetable a mapped.toNat pa perm := by
  obtain ⟨result, middle, taken, hwalk, hgrown, hlook, hnil, hf⟩ := walk_alloc hwell ha
  cases result with
  | none =>
    refine ⟨false, middle, taken, ?_, hgrown, fun _ => hnil rfl, mapsPages_zero hlook a pa perm⟩
    rw [mappagesPage, hwalk]
    rfl
  | some ref =>
    obtain ⟨low, index⟩ := ref
    obtain ⟨hlow, rfl⟩ := hf _ rfl
    have hinvalid : hasFlag (loadPte middle (low, PX 0 a)) PTE_V = false := by
      rw [loadPte, hasFlag_lowEntry ha hlow, hlook, hnone]
      rfl
    have hnd := (hgrown.wellFormed hwell).nodup_tablePages
    refine ⟨true, writePte middle low (PX 0 a) (leafPte pa perm), taken ++ [],
      ?_, hgrown.trans (grown_writeLow hnd hlow _ _), by simp, ?_⟩
    · rw [mappagesPage, hwalk]
      simp only [bind, Except.bind, hinvalid]
      rfl
    · intro other
      rw [lookup_writeLow hnd ha hlow, hlook]
      by_cases hpage : other / PGSIZE = a / PGSIZE
      · simp [hpage]
      · rw [if_neg hpage, if_neg]
        simp only [Bool.toNat_true]
        omega

theorem mappagesPage_remap {pagetable : ℕ}
    (hsome : lookup memory pagetable a = some pte) (pa : ℕ) (perm : Pte) :
    mappagesPage memory pagetable a pa perm = .error .mappagesRemap := by
  obtain ⟨low, hlow, hread, hval⟩ := lookup_eq_some hsome
  rw [mappagesPage, walk_present true (lookup_lt hsome) hlow]
  simp only [bind, Except.bind, loadPte, hread, hval]
  rfl

theorem mappagesPage_walk {pagetable : ℕ} (ha : MAXVA ≤ a) (pa : ℕ) (perm : Pte) :
    mappagesPage memory pagetable a pa perm = .error .walk := by
  rw [mappagesPage, walk, if_pos ha]
  rfl

theorem mappagesPage_returns {pagetable : ℕ}
    (hpage : mappagesPage memory pagetable a pa perm = .ok (mapped, after)) :
    a < MAXVA ∧ lookup memory pagetable a = none := by
  constructor
  · by_contra hle
    rw [mappagesPage_walk (Nat.le_of_not_lt hle)] at hpage
    exact absurd hpage (by simp)
  · rw [eq_none_iff_forall_not_mem]
    intro pte hsome
    rw [mappagesPage_remap hsome] at hpage
    exact absurd hpage (by simp)

/-! ## The loop of `mappages` -/

/-- What the loop of `mappages` does when it returns: `count` pages are mapped,
and the last address ends the loop or is not among them. -/
theorem mappagesLoop_spec {pagetable last : ℕ} (fuel : ℕ) (hwell : WellFormed memory pagetable)
    (hloop : mappagesLoop pagetable last perm fuel memory a pa = .ok (mapped, after)) :
    ∃ count taken, Grown memory after pagetable taken ∧
      MapsPages memory after pagetable a count pa perm ∧
      (mapped = true → 0 < count ∧ last + PGSIZE = a + count * PGSIZE) ∧
      (mapped = false → after.freelist = [] ∧ ∀ index < count, a + index * PGSIZE ≠ last) := by
  induction fuel generalizing memory a pa with
  | zero => exact absurd hloop (by simp [mappagesLoop])
  | succ fuel ih =>
    rw [mappagesLoop, bind_eq_ok] at hloop
    obtain ⟨⟨done, middle⟩, hpage, hrest⟩ := hloop
    obtain ⟨ha, hnone⟩ := mappagesPage_returns hpage
    obtain ⟨done', middle', taken, hpage', hgrown, hnil, hmaps⟩ :=
      mappagesPage_fresh hwell ha hnone pa perm
    rw [hpage', Except.ok.injEq, Prod.mk.injEq] at hpage
    obtain ⟨rfl, rfl⟩ := hpage
    by_cases hstop : done' = false ∨ a = last
    · simp only [hstop, if_true, pure_eq_ok, Except.ok.injEq, Prod.mk.injEq] at hrest
      obtain ⟨rfl, rfl⟩ := hrest
      refine ⟨done'.toNat, taken, hgrown, hmaps, ?_, ?_⟩
      · rintro rfl
        have hlast : a = last := by simpa using hstop
        simp [hlast]
      · rintro rfl
        exact ⟨hnil rfl, by simp⟩
    · simp only [hstop, if_false] at hrest
      rw [not_or, Bool.not_eq_false] at hstop
      obtain ⟨rfl, hne⟩ := hstop
      obtain ⟨count, more, hgrown', hmaps', htrue, hfalse⟩ := ih (hgrown.wellFormed hwell) hrest
      refine ⟨count + 1, taken ++ more, hgrown.trans hgrown', mapsPages_cons hmaps hmaps', ?_, ?_⟩
      · intro hmapped
        refine ⟨Nat.succ_pos count, ?_⟩
        rw [(htrue hmapped).2]
        ring
      · intro hmapped
        refine ⟨(hfalse hmapped).1, ?_⟩
        intro index hi
        cases index with
        | zero => simpa using hne
        | succ index =>
          have hlater := (hfalse hmapped).2 index (by omega)
          rwa [show a + (index + 1) * PGSIZE = a + PGSIZE + index * PGSIZE by ring]

theorem mappages_spec {pagetable : ℕ} (hwell : WellFormed memory pagetable)
    (hmap : mappages memory pagetable va size pa perm = .ok (mapped, after)) :
    ∃ count taken, Grown memory after pagetable taken ∧
      MapsPages memory after pagetable (PGROUNDDOWN va) count pa perm ∧
      (mapped = true → 0 < count ∧ PGROUNDDOWN ((va + size - 1) % 2 ^ 64) + PGSIZE =
          PGROUNDDOWN va + count * PGSIZE) ∧
      (mapped = false → after.freelist = [] ∧ ∀ index < count, PGROUNDDOWN va + index * PGSIZE ≠
          PGROUNDDOWN ((va + size - 1) % 2 ^ 64)) := by
  by_cases hsize : size = 0
  · simp [mappages, hsize] at hmap
  · simp only [mappages, hsize, if_false] at hmap
    exact mappagesLoop_spec _ hwell hmap

theorem mappages_eq_page {pagetable : ℕ} (hva : va < MAXVA)
    (halign : va % PGSIZE = 0) (pa : ℕ) (perm : Pte) : mappages memory pagetable va PGSIZE pa perm =
      mappagesPage memory pagetable va pa perm := by
  have hfst : PGROUNDDOWN va = va := Nat.div_mul_cancel (Nat.dvd_of_mod_eq_zero halign)
  have hlast : PGROUNDDOWN ((va + PGSIZE - 1) % 2 ^ 64) = va := by
    simp only [PGROUNDDOWN, PGSIZE_eq, MAXVA_eq] at hva halign ⊢
    omega
  have hfuel : MAXVA / PGSIZE + 1 - va / PGSIZE = (MAXVA / PGSIZE - va / PGSIZE) + 1 := by
    simp only [PGSIZE_eq, MAXVA_eq] at hva ⊢
    omega
  have hsize : PGSIZE ≠ 0 := by decide
  simp only [mappages, hsize, if_false, hfst, hlast, hfuel, mappagesLoop, or_true, if_true]
  cases mappagesPage memory pagetable va pa perm with
  | error panic => rfl
  | ok result => rfl

theorem mappages_single {pagetable : ℕ} (hwell : WellFormed memory pagetable) (hva : va < MAXVA)
    (halign : va % PGSIZE = 0) (hnone : lookup memory pagetable va = none) (pa : ℕ) (perm : Pte) :
    ∃ mapped after taken, mappages memory pagetable va PGSIZE pa perm = .ok (mapped, after) ∧
      Grown memory after pagetable taken ∧ (mapped = false → after.freelist = []) ∧
      MapsPages memory after pagetable va mapped.toNat pa perm := by
  obtain ⟨mapped, after, taken, hpage, hspec⟩ := mappagesPage_fresh hwell hva hnone pa perm
  refine ⟨mapped, after, taken, ?_, hspec⟩
  rw [mappages_eq_page hva halign, hpage]

/-! ## One page of `uvmunmap` -/

/-- `after` is `before` with the pages `freed` put on the free list, and with
the same page-table pages. -/
structure Shrunk (before after : Memory) (pagetable : ℕ) (freed : List ℕ) :
    Prop where
  kernelEnd : after.kernelEnd = before.kernelEnd
  freelist : after.freelist = freed ++ before.freelist
  pages : tablePages after pagetable = tablePages before pagetable
  frame : ∀ pa, pa ∉ tablePages before pagetable → pa ∉ freed → after.page pa = before.page pa
  interior : InteriorPlain before pagetable → InteriorPlain after pagetable
  upper : UpperUnused before pagetable → UpperUnused after pagetable

theorem Shrunk.refl (memory : Memory) (pagetable : ℕ) : Shrunk memory memory pagetable [] :=
  ⟨rfl, rfl, rfl, fun _ _ _ => rfl, id, id⟩

theorem Shrunk.trans {first third : Memory}
    {more : List ℕ} (hfst : Shrunk first second pagetable freed)
    (hsnd : Shrunk second third pagetable more) : Shrunk first third pagetable (more ++ freed) := by
  constructor
  · rw [hsnd.kernelEnd, hfst.kernelEnd]
  · rw [hsnd.freelist, hfst.freelist, append_assoc]
  · rw [hsnd.pages, hfst.pages]
  · intro pa hpages hfreed
    rw [mem_append, not_or] at hfreed
    have hpages' : pa ∉ tablePages second pagetable := by
      rw [hfst.pages]
      exact hpages
    rw [hsnd.frame pa hpages' hfreed.1, hfst.frame pa hpages hfreed.2]
  · intro hinterior
    exact hsnd.interior (hfst.interior hinterior)
  · intro hupper
    exact hsnd.upper (hfst.upper hupper)

theorem Shrunk.wellFormed {after : Memory} (hshrunk : Shrunk before after pagetable freed)
    (hwell : WellFormed before pagetable) (hdist : (tablePages before pagetable +
      (before.freelist : Multiset ℕ) + (freed : Multiset ℕ)).Nodup)
    (hman : ∀ pa ∈ freed, Managed before pa) : WellFormed after pagetable := by
  constructor
  · rw [hshrunk.pages, hshrunk.freelist, ← Multiset.coe_add]
    convert hdist using 1
    abel
  · intro pa hpa
    rw [hshrunk.freelist, mem_append] at hpa
    have hbefore : Managed before pa := hpa.elim (hman pa) (hwell.managed pa)
    simpa only [Managed, hshrunk.kernelEnd] using hbefore
  · exact hshrunk.interior hwell.interior

/-- The addresses of `count` pages from the page `first` on have no
translation; every other address translates as before. -/
def UnmapsPages (before after : Memory) (pagetable first count : ℕ) : Prop :=
  ∀ va, lookup after pagetable va =
    if first ≤ va / PGSIZE ∧ va / PGSIZE < first + count then none
    else lookup before pagetable va

/-- The physical pages that a range of virtual pages translates to. -/
def leafPages (memory : Memory) (pagetable first count : ℕ) : List ℕ :=
  (List.range' first count).filterMap fun page =>
    (lookup memory pagetable (page * PGSIZE)).map PTE2PA

/-- The page has a translation to a leaf, as `uvmunmap` demands; if it is to be
freed, it is also a page of the allocator. -/
def Unmappable (memory : Memory) (pagetable va : ℕ) (doFree : Bool) : Prop :=
  ∃ pte, lookup memory pagetable va = some pte ∧ PTE_FLAGS pte ≠ PTE_V ∧
    (doFree = true → Managed memory (PTE2PA pte))

def freePage (memory : Memory) (pa : ℕ) : Memory :=
  { fillPage memory pa 1 with freelist := pa :: memory.freelist }

theorem freePage_page {pagetable : ℕ} (hout : pa ∉ tablePages memory pagetable) :
    ∀ table ∈ tablePages memory pagetable, (freePage memory pa).page table = memory.page table := by
  intro table htable
  apply fillPage_page_ne
  rintro rfl
  exact hout htable

theorem shrunk_freePage {pagetable : ℕ} (hout : pa ∉ tablePages memory pagetable) :
    Shrunk memory (freePage memory pa) pagetable [pa] := by
  have hsame := freePage_page hout
  refine ⟨rfl, rfl, tablePages_congr hsame, ?_, interiorPlain_congr hsame,
    upperUnused_congr (hsame pagetable (root_mem_nodes _ 2 pagetable))⟩
  intro other _ ho
  exact fillPage_page_ne memory 1 (by simpa using ho)

theorem shrunk_writeLow {pagetable : ℕ} (hnd : (tablePages memory pagetable).Nodup)
    (hlow : lowTable memory pagetable va = some low) (index : Fin 512) (pte : Pte) :
    Shrunk memory (writePte memory low index pte) pagetable [] := by
  have hgrown := grown_writeLow hnd hlow index pte
  refine ⟨rfl, rfl, ?_, hgrown.frame, hgrown.interior, hgrown.upper⟩
  simpa using hgrown.pages

theorem unmapsPages_writeLow {pagetable : ℕ}
    (hnd : (tablePages memory pagetable).Nodup) (hva : va < MAXVA)
    (hlow : lowTable memory pagetable va = some low) :
    UnmapsPages memory (writePte memory low (PX 0 va) 0) pagetable (va / PGSIZE) 1 := by
  intro other
  rw [lookup_writeLow hnd hva hlow]
  by_cases hpage : other / PGSIZE = va / PGSIZE
  · rw [if_pos hpage, if_neg (by simp [hasFlag]), if_pos (by omega)]
  · rw [if_neg hpage, if_neg (by omega)]

theorem uvmunmapPage_present {pagetable : ℕ}
    (hnd : (tablePages memory pagetable).Nodup)
    (hsome : lookup memory pagetable a = some pte)
    (hleaf : PTE_FLAGS pte ≠ PTE_V)
    (hman : doFree = true → Managed memory (PTE2PA pte))
    (hout : doFree = true → PTE2PA pte ∉ tablePages memory pagetable) :
    ∃ after, uvmunmapPage memory pagetable a doFree = .ok after ∧
      Shrunk memory after pagetable (if doFree then [PTE2PA pte] else []) ∧
      UnmapsPages memory after pagetable (a / PGSIZE) 1 := by
  obtain ⟨low, hlow, hread, hval⟩ := lookup_eq_some hsome
  have ha := lookup_lt hsome
  cases doFree with
  | false =>
    refine ⟨writePte memory low (PX 0 a) 0, ?_, shrunk_writeLow hnd hlow (PX 0 a) 0,
      unmapsPages_writeLow hnd ha hlow⟩
    rw [uvmunmapPage, walk_present false ha hlow]
    simp only [ok_bind, loadPte, hread, hval, hleaf]
    rfl
  | true =>
    have hsame := freePage_page (hout rfl)
    have hshrunk := shrunk_freePage (hout rfl)
    have hnodup' : (tablePages (freePage memory (PTE2PA pte)) pagetable).Nodup := by
      rw [hshrunk.pages]
      exact hnd
    have hlow' : lowTable (freePage memory (PTE2PA pte)) pagetable a =
        some low := by
      rw [lowTable_congr hsame, hlow]
    refine ⟨writePte (freePage memory (PTE2PA pte)) low (PX 0 a) 0, ?_,
      hshrunk.trans (shrunk_writeLow hnodup' hlow' (PX 0 a) 0), ?_⟩
    · rw [uvmunmapPage, walk_present false ha hlow]
      simp only [ok_bind, loadPte, hread, hval, hleaf, kfree_of_managed (hman rfl)]
      rfl
    · intro va
      rw [unmapsPages_writeLow hnodup' ha hlow' va, lookup_congr hsame]

theorem uvmunmapPage_returns {pagetable : ℕ}
    (hpage : uvmunmapPage memory pagetable a doFree = .ok after) :
    Unmappable memory pagetable a doFree := by
  have ha : a < MAXVA := by
    by_contra hle
    rw [uvmunmapPage, walk, if_pos (Nat.le_of_not_lt hle)] at hpage
    exact absurd hpage (by simp)
  rw [uvmunmapPage, walk_noalloc _ _ ha, ok_bind] at hpage
  cases hlow : lowTable memory pagetable a with
  | none =>
    rw [hlow] at hpage
    exact absurd hpage (by simp)
  | some low =>
    simp only [hlow, map_some, loadPte] at hpage
    by_cases hval : hasFlag (readPte memory low (PX 0 a)) PTE_V
    · by_cases hleaf : PTE_FLAGS (readPte memory low (PX 0 a)) = PTE_V
      · simp [hval, hleaf] at hpage
      · refine ⟨readPte memory low (PX 0 a), ?_, hleaf, ?_⟩
        · rw [lookup_eq _ _ ha, hlow, bind_some, if_pos hval]
        · rintro rfl
          by_contra hunmanaged
          simp [hval, hleaf, kfree, hunmanaged] at hpage
    · simp [hval] at hpage

/-! ## The loop of `uvmunmap` -/

theorem leafPages_succ (memory : Memory) (pagetable first count : ℕ) :
    leafPages memory pagetable first (count + 1) =
      ((lookup memory pagetable (first * PGSIZE)).map PTE2PA).toList ++
        leafPages memory pagetable (first + 1) count := by
  rw [leafPages, List.range'_succ, filterMap_cons]
  cases lookup memory pagetable (first * PGSIZE) with
  | none => rfl
  | some pte => rfl

theorem leafPages_append (memory : Memory) (pagetable first count more : ℕ) :
    leafPages memory pagetable first (count + more) = leafPages memory pagetable first count ++
        leafPages memory pagetable (first + count) more := by
  rw [leafPages, leafPages, leafPages, ← filterMap_append, List.range'_append_1]

theorem leafPages_none {pagetable : ℕ} (hnone : ∀ page, first ≤ page → page < first + count →
      lookup memory pagetable (page * PGSIZE) = none) :
    leafPages memory pagetable first count = [] := by
  rw [leafPages, filterMap_eq_nil_iff]
  intro page hpage
  rw [mem_range'_1] at hpage
  rw [hnone page hpage.1 hpage.2]
  rfl

theorem mem_leafPages {pagetable : ℕ} (hfst : first ≤ page) (hlast : page < first + count)
    (hsome : lookup memory pagetable (page * PGSIZE) = some pte) :
    PTE2PA pte ∈ leafPages memory pagetable first count := by
  rw [leafPages, mem_filterMap]
  refine ⟨page, mem_range'_1.mpr ⟨hfst, hlast⟩, ?_⟩
  rw [hsome]
  rfl

theorem leafPages_congr {first : Memory} {pagetable start : ℕ}
    (hsame : ∀ page, start ≤ page → page < start + count → lookup second pagetable (page * PGSIZE) =
        lookup first pagetable (page * PGSIZE)) : leafPages second pagetable start count =
      leafPages first pagetable start count := by
  apply filterMap_congr
  intro page hpage
  rw [mem_range'_1] at hpage
  rw [hsame page hpage.1 hpage.2]

theorem unmapsPages_cons {after : Memory} {pagetable : ℕ}
    (hfst : UnmapsPages before middle pagetable first 1)
    (hrest : UnmapsPages middle after pagetable (first + 1) count) :
    UnmapsPages before after pagetable first (count + 1) := by
  intro va
  rw [hrest va, hfst va]
  by_cases hlater : first + 1 ≤ va / PGSIZE ∧ va / PGSIZE < first + 1 + count
  · rw [if_pos hlater, if_pos (by omega)]
  · rw [if_neg hlater]
    by_cases hhere : va / PGSIZE = first
    · rw [if_pos (by omega), if_pos (by omega)]
    · rw [if_neg (by omega), if_neg (by omega)]

theorem page_mul_div (page : ℕ) : page * PGSIZE / PGSIZE = page :=
  Nat.mul_div_cancel page (by decide)

theorem unmapsPages_lookup_later {after : Memory} {pagetable : ℕ}
    (hunmaps : UnmapsPages before after pagetable first 1) (hpage : page ≠ first) :
    lookup after pagetable (page * PGSIZE) = lookup before pagetable (page * PGSIZE) := by
  rw [hunmaps, page_mul_div, if_neg (by omega)]

/-- Pages that are to be freed are distinct, are not free yet and are no
page-table pages: what the callers of `uvmunmap` with `do_free` promise. -/
def Releasable (memory : Memory) (pagetable first count : ℕ) : Prop :=
  (tablePages memory pagetable + (memory.freelist : Multiset ℕ) +
    (leafPages memory pagetable first count : Multiset ℕ)).Nodup

def freedPages (memory : Memory) (pagetable first count : ℕ) (doFree : Bool) :
    List ℕ :=
  if doFree then leafPages memory pagetable first count else []

theorem uvmunmapPage_step {pagetable : ℕ} (count : ℕ) (hwell : WellFormed memory pagetable)
    (hpage : Unmappable memory pagetable (first * PGSIZE) doFree)
    (hrelease : doFree = true → Releasable memory pagetable first (count + 1)) :
    ∃ middle freed, uvmunmapPage memory pagetable (first * PGSIZE) doFree = .ok middle ∧
      Shrunk memory middle pagetable freed ∧ UnmapsPages memory middle pagetable first 1 ∧
      WellFormed middle pagetable ∧
        (doFree = true → Releasable middle pagetable (first + 1) count) ∧
      freedPages memory pagetable first (count + 1) doFree =
        freed ++ freedPages middle pagetable (first + 1) count doFree := by
  obtain ⟨pte, hsome, hleaf, hman⟩ := hpage
  have hleaves : leafPages memory pagetable first (count + 1) =
      PTE2PA pte :: leafPages memory pagetable (first + 1) count := by
    rw [leafPages_succ, hsome]
    rfl
  have hnd : doFree = true → (tablePages memory pagetable +
      (memory.freelist : Multiset ℕ) + ((PTE2PA pte ::
        leafPages memory pagetable (first + 1) count : List ℕ) : Multiset ℕ)).Nodup := by
    intro hfree
    rw [← hleaves]
    exact hrelease hfree
  have hout : doFree = true → PTE2PA pte ∉ tablePages memory pagetable := by
    intro hfree hmem
    have hparts := (Multiset.nodup_add.mp (hnd hfree)).2.2
    exact Multiset.disjoint_left.mp hparts (Multiset.mem_add.mpr (Or.inl hmem)) (by simp)
  obtain ⟨middle, hreturns, hshrunk, hunmaps⟩ :=
    uvmunmapPage_present hwell.nodup_tablePages hsome hleaf hman hout
  rw [page_mul_div] at hunmaps
  have hlater : leafPages middle pagetable (first + 1) count =
      leafPages memory pagetable (first + 1) count := by
    apply leafPages_congr
    intro page hfst _
    exact unmapsPages_lookup_later hunmaps (by omega)
  refine ⟨middle, _, hreturns, hshrunk, hunmaps, ?_, ?_, ?_⟩
  · apply hshrunk.wellFormed hwell
    · cases doFree with
      | false => simpa using hwell.distinct
      | true =>
        refine Multiset.nodup_of_le ?_ (hnd rfl)
        simp only [if_true, add_le_add_iff_left, Multiset.coe_le]
        exact List.Sublist.subperm (by simp)
    · intro pa hpa
      cases doFree with
      | false => exact absurd hpa (by simp)
      | true =>
        have heq : pa = PTE2PA pte := by simpa using hpa
        exact heq ▸ hman rfl
  · rintro rfl
    rw [Releasable, hlater, hshrunk.pages, hshrunk.freelist]
    convert hnd rfl using 1
    simp only [if_true, ← Multiset.cons_coe, cons_append, nil_append,
      Multiset.add_cons, Multiset.cons_add]
  · cases doFree with
    | false => rfl
    | true => simp [freedPages, hleaves, hlater]

/-- The loop of `uvmunmap` returns when every page of the range can be unmapped,
and then removes exactly these translations. -/
theorem uvmunmapLoop_total (count : ℕ) (hwell : WellFormed memory pagetable)
    (hpres : ∀ page, first ≤ page → page < first + count →
      Unmappable memory pagetable (page * PGSIZE) doFree)
    (hrelease : doFree = true → Releasable memory pagetable first count) :
    ∃ after freed, uvmunmapLoop pagetable doFree count memory (first * PGSIZE) = .ok after ∧
      Shrunk memory after pagetable freed ∧ UnmapsPages memory after pagetable first count ∧
      WellFormed after pagetable ∧
      List.Perm freed (freedPages memory pagetable first count doFree) := by
  induction count generalizing memory first with
  | zero =>
    refine ⟨memory, [], rfl, Shrunk.refl memory pagetable, ?_, hwell, ?_⟩
    · intro va
      rw [if_neg (by omega)]
    · cases doFree with
      | false => exact List.Perm.refl []
      | true => exact List.Perm.refl []
  | succ count ih =>
    obtain ⟨middle, here, hreturns, hshrunk, hunmaps, hwell', hrelease',
      hfreed⟩ := uvmunmapPage_step count hwell (hpres first (le_refl first) (by omega)) hrelease
    have hpresent' : ∀ page, first + 1 ≤ page → page < first + 1 + count →
        Unmappable middle pagetable (page * PGSIZE) doFree := by
      intro page hfst hlast
      obtain ⟨pte, hsome, hleaf, hman⟩ := hpres page (by omega) (by omega)
      refine ⟨pte, ?_, hleaf, ?_⟩
      · rw [unmapsPages_lookup_later hunmaps (by omega), hsome]
      · simpa only [Managed, hshrunk.kernelEnd] using hman
    obtain ⟨after, later, hloop, hshrunk', hunmaps', hwell'', hperm⟩ :=
      ih hwell' hpresent' hrelease'
    refine ⟨after, later ++ here, ?_, hshrunk.trans hshrunk',
      unmapsPages_cons hunmaps hunmaps', hwell'', ?_⟩
    · rw [uvmunmapLoop, hreturns, ok_bind, ← Nat.succ_mul]
      exact hloop
    · rw [hfreed]
      exact perm_append_comm.trans (hperm.append_left here)

/-- Where the loop of `uvmunmap` returns, every page of the range could be
unmapped. -/
theorem uvmunmapLoop_returns (count : ℕ) (hwell : WellFormed memory pagetable)
    (hrelease : doFree = true → Releasable memory pagetable first count)
    (hloop : uvmunmapLoop pagetable doFree count memory (first * PGSIZE) = .ok after) :
    ∀ page, first ≤ page → page < first + count →
      Unmappable memory pagetable (page * PGSIZE) doFree := by
  induction count generalizing memory first with
  | zero =>
    intro page hfst hlast
    omega
  | succ count ih =>
    rw [uvmunmapLoop, bind_eq_ok] at hloop
    obtain ⟨middle, hpage, hrest⟩ := hloop
    have hhere := uvmunmapPage_returns hpage
    obtain ⟨middle', freed, hreturns, hshrunk, hunmaps, hwell', hrelease', -⟩ :=
      uvmunmapPage_step count hwell hhere hrelease
    rw [hreturns, Except.ok.injEq] at hpage
    subst hpage
    rw [← Nat.succ_mul] at hrest
    intro page hfst hlast
    by_cases heq : page = first
    · exact heq ▸ hhere
    · obtain ⟨pte, hsome, hleaf, hman⟩ := ih hwell' hrelease' hrest page (by omega) (by omega)
      refine ⟨pte, ?_, hleaf, ?_⟩
      · rw [← unmapsPages_lookup_later hunmaps heq, hsome]
      · simpa only [Managed, hshrunk.kernelEnd] using hman

/-- The number of iterations of the loop of `uvmunmap`. -/
def unmapCount (va npages : ℕ) : ℕ := ((va + npages * PGSIZE) % 2 ^ 64 - va) / PGSIZE

theorem uvmunmap_aligned {pagetable : ℕ} (halign : va % PGSIZE = 0) (npages : ℕ) (doFree : Bool) :
    uvmunmap memory pagetable va npages doFree =
      uvmunmapLoop pagetable doFree (unmapCount va npages) memory (va / PGSIZE * PGSIZE) := by
  have hround : va / PGSIZE * PGSIZE = va := Nat.div_mul_cancel (Nat.dvd_of_mod_eq_zero halign)
  rw [uvmunmap, hround, unmapCount]
  simp [halign]

theorem uvmunmap_spec {pagetable : ℕ} (hwell : WellFormed memory pagetable)
    (hrelease : doFree = true → Releasable memory pagetable (va / PGSIZE) (unmapCount va npages))
    (hunmap : uvmunmap memory pagetable va npages doFree = .ok after) :
    va % PGSIZE = 0 ∧ WellFormed after pagetable ∧
      (∃ freed, Shrunk memory after pagetable freed ∧ List.Perm freed
        (freedPages memory pagetable (va / PGSIZE) (unmapCount va npages) doFree)) ∧
      UnmapsPages memory after pagetable (va / PGSIZE) (unmapCount va npages) ∧
      ∀ page, va / PGSIZE ≤ page → page < va / PGSIZE + unmapCount va npages →
        Unmappable memory pagetable (page * PGSIZE) doFree := by
  have halign : va % PGSIZE = 0 := by
    by_contra hne
    simp [uvmunmap, hne] at hunmap
  rw [uvmunmap_aligned halign] at hunmap
  have hpres := uvmunmapLoop_returns _ hwell hrelease hunmap
  obtain ⟨after', freed, hloop, hshrunk, hunmaps, hwell', hperm⟩ :=
    uvmunmapLoop_total _ hwell hpres hrelease
  rw [hloop, Except.ok.injEq] at hunmap
  subst hunmap
  exact ⟨halign, hwell', ⟨freed, hshrunk, hperm⟩, hunmaps, hpres⟩

/-! ## Sequences of calls -/

/-- A memory reached by calls of `mappages` and `uvmunmap` on one page table.
Any call may fail to allocate; a caller that frees pages owns them. -/
inductive Edits (pagetable : ℕ) (start : Memory) : Memory → Prop where
  | start : Edits pagetable start start
  | mapped {memory after : Memory} {va size pa : ℕ} {perm : Pte}
      {result : Bool} (hrun : Edits pagetable start memory)
      (hcall : mappages memory pagetable va size pa perm =
        .ok (result, after)) : Edits pagetable start after
  | unmapped {memory after : Memory} {va npages : ℕ} {doFree : Bool}
      (hrun : Edits pagetable start memory)
      (howned : doFree = true → Releasable memory pagetable (va / PGSIZE) (unmapCount va npages))
      (hcall : uvmunmap memory pagetable va npages doFree = .ok after) :
      Edits pagetable start after

theorem edits_wellFormed {start memory : Memory} (hwell : WellFormed start pagetable)
    (hrun : Edits pagetable start memory) : WellFormed memory pagetable := by
  induction hrun with
  | start => exact hwell
  | mapped hrun hcall ih =>
    obtain ⟨count, taken, hgrown, -⟩ := mappages_spec ih hcall
    exact hgrown.wellFormed ih
  | unmapped hrun howned hcall ih => exact (uvmunmap_spec ih howned hcall).2.1

/-- The pages from `PGROUNDDOWN(va)` to `PGROUNDDOWN(va+size-1)`, as counting
up from the first one meets them; the sum is the wrapping one of `uint64`. -/
def InMapRange (va size other : ℕ) : Prop :=
  PGROUNDDOWN va ≤ PGROUNDDOWN other ∧ (PGROUNDDOWN other ≤ PGROUNDDOWN ((va + size - 1) % 2 ^ 64) ∨
      PGROUNDDOWN ((va + size - 1) % 2 ^ 64) < PGROUNDDOWN va)

/-- The pages from `va` up to `va + npages*PGSIZE`, with the wrapping sum of
`uint64`. -/
def InUnmapRange (va npages other : ℕ) : Prop :=
  va ≤ PGROUNDDOWN other ∧ PGROUNDDOWN other < (va + npages * PGSIZE) % 2 ^ 64

theorem mappages_lookup {pagetable : ℕ} (hwell : WellFormed memory pagetable)
    (hmap : mappages memory pagetable va size pa perm = .ok (true, after)) (other : ℕ) :
    (InMapRange va size other → lookup after pagetable other =
      some (leafPte (pa + (PGROUNDDOWN other - PGROUNDDOWN va)) perm)) ∧
    (¬InMapRange va size other → lookup after pagetable other = lookup memory pagetable other) := by
  obtain ⟨count, taken, -, hmaps, htrue, -⟩ := mappages_spec hwell hmap
  obtain ⟨hpos, hlast⟩ := htrue rfl
  have hrange : InMapRange va size other ↔ PGROUNDDOWN va / PGSIZE ≤ other / PGSIZE ∧
        other / PGSIZE < PGROUNDDOWN va / PGSIZE + count := by
    simp only [InMapRange, PGROUNDDOWN, PGSIZE_eq] at hlast ⊢
    omega
  have hoffset : (other / PGSIZE - PGROUNDDOWN va / PGSIZE) * PGSIZE =
      PGROUNDDOWN other - PGROUNDDOWN va := by
    simp only [PGROUNDDOWN, PGSIZE_eq]
    omega
  rw [hmaps other, hrange, hoffset]
  exact ⟨fun hin => if_pos hin, fun hout => if_neg hout⟩

theorem mappages_failed {pagetable : ℕ} (hwell : WellFormed memory pagetable)
    (hmap : mappages memory pagetable va size pa perm = .ok (false, after))
    {other : ℕ} (ho : ¬InMapRange va size other) :
    lookup after pagetable other = lookup memory pagetable other := by
  obtain ⟨count, taken, -, hmaps, -, hfalse⟩ := mappages_spec hwell hmap
  have hnotlast := (hfalse rfl).2
  rw [hmaps other, if_neg]
  rintro ⟨hfst, hlast⟩
  -- The last page of the range is not among the mapped ones.
  have hstop := hnotlast ((PGROUNDDOWN ((va + size - 1) % 2 ^ 64) - PGROUNDDOWN va) / PGSIZE)
  simp only [InMapRange, PGROUNDDOWN, PGSIZE_eq] at *
  omega

/-- A call of `uvmunmap` removes the translations of its range and nothing
else. -/
theorem uvmunmap_lookup {pagetable : ℕ} (hwell : WellFormed memory pagetable)
    (howned : doFree = true → Releasable memory pagetable (va / PGSIZE) (unmapCount va npages))
    (hunmap : uvmunmap memory pagetable va npages doFree = .ok after) (other : ℕ) :
    (InUnmapRange va npages other → (lookup memory pagetable other).isSome ∧
      lookup after pagetable other = none) ∧ (¬InUnmapRange va npages other →
      lookup after pagetable other = lookup memory pagetable other) := by
  obtain ⟨halign, -, -, hunmaps, hpres⟩ := uvmunmap_spec hwell howned hunmap
  have hrange : InUnmapRange va npages other ↔ va / PGSIZE ≤ other / PGSIZE ∧
      other / PGSIZE < va / PGSIZE + unmapCount va npages := by
    simp only [InUnmapRange, unmapCount, PGROUNDDOWN, PGSIZE_eq] at *
    omega
  rw [hunmaps other, hrange]
  refine ⟨fun hin => ⟨?_, if_pos hin⟩, fun hout => if_neg hout⟩
  obtain ⟨pte, hsome, -⟩ := hpres _ hin.1 hin.2
  rw [← lookup_round, PGROUNDDOWN, hsome]
  rfl

def blankMemory : Memory where
  kernelEnd := KERNBASE
  page := fun _ _ => 0
  freelist := [KERNBASE + 0x1000, KERNBASE + 0x2000, KERNBASE + 0x3000]

theorem readPte_blankMemory (table : ℕ) (index : Fin 512) : readPte blankMemory table index = 0 :=
  readU64_zero PGSIZE _

theorem wellFormed_blankMemory : WellFormed blankMemory KERNBASE := by
  refine ⟨?_, by decide, interiorPlain_zeroed (readPte_blankMemory KERNBASE)⟩
  rw [tablePages_zeroed (readPte_blankMemory KERNBASE)]
  decide

/-- Page tables implement a partial map: after any sequence of calls the page
table is well formed, and each further call edits the translation on exactly
its range. -/
theorem pageTable_implements_map {pagetable : ℕ} {start memory : Memory}
    (hwell : WellFormed start pagetable)
    (hrun : Edits pagetable start memory) :
    WellFormed memory pagetable ∧
    (∀ va size pa perm after, mappages memory pagetable va size pa perm = .ok (true, after) →
      WellFormed after pagetable ∧
      (∀ other, InMapRange va size other → IsPerm perm →
        ∃ pte, lookup after pagetable other = some pte ∧ PTE2PA pte = PGROUNDDOWN
            ((pa + (PGROUNDDOWN other - PGROUNDDOWN va)) % 2 ^ 64) ∧
          PTE_FLAGS pte = perm ||| PTE_V) ∧
      ∀ other, ¬InMapRange va size other →
        lookup after pagetable other = lookup memory pagetable other) ∧
    (∀ va size pa perm after, mappages memory pagetable va size pa perm = .ok (false, after) →
      WellFormed after pagetable ∧
      ∀ other, ¬InMapRange va size other →
        lookup after pagetable other = lookup memory pagetable other) ∧
    (∀ va npages doFree after, uvmunmap memory pagetable va npages doFree = .ok after →
      (doFree = true → Releasable memory pagetable (va / PGSIZE) (unmapCount va npages)) →
      WellFormed after pagetable ∧
      (∀ other, InUnmapRange va npages other → (lookup memory pagetable other).isSome ∧
          lookup after pagetable other = none) ∧
      ∀ other, ¬InUnmapRange va npages other →
        lookup after pagetable other = lookup memory pagetable other) := by
  have hwell' := edits_wellFormed hwell hrun
  refine ⟨hwell', ?_, ?_, ?_⟩
  · intro va size pa perm after hmap
    refine ⟨edits_wellFormed hwell (hrun.mapped hmap), ?_, ?_⟩
    · intro other hin hperm
      exact ⟨_, (mappages_lookup hwell' hmap other).1 hin,
        PTE2PA_leafPte_mod _ hperm, PTE_FLAGS_leafPte _ hperm⟩
    · intro other hout
      exact (mappages_lookup hwell' hmap other).2 hout
  · intro va size pa perm after hmap
    refine ⟨edits_wellFormed hwell (hrun.mapped hmap), ?_⟩
    intro other hout
    exact mappages_failed hwell' hmap hout
  · intro va npages doFree after hunmap howned
    refine ⟨edits_wellFormed hwell (hrun.unmapped howned hunmap), ?_, ?_⟩
    · intro other hin
      exact (uvmunmap_lookup hwell' howned hunmap other).1 hin
    · intro other hout
      exact (uvmunmap_lookup hwell' howned hunmap other).2 hout

/-- A page is mapped and taken away again. -/
theorem pageTable_implements_map_blank : WellFormed blankMemory KERNBASE ∧ ∃ memory after,
    mappages blankMemory KERNBASE 0x1000 PGSIZE (KERNBASE + 0x8000) PTE_R = .ok (true, memory) ∧
    uvmunmap memory KERNBASE 0x1000 1 false = .ok after ∧
    WellFormed after KERNBASE ∧ lookup after KERNBASE 0x1000 = none := by
  have hruns : ((mappages blankMemory KERNBASE 0x1000 PGSIZE (KERNBASE + 0x8000) PTE_R).bind
      fun result => (uvmunmap result.2 KERNBASE 0x1000 1 false).map fun _ => result.1) =
      .ok true := by
    decide +kernel
  cases hmap : mappages blankMemory KERNBASE 0x1000 PGSIZE (KERNBASE + 0x8000) PTE_R with
  | error panic =>
    rw [hmap] at hruns
    cases hruns
  | ok result =>
    obtain ⟨mapped, memory⟩ := result
    cases hunmap : uvmunmap memory KERNBASE 0x1000 1 false with
    | error panic =>
      rw [hmap, Except.bind, hunmap] at hruns
      cases hruns
    | ok after =>
      rw [hmap, Except.bind, hunmap] at hruns
      cases hruns
      have hedits := Edits.start.mapped hmap
      have hkept := (pageTable_implements_map wellFormed_blankMemory hedits).2.2.2 _ _ _ _ hunmap
        (fun hfree => absurd hfree (by decide))
      exact ⟨wellFormed_blankMemory, memory, after, rfl, hunmap, hkept.1,
        (hkept.2.1 _ ⟨by decide, by decide⟩).2⟩

end Xv6.Mapping
