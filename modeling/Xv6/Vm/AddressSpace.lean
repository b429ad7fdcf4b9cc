import Xv6.Vm.TearDown

/-!
# Growing and shrinking address spaces

What `uvmalloc`, `uvmdealloc` and their relatives do to a filled address space.  Each of
them returns, also when memory runs out at any of its allocations, and conserves the pages
it works with.
-/

namespace Xv6.AddressSpace

open LittleEndian Riscv Kalloc RadixTree PageTable PageMap Mapping UserMemory Ownership Outcome

variable {hand : Multiset ℕ} {memory : Memory} {before after : Memory}
variable {first pagetable page pa count oldsz mem va last : ℕ}
  {second third popped filled next middle : Memory} {perm pte : Pte}

/-- The translations of the trampoline and the trap frame are unchanged. -/
def HighSame (before after : Memory) (pagetable : ℕ) : Prop :=
  ∀ va, userPages ≤ va / PGSIZE → lookup after pagetable va = lookup before pagetable va

theorem HighSame.trans {first : Memory}
    (hfst : HighSame first second pagetable) (hsnd : HighSame second third pagetable) :
    HighSame first third pagetable := by
  intro va hva
  rw [hsnd va hva, hfst va hva]

theorem highSame_of_lookup (hsame : ∀ va, lookup after pagetable va = lookup before pagetable va) :
    HighSame before after pagetable := fun va _ => hsame va

theorem pageCount_mul (page : ℕ) : pageCount (page * PGSIZE) = page := by
  simp only [pageCount, PGSIZE_eq]
  omega

theorem pageCount_mono {first second : ℕ} (hle : first ≤ second) :
    pageCount first ≤ pageCount second :=
  Nat.div_le_div_right (by omega)

theorem filled_lt_TRAPFRAME (hfill : Filled memory pagetable page)
    (hsound : Sound memory pagetable hand) : page < userPages := by
  have hle := hfill.count_le hsound
  rw [userPages_eq]
  simp only [PGSIZE_eq, PHYSTOP_eq] at hle
  omega

theorem page_lt_TRAPFRAME (hpage : page < userPages) : page * PGSIZE < TRAPFRAME := by
  rw [userPages_eq] at hpage
  simp only [PGSIZE_eq, TRAPFRAME_eq]
  omega

theorem filled_map (hfill : Filled before pagetable page)
    (hmaps : MapsPages before after pagetable (page * PGSIZE) 1 pa perm)
    (hpage : page < userPages) (hleaf : PTE_FLAGS (leafPte pa perm) ≠ PTE_V) :
    Filled after pagetable (page + 1) := by
  refine ⟨hpage, ?_, ?_⟩
  · intro other ho
    by_cases heq : other = page
    · subst heq
      refine ⟨leafPte pa perm, ?_, hleaf⟩
      rw [hmaps, page_mul_div, if_pos (by omega), Nat.sub_self, Nat.zero_mul, Nat.add_zero]
    · rw [Present, hmaps, page_mul_div, page_mul_div, if_neg (by omega)]
      exact hfill.present other (by omega)
  · intro other hcount huser
    rw [hmaps, page_mul_div, page_mul_div, if_neg (by omega)]
    exact hfill.absent other (by omega) huser

theorem filled_unmap (hfill : Filled before pagetable count) (hfst : first ≤ count)
    (hunmaps : UnmapsPages before after pagetable first (count - first)) :
    Filled after pagetable first := by
  have hbound := hfill.bound
  refine ⟨by omega, ?_, ?_⟩
  · intro page hpage
    rw [Present, hunmaps, page_mul_div, if_neg (by omega)]
    exact hfill.present page (by omega)
  · intro page hpage huser
    rw [hunmaps, page_mul_div]
    by_cases hcount : page < count
    · rw [if_pos (by omega)]
    · rw [if_neg (by omega)]
      exact hfill.absent page (by omega) huser

/-! ## Contents of user pages -/

/-- The first `count` pages translate as before, to pages with the same bytes. -/
def KeepsData (before after : Memory) (pagetable count : ℕ) : Prop :=
  ∀ page < count, lookup after pagetable (page * PGSIZE) = lookup before pagetable (page * PGSIZE) ∧
    ∀ pte, lookup before pagetable (page * PGSIZE) = some pte →
      after.page (PTE2PA pte) = before.page (PTE2PA pte)

theorem KeepsData.refl (memory : Memory) (pagetable count : ℕ) :
    KeepsData memory memory pagetable count :=
  fun _ _ => ⟨rfl, fun _ _ => rfl⟩

theorem KeepsData.trans {first : Memory} (hfst : KeepsData first second pagetable count)
    (hsnd : KeepsData second third pagetable count) : KeepsData first third pagetable count := by
  intro page hpage
  obtain ⟨hlook, hdata⟩ := hfst page hpage
  obtain ⟨hlookup', hdata'⟩ := hsnd page hpage
  refine ⟨hlookup'.trans hlook, fun pte hsome => ?_⟩
  rw [hdata' pte (hlook.trans hsome), hdata pte hsome]

theorem KeepsData.mono {less : ℕ}
    (hkeeps : KeepsData before after pagetable count) (hless : less ≤ count) :
    KeepsData before after pagetable less :=
  fun page hpage => hkeeps page (by omega)

/-- The pages from `first` to `last` are user memory full of zeros. -/
def ZeroPages (memory : Memory) (pagetable first last : ℕ) : Prop :=
  ∀ page, first ≤ page → page < last → ∃ pa,
    lookup memory pagetable (page * PGSIZE) = some (leafPte pa PTE_USER) ∧
    memory.page (PTE2PA (leafPte pa PTE_USER)) = fun _ => 0

theorem leaf_outside (hsound : Sound memory pagetable hand)
    (hpage : page < userPages) (hsome : lookup memory pagetable (page * PGSIZE) = some pte) :
    PTE2PA pte ∉ tablePages memory pagetable ∧ PTE2PA pte ∉ memory.freelist := by
  have hleaf := mem_userLeaves hpage hsome
  have hnd := (Multiset.nodup_add.mp hsound.distinct).2.1
  rw [holdings, Multiset.nodup_add, Multiset.nodup_add] at hnd
  refine ⟨fun htable => ?_, fun hfree => ?_⟩
  · exact Multiset.disjoint_left.mp hnd.1.2.2 htable hleaf
  · exact Multiset.disjoint_left.mp hnd.2.2
      (Multiset.mem_add.mpr (Or.inr hleaf)) (Multiset.mem_coe.mpr hfree)

theorem leaf_not_mem (hsound : Sound memory pagetable hand) (hrange : first + count ≤ userPages)
    (hpage : page < first)
    (hsome : lookup memory pagetable (page * PGSIZE) = some pte) :
    PTE2PA pte ∉ leafPages memory pagetable first count := by
  have hnd := (Multiset.nodup_add.mp hsound.distinct).2.1
  rw [holdings, Multiset.nodup_add, Multiset.nodup_add,
    userLeaves_split memory pagetable hrange, Multiset.nodup_add,
    Multiset.nodup_add] at hnd
  intro hmem
  exact Multiset.disjoint_left.mp hnd.1.2.1.1.2.2
    (Multiset.mem_coe.mpr (mem_leafPages (Nat.zero_le page) (by omega) hsome))
    (Multiset.mem_coe.mpr hmem)

theorem leaf_inj {second : ℕ} {pte' : Pte}
    (hsound : Sound memory pagetable hand) (hfst : first < userPages) (hsnd : second < userPages)
    (hsome : lookup memory pagetable (first * PGSIZE) = some pte)
    (hsome' : lookup memory pagetable (second * PGSIZE) = some pte')
    (heq : PTE2PA pte = PTE2PA pte') : first = second := by
  rcases lt_trichotomy first second with hlt | hsame | hlt
  · refine absurd ?_ (leaf_not_mem hsound (by omega : second + 1 ≤ userPages) hlt hsome)
    rw [heq]
    exact mem_leafPages le_rfl (Nat.lt_succ_self _) hsome'
  · exact hsame
  · refine absurd ?_ (leaf_not_mem hsound (by omega : first + 1 ≤ userPages) hlt hsome')
    rw [← heq]
    exact mem_leafPages le_rfl (Nat.lt_succ_self _) hsome

theorem keepsData_outside (hsound : Sound before pagetable hand)
    (hcount : count ≤ userPages) (hlook : ∀ page < count, lookup after pagetable (page * PGSIZE) =
      lookup before pagetable (page * PGSIZE))
    (hframe : ∀ pa, pa ∉ tablePages before pagetable → pa ∉ before.freelist →
      after.page pa = before.page pa) : KeepsData before after pagetable count := by
  intro page hpage
  refine ⟨hlook page hpage, fun pte hsome => ?_⟩
  obtain ⟨htable, hfree⟩ := leaf_outside hsound (by omega) hsome
  exact hframe _ htable hfree

/-! ## Shrinking -/

/-- `uvmunmap` with `do_free` frees the pages of the range and writes no page
below it. -/
theorem uvmunmap_data {memory after : Memory} {npages : ℕ}
    (hsound : Sound memory pagetable hand) (hrange : first + npages ≤ userPages)
    (hpres : ∀ page, first ≤ page → page < first + npages →
      Present memory pagetable (page * PGSIZE))
    (hunmap : uvmunmap memory pagetable (first * PGSIZE) npages true = .ok after) :
    KeepsData memory after pagetable first ∧
      tablePages after pagetable = tablePages memory pagetable ∧
      (after.freelist : Multiset ℕ) = (leafPages memory pagetable first npages : Multiset ℕ) +
          (memory.freelist : Multiset ℕ) := by
  have hunmappable : ∀ page, first ≤ page → page < first + npages →
      Unmappable memory pagetable (page * PGSIZE) true := by
    intro page hfst hlast
    obtain ⟨pte, hsome, hleaf⟩ := hpres page hfst hlast
    exact ⟨pte, hsome, hleaf, fun _ => hsound.leaf_managed (by omega) hsome⟩
  obtain ⟨final, freed, hfinal, hshrunk, hunmaps, hperm⟩ :=
    uvmunmap_returns hsound.wellFormed (hrange.trans userPages_le)
      hunmappable fun _ => hsound.releasable hrange
  obtain rfl : after = final := by
    rw [hunmap] at hfinal
    exact Except.ok.inj hfinal
  rw [freedPages, if_pos rfl] at hperm
  refine ⟨fun page hpage => ⟨?_, fun pte hsome => ?_⟩, hshrunk.pages, ?_⟩
  · rw [hunmaps, page_mul_div, if_neg (by omega)]
  · have hout := leaf_not_mem hsound hrange hpage hsome
    exact hshrunk.frame _ (leaf_outside hsound (by omega) hsome).1
      fun hfreed => hout (hperm.subset hfreed)
  · rw [hshrunk.freelist, ← Multiset.coe_add, Multiset.coe_eq_coe.mpr hperm]

theorem uvmdealloc_eq (hbound : pageCount oldsz ≤ userPages) (newsz : ℕ) :
    uvmdealloc memory pagetable oldsz newsz =
      (uvmunmap memory pagetable (pageCount (min oldsz newsz) * PGSIZE)
        (pageCount oldsz - pageCount (min oldsz newsz)) true).map
          fun after => (min oldsz newsz, after) := by
  have hnothing : ∀ page, uvmunmap memory pagetable (page * PGSIZE) 0 true =
      .ok memory := by
    intro page
    have hzero : unmapCount (page * PGSIZE) 0 = 0 := by
      rw [unmapCount, Nat.zero_mul, Nat.add_zero,
        Nat.sub_eq_zero_of_le (Nat.mod_le _ _), Nat.zero_div]
    rw [uvmunmap_aligned (Nat.mul_mod_left page PGSIZE), hzero]
    rfl
  by_cases hle : oldsz ≤ newsz
  · rw [min_eq_left hle, Nat.sub_self, hnothing]
    simp only [uvmdealloc, hle, if_true]
    rfl
  · have hcount : pageCount newsz ≤ pageCount oldsz := pageCount_mono (by omega)
    have hold := PGROUNDUP_eq hbound
    have hnew := PGROUNDUP_eq (hcount.trans hbound)
    rw [min_eq_right (by omega)]
    by_cases hshrink : PGROUNDUP newsz < PGROUNDUP oldsz
    · have hnpages : (PGROUNDUP oldsz - PGROUNDUP newsz) / PGSIZE =
          pageCount oldsz - pageCount newsz := by
        rw [hold, hnew, ← Nat.sub_mul, page_mul_div]
      have hsmall : pageCount oldsz - pageCount newsz < 2 ^ 31 := by
        rw [userPages_eq] at hbound
        omega
      have hcast : u64 (i32 ((PGROUNDUP oldsz - PGROUNDUP newsz) /
          PGSIZE : ℕ)) = pageCount oldsz - pageCount newsz := by
        rw [hnpages, i32_of_lt hsmall, u64_natCast (by omega)]
      simp only [uvmdealloc, hle, if_false, hshrink, if_true, hcast, ← hnew]
      cases uvmunmap memory pagetable (PGROUNDUP newsz)
        (pageCount oldsz - pageCount newsz) true with
      | error panic => rfl
      | ok after => rfl
    · have heq : pageCount newsz = pageCount oldsz := by
        rw [hold, hnew] at hshrink
        simp only [PGSIZE_eq] at hshrink
        omega
      rw [heq, Nat.sub_self, hnothing]
      simp only [uvmdealloc, hle, if_false, hshrink]
      rfl

theorem uvmdealloc_spec (hsound : Sound memory pagetable hand)
    (hfill : Filled memory pagetable (pageCount oldsz)) (newsz : ℕ) :
    ∃ after, uvmdealloc memory pagetable oldsz newsz = .ok (min oldsz newsz, after) ∧
      Conserves memory after pagetable hand hand ∧ HighSame memory after pagetable ∧
      Filled after pagetable (pageCount (min oldsz newsz)) ∧
      KeepsData memory after pagetable (pageCount (min oldsz newsz)) ∧
      tablePages after pagetable = tablePages memory pagetable ∧
      (after.freelist : Multiset ℕ) = (leafPages memory pagetable (pageCount (min oldsz newsz))
          (pageCount oldsz - pageCount (min oldsz newsz)) : Multiset ℕ) +
            (memory.freelist : Multiset ℕ) := by
  have hcount : pageCount (min oldsz newsz) ≤ pageCount oldsz :=
    pageCount_mono (min_le_left oldsz newsz)
  have hbound := hfill.bound
  have hrange : pageCount (min oldsz newsz) +
      (pageCount oldsz - pageCount (min oldsz newsz)) ≤ userPages := by
    omega
  have hpres : ∀ page, pageCount (min oldsz newsz) ≤ page → page < pageCount (min oldsz newsz) +
        (pageCount oldsz - pageCount (min oldsz newsz)) →
      Present memory pagetable (page * PGSIZE) :=
    fun page _ hpage => hfill.present page (by omega)
  obtain ⟨after, hunmap, hunmaps, hcons⟩ := conserves_uvmunmap hsound hrange hpres true
  refine ⟨after, ?_, hcons, ?_, filled_unmap hfill hcount hunmaps,
    uvmunmap_data hsound hrange hpres hunmap⟩
  · rw [uvmdealloc_eq hbound, hunmap]
    rfl
  · intro va hva
    rw [hunmaps, if_neg (by omega)]

/-! ## Growing -/

theorem PTE_FLAGS_user (pa : ℕ) : PTE_FLAGS (leafPte pa PTE_USER) ≠ PTE_V := by
  rw [PTE_FLAGS_leafPte pa (by decide)]
  decide

/-- `filled` is `popped` with other contents in one page. -/
structure Rewritten (popped filled : Memory) (page : ℕ) : Prop where
  kernelEnd : filled.kernelEnd = popped.kernelEnd
  freelist : filled.freelist = popped.freelist
  frame : ∀ other, other ≠ page → filled.page other = popped.page other

theorem rewritten_fillPage (memory : Memory) (page : ℕ) (value : Byte) :
    Rewritten memory (fillPage memory page value) page :=
  ⟨rfl, rfl, fun _ ho => fillPage_page_ne memory value ho⟩

theorem rewritten_copyPage (memory : Memory) (page source : ℕ) :
    Rewritten memory (copyPage memory page source) page :=
  ⟨rfl, rfl, fun _ ho => Function.update_of_ne ho _ _⟩

/-- Taking a page, filling it and mapping it, as every function that adds a
page does: it is mapped, or freed again with everything as before. -/
theorem map_fresh {memory : Memory}
    (hsound : Sound memory pagetable hand) (hkal : kalloc memory = (some mem, popped))
    (hfill : Rewritten popped filled mem) (hva : va < TRAPFRAME)
    (halign : va % PGSIZE = 0) (hnone : lookup memory pagetable va = none) (hperm : IsPerm perm) :
    ∃ mapped next, mappages filled pagetable va PGSIZE mem perm = .ok (mapped, next) ∧
      (mapped = true → Conserves memory next pagetable hand hand ∧
        MapsPages memory next pagetable va 1 mem perm) ∧
      (mapped = false → ∃ freed, kfree next mem = .ok freed ∧
        Conserves memory freed pagetable hand hand ∧
        ∀ other, lookup freed pagetable other = lookup memory pagetable other) := by
  obtain ⟨hpopped, hlook⟩ := conserves_kalloc hsound hkal
  obtain ⟨htouched, hlookup'⟩ := conserves_touch (hpopped.sound hsound)
    (Multiset.mem_cons_self mem hand) hfill.kernelEnd hfill.freelist
    hfill.frame
  have hfresh := hpopped.trans htouched
  have hsame : ∀ other, lookup filled pagetable other =
      lookup memory pagetable other := by
    intro other
    rw [hlookup', hlook]
  obtain ⟨mapped, next, hmap, -, hmaps, hcons⟩ := conserves_mappages
    (hfresh.sound hsound) hva halign ((hsame va).trans hnone) hperm
  refine ⟨mapped, next, hmap, ?_, ?_⟩
  · rintro rfl
    refine ⟨hfresh.trans hcons, ?_⟩
    intro other
    rw [hmaps other, hsame]
    rfl
  · rintro rfl
    have hkept := hfresh.trans hcons
    obtain ⟨freed, hkfree, hback, hlookup''⟩ := conserves_kfree (hkept.sound hsound)
    refine ⟨freed, hkfree, hkept.trans hback, ?_⟩
    intro other
    rw [hlookup'', hmaps other, if_neg (by simp), hsame]

/-- The pages that such a step writes: page-table pages and free pages.  The new
page has the contents it was filled with. -/
theorem map_fresh_frame {memory : Memory}
    (hsound : Sound memory pagetable hand) (hkal : kalloc memory = (some mem, popped))
    (hfill : Rewritten popped filled mem) (hva : va < TRAPFRAME)
    (halign : va % PGSIZE = 0) (hnone : lookup memory pagetable va = none) {mapped : Bool}
    (hmap : mappages filled pagetable va PGSIZE mem perm = .ok (mapped, next)) :
    (∀ pa, pa ∉ tablePages memory pagetable → pa ∉ memory.freelist →
      next.page pa = memory.page pa) ∧ next.page mem = filled.page mem := by
  obtain ⟨hpopped, hlook⟩ := conserves_kalloc hsound hkal
  have hmem := Multiset.mem_cons_self mem hand
  obtain ⟨htouched, hlookup'⟩ := conserves_touch (hpopped.sound hsound) hmem
    hfill.kernelEnd hfill.freelist hfill.frame
  have hsound' := (hpopped.trans htouched).sound hsound
  obtain ⟨hfree, -, hpage⟩ := kalloc_some hkal
  rw [← hfill.freelist] at hfree
  have htables : tablePages filled pagetable = tablePages memory pagetable := by
    apply tablePages_congr
    intro table htable
    have hne : table ≠ mem := by
      rintro rfl
      apply hsound.wellFormed.not_mem_freelist htable
      rw [hfree]
      exact List.mem_cons_self
    rw [hfill.frame table hne, hpage table hne]
  obtain ⟨mapped', final, taken, hfinal, hgrown, -, -⟩ := mappages_single
    hsound'.wellFormed (lt_trans hva (by decide)) halign
    ((hlookup' va).trans ((hlook va).trans hnone)) mem perm
  obtain ⟨rfl, rfl⟩ : mapped = mapped' ∧ next = final := by
    rw [hmap, Except.ok.injEq, Prod.mk.injEq] at hfinal
    exact hfinal
  have htaken : ∀ pa ∈ taken, pa ∈ filled.freelist := by
    intro pa hpa
    rw [hgrown.freelist]
    exact List.mem_append_left _ hpa
  constructor
  · intro pa htable hoffered
    rw [hfree, List.mem_cons, not_or] at hoffered
    have htable' : pa ∉ tablePages filled pagetable := by
      rw [htables]
      exact htable
    rw [hgrown.frame pa htable' fun hpa => hoffered.2 (htaken pa hpa),
      hfill.frame pa hoffered.1, hpage pa hoffered.1]
  · refine hgrown.frame mem (hsound'.hand_not_table hmem) fun hpa => ?_
    apply hsound'.hand_not_mem hmem
    rw [holdings, Multiset.mem_add]
    exact Or.inr (Multiset.mem_coe.mpr (htaken mem hpa))

/-- The pages from `first` to `last` translate to new pages of user memory, and
every other address translates as before. -/
def GrowsPages (before after : Memory) (pagetable first last : ℕ) : Prop :=
  (∀ page, first ≤ page → page < last → ∃ pa,
    lookup after pagetable (page * PGSIZE) = some (leafPte pa PTE_USER)) ∧
  ∀ va, ¬(first ≤ va / PGSIZE ∧ va / PGSIZE < last) →
    lookup after pagetable va = lookup before pagetable va

theorem growsPages_refl (memory : Memory) (pagetable first : ℕ) :
    GrowsPages memory memory pagetable first first :=
  ⟨by omega, fun _ _ => rfl⟩

theorem growsPages_cons {before after : Memory}
    (hmaps : MapsPages before middle pagetable (page * PGSIZE) 1 mem PTE_USER)
    (hgrows : GrowsPages middle after pagetable (page + 1) last)
    (hlast : page < last) : GrowsPages before after pagetable page last := by
  constructor
  · intro other hfst ho
    by_cases heq : other = page
    · subst heq
      refine ⟨mem, ?_⟩
      rw [hgrows.2 _ (by rw [page_mul_div]; omega), hmaps, page_mul_div,
        if_pos (by omega), Nat.sub_self, Nat.zero_mul, Nat.add_zero]
    · exact hgrows.1 other (by omega) ho
  · intro va hva
    rw [hgrows.2 va (by omega), hmaps, page_mul_div, if_neg (by omega)]

theorem kfree_frame {memory freed : Memory} (hkal : kalloc memory = (some mem, popped))
    (hframe : ∀ pa, pa ∉ tablePages memory pagetable → pa ∉ memory.freelist →
      next.page pa = memory.page pa) (hkfree : kfree next mem = .ok freed) :
    ∀ pa, pa ∉ tablePages memory pagetable → pa ∉ memory.freelist →
      freed.page pa = memory.page pa := by
  intro pa htable hfree
  have hne : pa ≠ mem := by
    rintro rfl
    cases hlist : memory.freelist with
    | nil => simp [kalloc, hlist] at hkal
    | cons head rest =>
      simp only [kalloc, hlist, Prod.mk.injEq, Option.some.injEq] at hkal
      rw [hlist, hkal.1] at hfree
      exact hfree List.mem_cons_self
  unfold kfree at hkfree
  split at hkfree
  · cases hkfree
    exact (fillPage_page_ne next 1 hne).trans (hframe pa htable hfree)
  · cases hkfree

theorem freshPage_eq {memory : Memory}
    (hsound : Sound memory pagetable hand) (hkal : kalloc memory = (some mem, popped)) :
    PTE2PA (leafPte mem PTE_USER) = mem := by
  obtain ⟨hpopped, -⟩ := conserves_kalloc hsound hkal
  have hman := (hpopped.sound hsound).managed mem (by simp)
  rw [PTE2PA_leafPte (managed_lt hman) (by decide), managed_round hman]

theorem zeroPages_cons {after : Memory}
    (hlast : lookup middle pagetable (page * PGSIZE) = some (leafPte mem PTE_USER))
    (hzero : middle.page (PTE2PA (leafPte mem PTE_USER)) = fun _ => 0)
    (hkeeps : KeepsData middle after pagetable (page + 1))
    (hpages : ZeroPages after pagetable (page + 1) last) :
    ZeroPages after pagetable page last := by
  intro other hfst ho
  by_cases heq : other = page
  · subst heq
    obtain ⟨hlook, hdata⟩ := hkeeps other (Nat.lt_succ_self other)
    exact ⟨mem, hlook.trans hlast, (hdata _ hlast).trans hzero⟩
  · exact hpages other (by omega) ho

/-- The loop of `uvmalloc` from a filled prefix of `page` pages on: it grows
the prefix, or runs out of memory and cuts it back to `base` pages. -/
theorem uvmallocLoop_spec {base : ℕ} (count : ℕ)
    (hsound : Sound memory pagetable hand)
    (hfill : Filled memory pagetable page) (hbase : base ≤ page) :
    ∃ grown after, uvmallocLoop pagetable (base * PGSIZE) count memory (page * PGSIZE) =
        .ok (grown, after) ∧
      Conserves memory after pagetable hand hand ∧
      HighSame memory after pagetable ∧
      Filled after pagetable (if grown then page + count else base) ∧
      KeepsData memory after pagetable (if grown then page else base) ∧
      (grown = true → GrowsPages memory after pagetable page (page + count) ∧
        ZeroPages after pagetable page (page + count)) := by
  induction count generalizing memory page with
  | zero =>
    exact ⟨true, memory, rfl, Conserves.refl memory pagetable hand,
      fun _ _ => rfl, hfill, KeepsData.refl memory pagetable page,
      fun _ => ⟨growsPages_refl memory pagetable page,
        fun other hfst hlast => absurd hlast (not_lt.mpr hfst)⟩⟩
  | succ count ih =>
    have huser := filled_lt_TRAPFRAME hfill hsound
    -- Cutting back: the way out of every failed allocation.
    have hcut : ∀ middle, Conserves memory middle pagetable hand hand →
        (∀ va, lookup middle pagetable va = lookup memory pagetable va) →
        KeepsData memory middle pagetable page →
        ∃ after, uvmdealloc middle pagetable (page * PGSIZE) (base * PGSIZE) =
            .ok (base * PGSIZE, after) ∧
          Conserves memory after pagetable hand hand ∧
          HighSame memory after pagetable ∧ Filled after pagetable base ∧
          KeepsData memory after pagetable base ∧
          (false = true → GrowsPages memory after pagetable page (page + (count + 1)) ∧
            ZeroPages after pagetable page (page + (count + 1))) := by
      intro middle hmiddle hlook hdata
      have hfilled' : Filled middle pagetable (pageCount (page * PGSIZE)) := by
        rw [pageCount_mul]
        exact hfill.congr fun other _ => hlook (other * PGSIZE)
      obtain ⟨after, hdealloc, hcons, hhigh, hres, hdata', -⟩ :=
        uvmdealloc_spec (hmiddle.sound hsound) hfilled' (base * PGSIZE)
      have hmin : min (page * PGSIZE) (base * PGSIZE) = base * PGSIZE :=
        min_eq_right (Nat.mul_le_mul_right PGSIZE hbase)
      rw [hmin] at hdealloc hres hdata'
      rw [pageCount_mul] at hres hdata'
      exact ⟨after, hdealloc, hmiddle.trans hcons,
        (highSame_of_lookup hlook).trans hhigh, hres,
        (hdata.mono hbase).trans hdata', by simp⟩
    cases hkal : kalloc memory with
    | mk result popped =>
      cases result with
      | none =>
        obtain ⟨rfl, -⟩ := kalloc_none hkal
        obtain ⟨after, hdealloc, hspec⟩ := hcut popped
          (Conserves.refl popped pagetable hand) (fun _ => rfl)
          (KeepsData.refl popped pagetable page)
        refine ⟨false, after, ?_, hspec⟩
        simp only [uvmallocLoop, hkal, hdealloc, ok_bind, pure_eq_ok]
      | some mem =>
        have hnone := hfill.absent page (le_refl page) huser
        obtain ⟨mapped, next, hmap, htrue, hfalse⟩ := map_fresh hsound
          hkal (rewritten_fillPage popped mem 0)
          (page_lt_TRAPFRAME huser) (Nat.mul_mod_left page PGSIZE) hnone
          (by decide : IsPerm PTE_USER)
        obtain ⟨hframe, hzero⟩ := map_fresh_frame hsound hkal
          (rewritten_fillPage popped mem 0) (page_lt_TRAPFRAME huser)
          (Nat.mul_mod_left page PGSIZE) hnone hmap
        cases mapped with
        | false =>
          obtain ⟨freed, hkfree, hcons, hlook⟩ := hfalse rfl
          have hdata : KeepsData memory freed pagetable page :=
            keepsData_outside hsound hfill.bound (fun other _ => hlook (other * PGSIZE))
              (kfree_frame hkal hframe hkfree)
          obtain ⟨after, hdealloc, hspec⟩ := hcut freed hcons hlook hdata
          refine ⟨false, after, ?_, hspec⟩
          simp only [uvmallocLoop, hkal, hmap, ok_bind, hkfree, hdealloc, pure_eq_ok]
          rfl
        | true =>
          obtain ⟨hcons, hmaps⟩ := htrue rfl
          obtain ⟨grown, after, hloop, hconserves', hhigh, hres,
            hdata', hgrows⟩ := ih (hcons.sound hsound)
              (filled_map hfill hmaps huser (PTE_FLAGS_user mem))
              (by omega)
          have hnext : page + 1 + count = page + (count + 1) := by omega
          rw [hnext] at hres hgrows
          have hdata : KeepsData memory next pagetable page := by
            refine keepsData_outside hsound hfill.bound ?_ hframe
            intro other ho
            rw [hmaps, page_mul_div, page_mul_div, if_neg (by omega)]
          have hlast : lookup next pagetable (page * PGSIZE) = some (leafPte mem PTE_USER) := by
            rw [hmaps.single, if_pos rfl]
          refine ⟨grown, after, ?_, hcons.trans hconserves', ?_,
            hres, ?_, fun htrue => ⟨growsPages_cons hmaps (hgrows htrue).1 (by omega), ?_⟩⟩
          · simp only [uvmallocLoop, hkal, hmap, ok_bind, if_true]
            rw [← Nat.succ_mul]
            exact hloop
          · intro va hva
            rw [hhigh va hva, hmaps, page_mul_div, if_neg (by omega)]
          · cases grown with
            | false => exact (hdata.mono hbase).trans hdata'
            | true => exact hdata.trans (hdata'.mono (Nat.le_succ page))
          · subst htrue
            refine zeroPages_cons hlast ?_ hdata' (hgrows rfl).2
            rw [freshPage_eq hsound hkal, hzero]
            exact Function.update_self _ _ _

theorem uvmalloc_spec (hsound : Sound memory pagetable hand)
    (hfill : Filled memory pagetable (pageCount oldsz)) (newsz : ℕ) :
    ∃ result after, uvmalloc memory pagetable oldsz newsz = .ok (result, after) ∧
      Conserves memory after pagetable hand hand ∧ HighSame memory after pagetable ∧
      KeepsData memory after pagetable (pageCount oldsz) ∧
      ((result = 0 ∧ Filled after pagetable (pageCount oldsz)) ∨ (result = max oldsz newsz ∧
          Filled after pagetable (pageCount (max oldsz newsz)) ∧
          GrowsPages memory after pagetable (pageCount oldsz) (pageCount (max oldsz newsz)) ∧
          ZeroPages after pagetable (pageCount oldsz) (pageCount (max oldsz newsz)))) := by
  by_cases hlt : newsz < oldsz
  · have hmax : max oldsz newsz = oldsz := max_eq_left (by omega)
    refine ⟨oldsz, memory, ?_, Conserves.refl memory pagetable hand,
      fun _ _ => rfl, KeepsData.refl memory pagetable _, Or.inr ?_⟩
    · simp [uvmalloc, hlt]
    · rw [hmax]
      exact ⟨rfl, hfill, growsPages_refl memory pagetable _,
        fun page hfst hlast => absurd hlast (not_lt.mpr hfst)⟩
  · have hmax : max oldsz newsz = newsz := max_eq_right (by omega)
    have hround := PGROUNDUP_eq hfill.bound
    obtain ⟨grown, after, hloop, hcons, hhigh, hres, hdata, hgrows⟩ :=
      uvmallocLoop_spec (pageSteps (pageCount oldsz * PGSIZE) newsz) hsound
        hfill (le_refl (pageCount oldsz))
    have hsteps : pageCount oldsz +
        pageSteps (pageCount oldsz * PGSIZE) newsz = pageCount newsz := by
      simp only [pageCount, pageSteps, PGSIZE_eq]
      omega
    rw [hsteps] at hres hgrows
    rw [ite_self] at hdata
    refine ⟨if grown then newsz else 0, after, ?_, hcons, hhigh, hdata, ?_⟩
    · simp only [uvmalloc, hlt, if_false, hround, hloop, ok_bind, pure_eq_ok]
    · cases grown with
      | false => exact Or.inl ⟨rfl, hres⟩
      | true =>
        rw [hmax]
        exact Or.inr ⟨rfl, hres, (hgrows rfl).1, (hgrows rfl).2⟩

/-! ## Single entries and single pages -/

theorem PTE_FLAGS_guard (pa : ℕ) : PTE_FLAGS (leafPte pa PTE_USER &&& ~~~PTE_U) ≠ PTE_V := by
  have hflags : PTE_FLAGS (leafPte pa PTE_USER &&& ~~~PTE_U) =
      PTE_FLAGS (leafPte pa PTE_USER) &&& ~~~PTE_U := by
    rw [PTE_FLAGS, PTE_FLAGS, BitVec.and_assoc, BitVec.and_assoc, BitVec.and_comm (~~~PTE_U)]
  rw [hflags, PTE_FLAGS_leafPte pa (by decide)]
  decide

theorem uvmclear_spec (hsound : Sound memory pagetable hand)
    (hfill : Filled memory pagetable count) (hpage : page < count)
    (hsome : lookup memory pagetable (page * PGSIZE) = some (leafPte pa PTE_USER)) :
    ∃ after, uvmclear memory pagetable (page * PGSIZE) = .ok after ∧
      Conserves memory after pagetable hand hand ∧
      HighSame memory after pagetable ∧ Filled after pagetable count ∧
      (∀ other, lookup after pagetable other =
        if other / PGSIZE = page then some (leafPte pa PTE_USER &&& ~~~PTE_U)
        else lookup memory pagetable other) ∧
      ∀ other, other ∉ tablePages memory pagetable → after.page other = memory.page other := by
  have hbound := hfill.bound
  obtain ⟨low, hlow, hread, hval⟩ := lookup_eq_some hsome
  have hva := lookup_lt hsome
  have hnd := hsound.wellFormed.nodup_tablePages
  have hcleared : hasFlag (leafPte pa PTE_USER &&& ~~~PTE_U) PTE_V = true := by
    rw [hasFlag_clear_U, hasFlag_leafPte_V]
  have hlook : ∀ other, lookup (writePte memory low (PX 0 (page * PGSIZE))
      (leafPte pa PTE_USER &&& ~~~PTE_U)) pagetable other =
      if other / PGSIZE = page then
        some (leafPte pa PTE_USER &&& ~~~PTE_U)
      else lookup memory pagetable other := by
    intro other
    rw [lookup_writeLow hnd hva hlow, page_mul_div, if_pos hcleared]
  have hgrown := grown_writeLow hnd hlow (PX 0 (page * PGSIZE)) (leafPte pa PTE_USER &&& ~~~PTE_U)
  have hleaves : userLeaves (writePte memory low (PX 0 (page * PGSIZE))
      (leafPte pa PTE_USER &&& ~~~PTE_U)) pagetable =
      userLeaves memory pagetable := by
    apply userLeaves_congr_pa
    intro other _
    rw [hlook, page_mul_div]
    by_cases heq : other = page
    · rw [if_pos heq, heq, hsome, Option.map_some, Option.map_some, PTE2PA_clear_U]
    · rw [if_neg heq]
  refine ⟨writePte memory low (PX 0 (page * PGSIZE))
    (leafPte pa PTE_USER &&& ~~~PTE_U), ?_, ⟨rfl, ?_, ?_, hgrown.interior,
    hgrown.upper⟩, ?_, ⟨hbound, ?_, ?_⟩, hlook, ?_⟩
  · rw [uvmclear, walk_present false hva hlow, ok_bind]
    simp only [loadPte, hread, pure_eq_ok]
  · have heq := grown_holdings hgrown
    rw [hleaves, add_left_inj] at heq
    rw [heq]
  · intro other ho
    exact grown_frame hgrown fun hmem => ho (Multiset.mem_add.mpr (Or.inr hmem))
  · intro va hhigh
    rw [hlook, if_neg (by omega)]
  · intro other ho
    by_cases heq : other = page
    · exact ⟨_, by rw [hlook, page_mul_div, if_pos heq], PTE_FLAGS_guard pa⟩
    · rw [Present, hlook, page_mul_div, if_neg heq]
      exact hfill.present other ho
  · intro other hcount huser
    rw [hlook, page_mul_div, if_neg (by omega)]
    exact hfill.absent other hcount huser
  · intro other ho
    exact hgrown.frame other ho List.not_mem_nil

theorem conserves_store {memory after : Memory}
    {hand : Multiset ℕ} (hsound : Sound memory pagetable hand)
    (hleaf : pa ∈ userLeaves memory pagetable) (hstore : Rewritten memory after pa) :
    Conserves memory after pagetable hand hand ∧
      ∀ va, lookup after pagetable va = lookup memory pagetable va := by
  have hpages : ∀ table ∈ tablePages memory pagetable, after.page table = memory.page table := by
    intro table htable
    apply hstore.frame
    rintro rfl
    have hparts := (Multiset.nodup_add.mp hsound.drop_hand.distinct).2.1
    rw [holdings, Multiset.nodup_add, Multiset.nodup_add] at hparts
    exact Multiset.disjoint_left.mp hparts.1.2.2 htable hleaf
  have hlook := lookup_congr hpages
  refine ⟨⟨hstore.kernelEnd, ?_, ?_, interiorPlain_congr hpages,
    upperUnused_congr (hpages pagetable (root_mem_nodes _ 2 pagetable))⟩,
    hlook⟩
  · rw [holdings, holdings, tablePages_congr hpages, hstore.freelist,
      userLeaves_congr fun page _ => hlook (page * PGSIZE)]
  · intro other ho
    apply hstore.frame
    rintro rfl
    apply ho
    rw [holdings, Multiset.mem_add, Multiset.mem_add, Multiset.mem_add]
    exact Or.inr (Or.inl (Or.inr hleaf))

theorem uvmcreate_spec {memory : Memory} {hand : Multiset ℕ}
    (hdist : (hand + (memory.freelist : Multiset ℕ)).Nodup)
    (hman : ∀ pa ∈ hand + (memory.freelist : Multiset ℕ), Managed memory pa) :
    (uvmcreate memory = (none, memory) ∧ memory.freelist = []) ∨
    ∃ pagetable after, uvmcreate memory = (some pagetable, after) ∧
      after.kernelEnd = memory.kernelEnd ∧
        holdings after pagetable = (memory.freelist : Multiset ℕ) ∧
      (∀ pa, pa ∉ memory.freelist → after.page pa = memory.page pa) ∧ Sound after pagetable hand ∧
      ∀ va, lookup after pagetable va = none := by
  cases hlist : memory.freelist with
  | nil => exact Or.inl ⟨by simp [uvmcreate, kalloc, hlist], rfl⟩
  | cons pagetable rest =>
    right
    obtain ⟨after, hafter⟩ : ∃ after, after =
        fillPage { fillPage memory pagetable 5 with freelist := rest } pagetable 0 := ⟨_, rfl⟩
    have hcreate : uvmcreate memory = (some pagetable, after) := by
      simp only [uvmcreate, kalloc, hlist, hafter]
    have hzero : ∀ index, readPte after pagetable index = 0 := by
      intro index
      rw [hafter, readPte_fillPage_zero]
    have hleaves : userLeaves after pagetable = 0 := by
      rw [userLeaves, leafPages_none fun page _ _ => lookup_zeroed hzero (page * PGSIZE)]
      rfl
    have hholdings : holdings after pagetable = ((pagetable :: rest : List ℕ) : Multiset ℕ) := by
      rw [holdings, tablePages_zeroed hzero, hleaves, add_zero, hafter]
      rfl
    have hend : after.kernelEnd = memory.kernelEnd := by
      rw [hafter]
      rfl
    refine ⟨pagetable, after, hcreate, hend, hholdings, ?_, ⟨?_, ?_,
      interiorPlain_zeroed hzero, upperUnused_zeroed hzero⟩,
      lookup_zeroed hzero⟩
    · intro pa hpa
      have hne : pa ≠ pagetable := by
        rintro rfl
        exact hpa List.mem_cons_self
      rw [hafter, fillPage_page_ne _ 0 hne]
      exact fillPage_page_ne memory 5 hne
    · rw [hholdings, ← hlist]
      exact hdist
    · intro pa hpa
      rw [hholdings, ← hlist] at hpa
      simpa only [Managed, hend] using hman pa hpa

section
variable {memory : Memory} {pagetable : ℕ} (hzero : ∀ index, readPte memory pagetable index = 0)
include hzero

theorem holdings_zeroed : holdings memory pagetable =
    {pagetable} + (memory.freelist : Multiset ℕ) := by
  have hleaves : userLeaves memory pagetable = 0 := by
    rw [userLeaves, leafPages_none]
    · rfl
    · intro page _ _
      exact lookup_zeroed hzero _
  rw [holdings, hleaves, tablePages_zeroed hzero, add_zero]

theorem sound_zeroed (hdist : (pagetable :: memory.freelist).Nodup)
    (hman : ∀ pa ∈ pagetable :: memory.freelist, Managed memory pa) :
    Sound memory pagetable 0 := by
  have hholdings : (0 : Multiset ℕ) + holdings memory pagetable =
      ((pagetable :: memory.freelist : List ℕ) : Multiset ℕ) := by
    rw [zero_add, holdings_zeroed hzero]
    rfl
  refine ⟨?_, ?_, interiorPlain_zeroed hzero, upperUnused_zeroed hzero⟩
  · rw [hholdings]
    exact hdist
  · rw [hholdings]
    exact hman

end

theorem sound_blankMemory : Sound blankMemory KERNBASE 0 :=
  sound_zeroed (readPte_blankMemory KERNBASE) (by decide) (by decide)

end Xv6.AddressSpace
