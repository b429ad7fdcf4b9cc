import Xv6.Core.Outcome
import Xv6.Core.RadixTree
import Xv6.Vm.Kalloc

/-!
# Walking and editing a page table

The model of `walk`, `walkaddr`, `mappages` and `uvmunmap` of `kernel/vm.c`,
followed by the tree that a page table is: an entry of a page-table page that
is valid leads to the page it names.
-/

namespace Xv6.PageTable

open Riscv Kalloc RadixTree List Option

variable {memory : Memory} {pagetable va low : ℕ} {pte : Pte}

/-- A `pte_t *`: a page-table page and an index in it. -/
abbrev PteRef := ℕ × Fin 512

def loadPte (memory : Memory) (ref : PteRef) : Pte := readPte memory ref.1 ref.2

/-- The loop of `walk` over the levels that remain; the result is the page
that holds the last-level entries. -/
def walkLevels (va : ℕ) (alloc : Bool) : List ℕ → Memory → ℕ → Option ℕ × Memory
  | [], memory, pagetable => (some pagetable, memory)
  | level :: levels, memory, pagetable =>
    let pte := readPte memory pagetable (PX level va)
    if hasFlag pte PTE_V then
      walkLevels va alloc levels memory (PTE2PA pte)
    else if alloc then
      match kalloc memory with
      | (none, memory) => (none, memory)
      | (some page, memory) =>
        walkLevels va alloc levels (writePte (fillPage memory page 0) pagetable (PX level va)
            (PA2PTE page ||| PTE_V)) page
    else (none, memory)

def walk (memory : Memory) (pagetable va : ℕ) (alloc : Bool) :
    Except Panic (Option PteRef × Memory) :=
  if MAXVA ≤ va then .error .walk
  else
    let (table, memory) := walkLevels va alloc [2, 1] memory pagetable
    .ok (table.map fun page => (page, PX 0 va), memory)

def walkaddr (memory : Memory) (pagetable va : ℕ) : Option ℕ :=
  match walk memory pagetable va false with
  | .ok (some ref, memory) =>
    let pte := loadPte memory ref
    if hasFlag pte PTE_V && hasFlag pte PTE_U && PTE2PA pte != 0 then
      some (PTE2PA pte)
    else none
  | _ => none

/-- The body of the loop of `mappages`; the flag `false` is the exit with -1. -/
def mappagesPage (memory : Memory) (pagetable a pa : ℕ) (perm : Pte) :
    Except Panic (Bool × Memory) := do
  match ← walk memory pagetable a true with
  | (none, memory) => return (false, memory)
  | (some ref, memory) =>
    if hasFlag (loadPte memory ref) PTE_V then
      throw .mappagesRemap
    return (true, writePte memory ref.1 ref.2 (leafPte pa perm))

/-- The loop of `mappages`.  `walk` panics at `MAXVA`, so the pages from the
start of the loop up to there bound its iterations. -/
def mappagesLoop (pagetable last : ℕ) (perm : Pte) :
    ℕ → Memory → ℕ → ℕ → Except Panic (Bool × Memory)
  | 0, _, _, _ => throw .walk
  | fuel + 1, memory, a, pa => do
    let (mapped, memory) ← mappagesPage memory pagetable a pa perm
    if mapped = false ∨ a = last then
      return (mapped, memory)
    else
      mappagesLoop pagetable last perm fuel memory (a + PGSIZE) (pa + PGSIZE)

/-- `mappages`: `true` for the result 0 and `false` for -1. -/
def mappages (memory : Memory) (pagetable va size pa : ℕ) (perm : Pte) :
    Except Panic (Bool × Memory) := do
  if size = 0 then
    throw .mappagesSize
  let a := PGROUNDDOWN va
  let last := PGROUNDDOWN ((va + size - 1) % 2 ^ 64)
  mappagesLoop pagetable last perm (MAXVA / PGSIZE + 1 - a / PGSIZE) memory a pa

def uvmunmapPage (memory : Memory) (pagetable a : ℕ) (doFree : Bool) :
    Except Panic Memory := do
  match ← walk memory pagetable a false with
  | (none, _) => throw .uvmunmapWalk
  | (some ref, memory) =>
    let pte := loadPte memory ref
    if !hasFlag pte PTE_V then
      throw .uvmunmapNotMapped
    if PTE_FLAGS pte = PTE_V then
      throw .uvmunmapNotLeaf
    let memory ← if doFree then kfree memory (PTE2PA pte) else pure memory
    return writePte memory ref.1 ref.2 0

def uvmunmapLoop (pagetable : ℕ) (doFree : Bool) : ℕ → Memory → ℕ → Except Panic Memory
  | 0, memory, _ => return memory
  | count + 1, memory, a => do
    let memory ← uvmunmapPage memory pagetable a doFree
    uvmunmapLoop pagetable doFree count memory (a + PGSIZE)

/-- `uvmunmap`.  The loop runs while `a < va + npages*PGSIZE`, computed with
the wrap-around of `uint64`. -/
def uvmunmap (memory : Memory) (pagetable va npages : ℕ) (doFree : Bool) :
    Except Panic Memory := do
  if va % PGSIZE ≠ 0 then
    throw .uvmunmapNotAligned
  uvmunmapLoop pagetable doFree (((va + npages * PGSIZE) % 2 ^ 64 - va) / PGSIZE) memory va

/-! ## The tree of page-table pages -/

def tableChild (memory : Memory) (table : ℕ) (index : Fin 512) : Option ℕ :=
  let pte := readPte memory table index
  if hasFlag pte PTE_V then some (PTE2PA pte) else none

/-- The page-table pages of a page table, once for every path to them. -/
def tablePages (memory : Memory) (pagetable : ℕ) : Multiset ℕ :=
  nodes (tableChild memory) 2 pagetable

/-- The indices that lead to the last-level table for an address. -/
def tablePath (va : ℕ) : List (Fin 512) := [PX 2 va, PX 1 va]

def lowTable (memory : Memory) (pagetable va : ℕ) : Option ℕ :=
  descend (tableChild memory) (tablePath va) pagetable

/-- The valid entry that `walk` without allocation finds for an address. -/
def lookup (memory : Memory) (pagetable va : ℕ) : Option Pte :=
  match walk memory pagetable va false with
  | .ok (some ref, memory) =>
    let pte := loadPte memory ref
    if hasFlag pte PTE_V then some pte else none
  | _ => none

/-- The entries above the last level have no permission bits, which is what
makes them lead to further page-table pages. -/
def InteriorPlain (memory : Memory) (pagetable : ℕ) : Prop :=
  ∀ path table index, path.length < 2 → descend (tableChild memory) path pagetable = some table →
    hasFlag (readPte memory table index) PTE_V →
    hasFlag (readPte memory table index) (PTE_R ||| PTE_W ||| PTE_X) = false

/-- The upper half of the root is unused: `MAXVA` is half of what Sv39 allows. -/
def UpperUnused (memory : Memory) (pagetable : ℕ) : Prop :=
  ∀ index : Fin 512, 256 ≤ index.val → hasFlag (readPte memory pagetable index) PTE_V = false

/-- A three-level page table: its pages are distinct, in a memory whose free
pages are distinct pages of the allocator and no page-table pages. -/
structure WellFormed (memory : Memory) (pagetable : ℕ) : Prop where
  distinct : (tablePages memory pagetable + (memory.freelist : Multiset ℕ)).Nodup
  managed : ∀ pa ∈ memory.freelist, Managed memory pa
  interior : InteriorPlain memory pagetable

theorem WellFormed.nodup_tablePages (hwell : WellFormed memory pagetable) :
    (tablePages memory pagetable).Nodup :=
  (Multiset.nodup_add.mp hwell.distinct).1

theorem WellFormed.not_mem_freelist {pa : ℕ} (hwell : WellFormed memory pagetable)
    (hpa : pa ∈ tablePages memory pagetable) : pa ∉ memory.freelist := by
  intro hfree
  exact Multiset.disjoint_left.mp
    (Multiset.nodup_add.mp hwell.distinct).2.2 hpa (by simpa using hfree)

theorem walkLevels_noalloc (va : ℕ) (levels : List ℕ) (memory : Memory) (pagetable : ℕ) :
    walkLevels va false levels memory pagetable =
      (descend (tableChild memory) (levels.map fun level => PX level va) pagetable, memory) := by
  induction levels generalizing pagetable with
  | nil => rfl
  | cons level levels ih =>
    simp only [walkLevels, map_cons, descend_cons, tableChild]
    by_cases hval : hasFlag (readPte memory pagetable (PX level va)) PTE_V
    · simp only [hval, if_true, bind_some]
      exact ih _
    · simp [hval]

/-- Without allocation `walk` finds the last-level table or fails, and changes
nothing. -/
theorem walk_noalloc (memory : Memory) (pagetable : ℕ) (hva : va < MAXVA) :
    walk memory pagetable va false =
      .ok ((lowTable memory pagetable va).map fun page => (page, PX 0 va), memory) := by
  rw [walk, if_neg (Nat.not_le.mpr hva), walkLevels_noalloc]
  rfl

theorem walkLevels_present (alloc : Bool) {levels : List ℕ}
    {table : ℕ}
    (hlow : descend (tableChild memory) (levels.map fun level => PX level va) table = some low) :
    walkLevels va alloc levels memory table = (some low, memory) := by
  induction levels generalizing table with
  | nil =>
    rw [map_nil, descend_nil] at hlow
    rw [walkLevels, hlow]
  | cons level levels ih =>
    rw [map_cons, descend_cons] at hlow
    by_cases hval : hasFlag (readPte memory table (PX level va)) PTE_V
    · simp only [tableChild, hval, if_true, bind_some] at hlow
      rw [walkLevels]
      simp only [hval, if_true]
      exact ih hlow
    · simp [tableChild, hval] at hlow

/-- Where the last-level table exists, `walk` returns its entry and changes
nothing. -/
theorem walk_present (alloc : Bool)
    (hva : va < MAXVA) (hlow : lowTable memory pagetable va = some low) :
    walk memory pagetable va alloc = .ok (some (low, PX 0 va), memory) := by
  have hlevels : walkLevels va alloc [2, 1] memory pagetable =
      (some low, memory) := walkLevels_present alloc hlow
  rw [walk, if_neg (Nat.not_le.mpr hva), hlevels]
  rfl

theorem lookup_of_le (memory : Memory) (pagetable : ℕ)
    (hva : MAXVA ≤ va) : lookup memory pagetable va = none := by
  rw [lookup, walk, if_pos hva]

theorem lookup_eq (memory : Memory) (pagetable : ℕ) (hva : va < MAXVA) :
    lookup memory pagetable va = (lowTable memory pagetable va).bind fun low =>
        if hasFlag (readPte memory low (PX 0 va)) PTE_V then
          some (readPte memory low (PX 0 va)) else none := by
  rw [lookup, walk_noalloc memory pagetable hva]
  cases lowTable memory pagetable va with
  | none => rfl
  | some low => rfl

theorem lookup_lt (hsome : lookup memory pagetable va = some pte) : va < MAXVA := by
  by_contra hle
  rw [lookup_of_le _ _ (Nat.le_of_not_lt hle)] at hsome
  exact absurd hsome (by simp)

theorem lookup_eq_some (hsome : lookup memory pagetable va = some pte) :
    ∃ low, lowTable memory pagetable va = some low ∧
      readPte memory low (PX 0 va) = pte ∧ hasFlag pte PTE_V = true := by
  rw [lookup_eq _ _ (lookup_lt hsome), bind_eq_some_iff] at hsome
  obtain ⟨low, hlow, he⟩ := hsome
  split at he
  next hval =>
    rw [some.injEq] at he
    exact ⟨low, hlow, he, he ▸ hval⟩
  next => exact absurd he (by simp)

theorem walkaddr_eq (memory : Memory) (pagetable va : ℕ) : walkaddr memory pagetable va =
      (lookup memory pagetable va).bind fun pte =>
        if hasFlag pte PTE_U && PTE2PA pte != 0 then some (PTE2PA pte)
        else none := by
  by_cases hva : va < MAXVA
  · rw [walkaddr, lookup, walk_noalloc memory pagetable hva]
    cases hlow : lowTable memory pagetable va with
    | none => rfl
    | some low =>
      simp only [map_some]
      cases hasFlag (loadPte memory (low, PX 0 va)) PTE_V with
      | false => rfl
      | true => simp
  · rw [lookup_of_le _ _ (Nat.le_of_not_lt hva), walkaddr, walk,
      if_pos (Nat.le_of_not_lt hva), bind_none]

end Xv6.PageTable
