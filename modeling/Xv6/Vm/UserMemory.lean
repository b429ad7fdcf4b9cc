import Xv6.Vm.Mapping

/-!
# User memory

The functions of `kernel/vm.c` that create, grow, copy and free the memory of a
user process, and those that copy bytes between the kernel and user addresses.
-/

namespace Xv6.UserMemory

open LittleEndian Riscv Kalloc PageTable

def uvmcreate (memory : Memory) : Option ℕ × Memory :=
  match kalloc memory with
  | (none, memory) => (none, memory)
  | (some pagetable, memory) => (some pagetable, fillPage memory pagetable 0)

def storeBytes (memory : Memory) (pa offset : ℕ) (bytes : List Byte) : Memory :=
  { memory with
    page := Function.update memory.page pa (overwrite (memory.page pa) offset bytes) }

def loadBytes (memory : Memory) (pa offset count : ℕ) : List Byte :=
  slice (memory.page pa) offset count

def copyPage (memory : Memory) (mem pa : ℕ) : Memory :=
  { memory with page := Function.update memory.page mem (memory.page pa) }

/-- The permissions of the pages that `uvminit` and `uvmalloc` map. -/
def PTE_USER : Pte := PTE_W ||| PTE_X ||| PTE_R ||| PTE_U

/-- `uvminit`.  The result of `mappages` is ignored; `kalloc` returning null
makes the `memset` fault. -/
def uvminit (memory : Memory) (pagetable : ℕ) (src : List Byte) :
    Except Panic Memory := do
  if PGSIZE ≤ src.length then
    throw .inituvm
  match kalloc memory with
  | (none, _) => throw .kerneltrap
  | (some mem, memory) =>
    let memory := fillPage memory mem 0
    let (_, memory) ← mappages memory pagetable 0 PGSIZE mem PTE_USER
    return storeBytes memory mem 0 src

def uvmdealloc (memory : Memory) (pagetable oldsz newsz : ℕ) : Except Panic (ℕ × Memory) := do
  if oldsz ≤ newsz then
    return (oldsz, memory)
  if PGROUNDUP newsz < PGROUNDUP oldsz then
    let npages := i32 ((PGROUNDUP oldsz - PGROUNDUP newsz) / PGSIZE : ℕ)
    let memory ← uvmunmap memory pagetable (PGROUNDUP newsz) (u64 npages) true
    return (newsz, memory)
  return (newsz, memory)

/-- The loop of `uvmalloc` for a number of pages from `a` on. -/
def uvmallocLoop (pagetable oldsz : ℕ) : ℕ → Memory → ℕ → Except Panic (Bool × Memory)
  | 0, memory, _ => return (true, memory)
  | count + 1, memory, a =>
    match kalloc memory with
    | (none, memory) => do
      let (_, memory) ← uvmdealloc memory pagetable a oldsz
      return (false, memory)
    | (some mem, memory) => do
      let memory := fillPage memory mem 0
      let (mapped, memory) ← mappages memory pagetable a PGSIZE mem PTE_USER
      if mapped then
        uvmallocLoop pagetable oldsz count memory (a + PGSIZE)
      else
        let memory ← kfree memory mem
        let (_, memory) ← uvmdealloc memory pagetable a oldsz
        return (false, memory)

/-- The number of iterations of `for(a = first; a < bound; a += PGSIZE)`; the
modelled loops stop at `MAXVA` at the latest, before `a` can wrap. -/
def pageSteps (first bound : ℕ) : ℕ := (bound - first + PGSIZE - 1) / PGSIZE

def uvmalloc (memory : Memory) (pagetable oldsz newsz : ℕ) : Except Panic (ℕ × Memory) := do
  if newsz < oldsz then
    return (oldsz, memory)
  let oldsz := PGROUNDUP oldsz
  let (grown, memory) ← uvmallocLoop pagetable oldsz (pageSteps oldsz newsz) memory oldsz
  return (if grown then newsz else 0, memory)

/-- The indices of the entries of a page-table page, in order. -/
def entryIndices : List (Fin 512) := List.finRange 512

theorem nodup_entryIndices : entryIndices.Nodup := List.nodup_finRange 512

theorem sum_entryIndices {M : Type*} [AddCommMonoid M] (f : Fin 512 → M) :
    (entryIndices.map f).sum = ∑ index, f index :=
  (Fin.sum_univ_def f).symm

attribute [irreducible] entryIndices

/-- `freewalk`.  The recursion is bounded by the kernel stack: one page, with
at least one byte for every call. -/
def freewalk : ℕ → Memory → ℕ → Except Panic Memory
  | 0, _, _ => throw .kerneltrap
  | frames + 1, memory, pagetable => do
    let memory ← entryIndices.foldlM (fun memory index =>
      let pte := readPte memory pagetable index
      if hasFlag pte PTE_V && !hasFlag pte (PTE_R ||| PTE_W ||| PTE_X) then do
        let memory ← freewalk frames memory (PTE2PA pte)
        return writePte memory pagetable index 0
      else if hasFlag pte PTE_V then throw .freewalkLeaf
      else return memory) memory
    kfree memory pagetable

def uvmfree (memory : Memory) (pagetable sz : ℕ) : Except Panic Memory := do
  let memory ←
    if 0 < sz then uvmunmap memory pagetable 0 (PGROUNDUP sz / PGSIZE) true
    else pure memory
  freewalk PGSIZE memory pagetable

/-- The loop of `uvmcopy` for a number of pages from `i` on. -/
def uvmcopyLoop (old new : ℕ) : ℕ → Memory → ℕ → Except Panic (Bool × Memory)
  | 0, memory, _ => return (true, memory)
  | count + 1, memory, i => do
    match ← walk memory old i false with
    | (none, _) => throw .uvmcopyPte
    | (some ref, memory) =>
      let pte := loadPte memory ref
      if !hasFlag pte PTE_V then
        throw .uvmcopyNotPresent
      match kalloc memory with
      | (none, memory) =>
        let memory ← uvmunmap memory new 0 (i / PGSIZE) true
        return (false, memory)
      | (some mem, memory) =>
        let memory := copyPage memory mem (PTE2PA pte)
        let (mapped, memory) ← mappages memory new i PGSIZE mem (PTE_FLAGS pte)
        if mapped then
          uvmcopyLoop old new count memory (i + PGSIZE)
        else
          let memory ← kfree memory mem
          let memory ← uvmunmap memory new 0 (i / PGSIZE) true
          return (false, memory)

/-- `uvmcopy`: `true` for the result 0 and `false` for -1. -/
def uvmcopy (memory : Memory) (old new sz : ℕ) : Except Panic (Bool × Memory) :=
  uvmcopyLoop old new (pageSteps 0 sz) memory 0

def uvmclear (memory : Memory) (pagetable va : ℕ) : Except Panic Memory := do
  match ← walk memory pagetable va false with
  | (none, _) => throw .uvmclear
  | (some ref, memory) => return writePte memory ref.1 ref.2 (loadPte memory ref &&& ~~~PTE_U)

/-- The loop of `copyout`; every iteration copies at least one byte. -/
def copyoutLoop (pagetable : ℕ) : ℕ → Memory → ℕ → List Byte → Bool × Memory
  | 0, memory, _, _ => (true, memory)
  | fuel + 1, memory, dstva, src =>
    if src = [] then (true, memory)
    else
      let va0 := PGROUNDDOWN dstva
      match walkaddr memory pagetable va0 with
      | none => (false, memory)
      | some pa0 =>
        let n := min (PGSIZE - (dstva - va0)) src.length
        copyoutLoop pagetable fuel (storeBytes memory pa0 (dstva - va0) (src.take n))
          (va0 + PGSIZE) (src.drop n)

/-- `copyout`: `true` for the result 0 and `false` for -1. -/
def copyout (memory : Memory) (pagetable dstva : ℕ) (src : List Byte) : Bool × Memory :=
  copyoutLoop pagetable src.length memory dstva src

/-- The loop of `copyin`; the list holds what was copied before the end. -/
def copyinLoop (memory : Memory) (pagetable : ℕ) : ℕ → ℕ → ℕ → Bool × List Byte
  | 0, _, _ => (true, [])
  | fuel + 1, srcva, len =>
    if len = 0 then (true, [])
    else
      let va0 := PGROUNDDOWN srcva
      match walkaddr memory pagetable va0 with
      | none => (false, [])
      | some pa0 =>
        let n := min (PGSIZE - (srcva - va0)) len
        let (complete, rest) := copyinLoop memory pagetable fuel (va0 + PGSIZE) (len - n)
        (complete, loadBytes memory pa0 (srcva - va0) n ++ rest)

/-- `copyin`: whether it returns 0, and the bytes that reach `dst`. -/
def copyin (memory : Memory) (pagetable srcva len : ℕ) : Bool × List Byte :=
  copyinLoop memory pagetable len srcva len

end Xv6.UserMemory
