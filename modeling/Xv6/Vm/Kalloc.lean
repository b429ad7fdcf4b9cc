import Xv6.Panic
import Xv6.Vm.Riscv

/-!
# Physical memory and the page allocator

The model of `kernel/kalloc.c`.  Physical memory is a map from page addresses
to pages of bytes, and `kmem.freelist` is the list of its free pages.  `end`,
the first address after the kernel, is set by the linker and is a parameter of
the memory.
-/

namespace Xv6.Kalloc

open LittleEndian Riscv Function

abbrev Page := Bytes PGSIZE

structure Memory where
  /-- The linker symbol `end`. -/
  kernelEnd : ℕ
  page : ℕ → Page
  freelist : List ℕ

def fillPage (memory : Memory) (pa : ℕ) (value : Byte) : Memory :=
  { memory with page := update memory.page pa fun _ => value }

/-- The guard of `kfree`: a page of the memory the allocator manages. -/
def Managed (memory : Memory) (pa : ℕ) : Prop :=
  pa % PGSIZE = 0 ∧ memory.kernelEnd ≤ pa ∧ pa < PHYSTOP

instance (memory : Memory) (pa : ℕ) : Decidable (Managed memory pa) :=
  inferInstanceAs (Decidable (_ ∧ _ ∧ _))

def kfree (memory : Memory) (pa : ℕ) : Except Panic Memory :=
  if Managed memory pa then
    .ok { fillPage memory pa 1 with freelist := pa :: memory.freelist }
  else .error .kfree

def kalloc (memory : Memory) : Option ℕ × Memory :=
  match memory.freelist with
  | [] => (none, memory)
  | r :: rest => (some r, { fillPage memory r 5 with freelist := rest })

/-- The page-table entry at an index of a page-table page. -/
def readPte (memory : Memory) (table : ℕ) (index : Fin 512) : Pte :=
  readU64 (memory.page table) (8 * index.val)

def writePte (memory : Memory) (table : ℕ) (index : Fin 512) (pte : Pte) :
    Memory :=
  { memory with
    page := update memory.page table (writeU64 (memory.page table) (8 * index.val) pte) }

@[simp]
theorem writePte_freelist (memory : Memory) (table : ℕ) (index : Fin 512)
    (pte : Pte) : (writePte memory table index pte).freelist = memory.freelist := rfl

@[simp]
theorem writePte_kernelEnd (memory : Memory) (table : ℕ) (index : Fin 512)
    (pte : Pte) : (writePte memory table index pte).kernelEnd = memory.kernelEnd := rfl

@[simp]
theorem fillPage_freelist (memory : Memory) (pa : ℕ) (value : Byte) :
    (fillPage memory pa value).freelist = memory.freelist := rfl

@[simp]
theorem fillPage_kernelEnd (memory : Memory) (pa : ℕ) (value : Byte) :
    (fillPage memory pa value).kernelEnd = memory.kernelEnd := rfl

theorem writePte_page_ne (memory : Memory) (table : ℕ) (index : Fin 512)
    (pte : Pte) {pa : ℕ} (hpa : pa ≠ table) :
    (writePte memory table index pte).page pa = memory.page pa :=
  update_of_ne hpa _ _

theorem fillPage_page_ne (memory : Memory) (value : Byte) {pa other : ℕ} (ho : other ≠ pa) :
    (fillPage memory pa value).page other = memory.page other :=
  update_of_ne ho _ _

@[simp]
theorem readPte_writePte_same (memory : Memory) (table : ℕ) (index : Fin 512) (pte : Pte) :
    readPte (writePte memory table index pte) table index = pte := by
  have hfits : 8 * index.val + 8 ≤ PGSIZE := by
    have hi := index.isLt
    simp only [PGSIZE]
    omega
  simp only [readPte, writePte, update_self]
  exact readU64_writeU64_same _ _ _ hfits

theorem readPte_writePte_ne (memory : Memory) (table other : ℕ)
    (index slot : Fin 512) (pte : Pte) (hne : other ≠ table ∨ slot ≠ index) :
    readPte (writePte memory table index pte) other slot = readPte memory other slot := by
  by_cases ho : other = table
  · subst ho
    have hslot : slot.val ≠ index.val := by
      intro heq
      rcases hne with hself | hdifferent
      · exact hself rfl
      · exact hdifferent (Fin.ext heq)
    simp only [readPte, writePte, update_self]
    exact readU64_writeU64_disjoint _ _ _ _ (by omega)
  · simp only [readPte, writePte_page_ne _ _ _ _ ho]

@[simp]
theorem readPte_fillPage_zero (memory : Memory) (table : ℕ)
    (index : Fin 512) : readPte (fillPage memory table 0) table index = 0 := by
  simp only [readPte, fillPage, update_self]
  exact readU64_zero PGSIZE _

theorem readPte_congr {first second : Memory} {table : ℕ}
    (hpage : second.page table = first.page table) :
    readPte second table = readPte first table := by
  funext index
  simp only [readPte, hpage]

theorem kfree_of_managed {memory : Memory} {pa : ℕ} (hman : Managed memory pa) :
    kfree memory pa = .ok { fillPage memory pa 1 with freelist := pa :: memory.freelist } :=
  if_pos hman

theorem kalloc_some {memory popped : Memory} {mem : ℕ} (hkal : kalloc memory = (some mem, popped)) :
    memory.freelist = mem :: popped.freelist ∧ popped.kernelEnd = memory.kernelEnd ∧
      ∀ other, other ≠ mem → popped.page other = memory.page other := by
  cases hlist : memory.freelist with
  | nil => simp [kalloc, hlist] at hkal
  | cons head rest =>
    simp only [kalloc, hlist, Prod.mk.injEq, Option.some.injEq] at hkal
    obtain ⟨rfl, rfl⟩ := hkal
    exact ⟨rfl, rfl, fun other ho => fillPage_page_ne memory 5 ho⟩

theorem kalloc_none {memory after : Memory} (hkal : kalloc memory = (none, after)) :
    after = memory ∧ memory.freelist = [] := by
  cases hlist : memory.freelist with
  | nil =>
    simp only [kalloc, hlist, Prod.mk.injEq, true_and] at hkal
    exact ⟨hkal.symm, rfl⟩
  | cons page rest => simp [kalloc, hlist] at hkal

end Xv6.Kalloc
