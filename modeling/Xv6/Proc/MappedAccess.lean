import Xv6.Param
import Xv6.Proc.ExecOwnership

/-!
# Two ways to mapped memory

The loads and stores of a user process go through the page table of the hardware
and, for a page of a mapping that is not there yet, through the page-fault branch
of `usertrap`.  `copyin` and `copyout` go through `walkaddr`, which has no such
branch.  On pages that were touched before the two agree byte by byte.
-/

namespace Xv6.MappedAccess

open LittleEndian Riscv Kalloc PageTable PageMap Mapping UserMemory Ownership AddressSpace Outcome
open Function

/-! ## User loads and stores -/

inductive Access where
  | load
  | store
  deriving DecidableEq

/-- The permission check of Sv39 for a user access.  A writable entry that is not
readable is reserved, so both accesses need `PTE_R`. -/
def permits (pte : Pte) : Access → Bool
  | .load => hasFlag pte PTE_U && hasFlag pte PTE_R
  | .store => hasFlag pte PTE_U && hasFlag pte PTE_R && hasFlag pte PTE_W

/-- The physical page of a user access; `none` is a page fault. -/
def translate (memory : Memory) (pagetable va : ℕ) (access : Access) : Option ℕ :=
  (lookup memory pagetable va).bind fun pte =>
    if permits pte access then some (PTE2PA pte) else none

def userLoad (memory : Memory) (pagetable va : ℕ) : Option Byte :=
  (translate memory pagetable va .load).map fun pa => byteAt (memory.page pa) (va % PGSIZE)

def userStore (memory : Memory) (pagetable va : ℕ) (value : Byte) :
    Option Memory :=
  (translate memory pagetable va .store).map fun pa => storeBytes memory pa (va % PGSIZE) [value]

/-- Loads from consecutive addresses, none of which faults. -/
def userLoads (memory : Memory) (pagetable : ℕ) : ℕ → ℕ → Option (List Byte)
  | _, 0 => some []
  | va, count + 1 => do
    let value ← userLoad memory pagetable va
    let values ← userLoads memory pagetable (va + 1) count
    return value :: values

/-- Stores to consecutive addresses, none of which faults. -/
def userStores (pagetable : ℕ) : Memory → ℕ → List Byte → Option Memory
  | memory, _, [] => some memory
  | memory, va, value :: values => do
    let memory ← userStore memory pagetable va value
    userStores pagetable memory (va + 1) values

/-! ## The page-fault branch of `usertrap` -/

/-- The fields of `struct vm_area_struct` that `usertrap` reads; `content` is what
the inode `f->ip` holds. -/
structure Vma where
  valid : Bool
  addr : ℕ
  len : ℕ
  prot : BitVec 32
  content : List Byte

/-- The test of `usertrap` for the mapping of an address. -/
def Vma.Covers (vma : Vma) (va : ℕ) : Prop :=
  vma.valid = true ∧ vma.addr ≤ va ∧ va < vma.addr + vma.len

instance (vma : Vma) (va : ℕ) : Decidable (vma.Covers va) := inferInstanceAs (Decidable (_ ∧ _ ∧ _))

def allows (prot bit : BitVec 32) : Bool := prot &&& bit != 0

def faultFlags (prot : BitVec 32) : Pte :=
  PTE_U ||| (if allows prot PROT_READ then PTE_R else 0) |||
    (if allows prot PROT_WRITE then PTE_W else 0)

/-- The loop of `usertrap` over `p->vma`; the flag is `p->killed`.  When `kalloc`
fails the loop goes on. -/
def faultLoop (pagetable va : ℕ) : List Vma → Memory → Bool → Except Panic (Memory × Bool)
  | [], memory, killed => return (memory, killed)
  | vma :: rest, memory, killed =>
    if vma.Covers va then
      match kalloc memory with
      | (none, memory) => faultLoop pagetable va rest memory true
      | (some mem, memory) => do
        let memory := fillPage memory mem 0
        let memory := storeBytes memory mem 0 ((vma.content.drop (va - vma.addr)).take PGSIZE)
        let (mapped, memory) ← mappages memory pagetable (PGROUNDDOWN va)
          PGSIZE mem (faultFlags vma.prot)
        if mapped then return (memory, killed)
        else
          let memory ← kfree memory mem
          return (memory, true)
    else faultLoop pagetable va rest memory killed

/-- The branch of `usertrap` for a load or store page fault at `va`. -/
def pageFault (memory : Memory) (pagetable sz sp : ℕ) (vmas : List Vma) (va : ℕ) :
    Except Panic (Memory × Bool) :=
  faultLoop pagetable va vmas memory (decide (sz ≤ va ∨ va < sp))

/-! ## Touched pages -/

/-- What the page table may hold at an address of a mapping: nothing, an entry that
`usertrap` has made, or the last page of the memory below the mapping. -/
structure Populated (memory : Memory) (pagetable : ℕ) (vma : Vma) (va : ℕ) : Prop where
  covers : vma.Covers va
  below : va < TRAPFRAME
  entry : ∀ pte, lookup memory pagetable va = some pte →
    ∃ pa perm, (perm = faultFlags vma.prot ∨ perm = PTE_USER) ∧ pte = leafPte pa perm

/-- The page of an address of a mapping was touched, and its entry permits the access. -/
structure Touched (memory : Memory) (pagetable : ℕ) (vma : Vma) (access : Access) (va : ℕ) :
    Prop extends Populated memory pagetable vma va where
  permitted : ∃ pte, lookup memory pagetable va = some pte ∧ permits pte access = true

section
variable {memory after : Memory} {pagetable va : ℕ} {vma : Vma}

theorem isPerm_faultFlags (prot : BitVec 32) : IsPerm (faultFlags prot) := by
  unfold faultFlags
  split <;> split <;> decide

/-- A touched page of a readable mapping may be loaded from, and stored to if the
mapping is writable too. -/
theorem touched_permits {prot : BitVec 32} {pa : ℕ} {perm : Pte}
    (hperm : perm = faultFlags prot ∨ perm = PTE_USER) (hread : allows prot PROT_READ = true) :
    permits (leafPte pa perm) .load = true ∧ (allows prot PROT_WRITE = true →
        permits (leafPte pa perm) .store = true) := by
  simp only [permits, hasFlag_leafPte PTE_U (by decide), hasFlag_leafPte PTE_R (by decide),
    hasFlag_leafPte PTE_W (by decide)]
  cases hperm with
  | inl hfault =>
    rw [hfault, faultFlags, if_pos hread]
    refine ⟨by split <;> decide, ?_⟩
    intro hwrite
    rw [if_pos hwrite]
    decide
  | inr huser =>
    rw [huser]
    exact ⟨by decide, fun _ => by decide⟩

theorem rewritten_store {base : Memory} {pa : ℕ}
    (hrewritten : Rewritten base memory pa) (offset : ℕ) (values : List Byte) :
    Rewritten base (storeBytes memory pa offset values) pa :=
  ⟨hrewritten.kernelEnd, hrewritten.freelist, fun other ho => by
    rw [← hrewritten.frame other ho]
    exact update_of_ne ho _ _⟩

/-- The page-fault branch makes the page of the address a touched one, and keeps the
address space sound. -/
theorem faultLoop_touches {rest : List Vma} {killed : Bool} {mem : ℕ}
    {popped : Memory} (hsound : Sound memory pagetable 0)
    (hva : va < TRAPFRAME) (hnone : lookup memory pagetable va = none)
    (hin : vma.Covers va) (hkal : kalloc memory = (some mem, popped))
    (hfault : faultLoop pagetable va (vma :: rest) memory killed = .ok (after, false)) :
    Sound after pagetable 0 ∧ after.kernelEnd = memory.kernelEnd ∧
      (allows vma.prot PROT_READ = true → Touched after pagetable vma .load va ∧
        (allows vma.prot PROT_WRITE = true → Touched after pagetable vma .store va)) := by
  have hround : PGROUNDDOWN va < TRAPFRAME := lt_of_le_of_lt (Nat.div_mul_le_self va PGSIZE) hva
  have halign : PGROUNDDOWN va % PGSIZE = 0 := Nat.mul_mod_left _ _
  have hfill := rewritten_store (rewritten_fillPage popped mem 0) 0
    ((vma.content.drop (va - vma.addr)).take PGSIZE)
  obtain ⟨mapped, next, hmap, hmapped, hunmapped⟩ :=
    map_fresh hsound hkal hfill hround halign
      ((lookup_round _ _ _).trans hnone) (isPerm_faultFlags vma.prot)
  rw [faultLoop, if_pos hin] at hfault
  simp only [hkal, hmap, ok_bind] at hfault
  cases mapped with
  | false =>
    obtain ⟨freed, hkfree, -⟩ := hunmapped rfl
    simp only [hkfree] at hfault
    cases hfault
  | true =>
    simp only [if_true, pure_eq_ok, Except.ok.injEq, Prod.mk.injEq] at hfault
    obtain ⟨rfl, -⟩ := hfault
    have hpage : va / PGSIZE = PGROUNDDOWN va / PGSIZE := by
      rw [PGROUNDDOWN, Nat.mul_div_cancel _ (by decide)]
    have hcons := (hmapped rfl).1
    have hlook : lookup next pagetable va = some (leafPte mem (faultFlags vma.prot)) := by
      rw [(hmapped rfl).2.single va, if_pos hpage]
    have hpop : Populated next pagetable vma va := by
      refine ⟨hin, hva, fun pte hpte => ⟨mem, faultFlags vma.prot, .inl rfl, ?_⟩⟩
      rw [hlook, Option.some.injEq] at hpte
      exact hpte.symm
    refine ⟨hcons.sound hsound, hcons.kernelEnd, fun hread => ?_⟩
    obtain ⟨hload, hstore⟩ := @touched_permits vma.prot mem _ (.inl rfl) hread
    exact ⟨⟨hpop, _, hlook, hload⟩, fun hwrite => ⟨hpop, _, hlook, hstore hwrite⟩⟩

end

end Xv6.MappedAccess
