import Xv6.Core.LittleEndian

/-!
# Sv39 addresses and page-table entries

The macros of `kernel/riscv.h` and `kernel/memlayout.h`.  A `uint64` that is
used as an address or a size is a natural number below `2^64`, with the
reduction written out where the C expression can wrap; a page-table entry is a
64-bit vector, because its fields are taken apart by shifts and masks.
-/

namespace Xv6.Riscv

open BitVec

def PGSIZE : ℕ := 4096

def u64 (value : ℤ) : ℕ := (value % 2 ^ 64).toNat

def i32 (value : ℤ) : ℤ := Int.bmod value (2 ^ 32)

def u32 (value : ℤ) : ℕ := (value % 2 ^ 32).toNat

theorem i32_of_lt {n : ℕ} (hn : n < 2 ^ 31) : i32 n = n := by
  rw [i32, Int.bmod_def]
  omega

theorem u64_natCast {n : ℕ} (hn : n < 2 ^ 64) : u64 n = n := by
  rw [u64]
  omega

def PGROUNDUP (sz : ℕ) : ℕ := (sz + PGSIZE - 1) % 2 ^ 64 / PGSIZE * PGSIZE

def PGROUNDDOWN (a : ℕ) : ℕ := a / PGSIZE * PGSIZE

def MAXVA : ℕ := 2 ^ (9 + 9 + 9 + 12 - 1)
def TRAMPOLINE : ℕ := MAXVA - PGSIZE
def TRAPFRAME : ℕ := TRAMPOLINE - PGSIZE
def KERNBASE : ℕ := 0x80000000
def PHYSTOP : ℕ := KERNBASE + 128 * 1024 * 1024

theorem PGSIZE_eq : PGSIZE = 4096 := rfl
theorem MAXVA_eq : MAXVA = 274877906944 := rfl
theorem TRAPFRAME_eq : TRAPFRAME = 274877898752 := rfl
theorem PHYSTOP_eq : PHYSTOP = 2281701376 := rfl

abbrev Pte := BitVec 64

def PTE_V : Pte := 1
def PTE_R : Pte := 2
def PTE_W : Pte := 4
def PTE_X : Pte := 8
def PTE_U : Pte := 16

def PA2PTE (pa : ℕ) : Pte := (BitVec.ofNat 64 pa >>> 12) <<< 10

def PTE2PA (pte : Pte) : ℕ := ((pte >>> 10) <<< 12).toNat

def PTE_FLAGS (pte : Pte) : Pte := pte &&& 0x3FF

def hasFlag (pte flag : Pte) : Bool := pte &&& flag != 0

def PX (level va : ℕ) : Fin 512 := ⟨va / 2 ^ (12 + 9 * level) % 512, Nat.mod_lt _ (by norm_num)⟩

/-! ## Leaf entries -/

/-- A set of permission bits: `perm` has no bit outside the flag field. -/
def IsPerm (perm : Pte) : Prop := perm.toNat < 1024

instance (perm : Pte) : Decidable (IsPerm perm) := inferInstanceAs (Decidable (perm.toNat < 1024))

theorem isPerm_getLsbD {perm : Pte} (hperm : IsPerm perm) {bit : ℕ}
    (hbit : 10 ≤ bit) : perm.getLsbD bit = false := by
  apply Nat.testBit_lt_two_pow
  calc
    perm.toNat < 2 ^ 10 := hperm
    _ ≤ 2 ^ bit := Nat.pow_le_pow_right (by norm_num) hbit

def leafPte (pa : ℕ) (perm : Pte) : Pte := PA2PTE pa ||| perm ||| PTE_V

private theorem getLsbD_PTE_V {bit : ℕ} (hbit : 0 < bit) : PTE_V.getLsbD bit = false := by
  apply Nat.testBit_lt_two_pow
  exact Nat.one_lt_two_pow (Nat.pos_iff_ne_zero.mp hbit)

theorem PTE2PA_leafPte_mod (pa : ℕ) {perm : Pte} (hperm : IsPerm perm) :
    PTE2PA (leafPte pa perm) = PGROUNDDOWN (pa % 2 ^ 64) := by
  have hbits : (leafPte pa perm >>> 10) <<< 12 = (BitVec.ofNat 64 pa >>> 12) <<< 12 := by
    apply eq_of_getLsbD_eq
    intro bit hbit
    by_cases hlow : bit < 12
    · simp [hlow]
    · have hperm' : perm.getLsbD (10 + (bit - 12)) = false := isPerm_getLsbD hperm (by omega)
      have hval : PTE_V.getLsbD (10 + (bit - 12)) = false := getLsbD_PTE_V (by omega)
      have hin : 10 + (bit - 12) < 64 := by omega
      simp only [leafPte, PA2PTE, getLsbD_shiftLeft,
        getLsbD_ushiftRight, getLsbD_or, hperm', hval,
        hin, Bool.or_false]
      simp
  rw [PTE2PA, hbits, toNat_shiftLeft, toNat_ushiftRight,
    toNat_ofNat, Nat.shiftRight_eq_div_pow, Nat.shiftLeft_eq,
    PGROUNDDOWN, PGSIZE]
  norm_num
  omega

theorem PTE2PA_leafPte {pa : ℕ} (hpa : pa < 2 ^ 64) {perm : Pte}
    (hperm : IsPerm perm) : PTE2PA (leafPte pa perm) = PGROUNDDOWN pa := by
  rw [PTE2PA_leafPte_mod pa hperm, Nat.mod_eq_of_lt hpa]

theorem PTE_FLAGS_leafPte (pa : ℕ) {perm : Pte} (hperm : IsPerm perm) :
    PTE_FLAGS (leafPte pa perm) = perm ||| PTE_V := by
  apply eq_of_getLsbD_eq
  intro bit hbit
  by_cases hflag : bit < 10
  · have hmask : (0x3FF : Pte).getLsbD bit = true := by interval_cases bit <;> decide
    have haddress : (PA2PTE pa).getLsbD bit = false := by simp [PA2PTE, hflag]
    simp only [PTE_FLAGS, leafPte, getLsbD_and, getLsbD_or,
      haddress, hmask, Bool.false_or, Bool.and_true]
  · have hmask : (0x3FF : Pte).getLsbD bit = false := isPerm_getLsbD (by decide) (by omega)
    simp only [PTE_FLAGS, getLsbD_and, getLsbD_or, hmask,
      Bool.and_false, isPerm_getLsbD hperm (by omega : 10 ≤ bit),
      getLsbD_PTE_V (by omega : 0 < bit), Bool.or_false]

theorem hasFlag_twoPow (pte : Pte) (bit : ℕ) (hbit : bit < 64) :
    hasFlag pte (BitVec.twoPow 64 bit) = pte.getLsbD bit := by
  have hmask : BitVec.twoPow 64 bit ≠ 0 := by
    intro hzero
    have hset := congrArg (fun value => BitVec.getLsbD value bit) hzero
    simp [hbit] at hset
  rw [hasFlag, and_twoPow]
  cases pte.getLsbD bit with
  | false => rfl
  | true => simpa using hmask

theorem hasFlag_PTE_V (pte : Pte) : hasFlag pte PTE_V = pte.getLsbD 0 :=
  hasFlag_twoPow pte 0 (by norm_num)

theorem hasFlag_PTE_U (pte : Pte) : hasFlag pte PTE_U = pte.getLsbD 4 :=
  hasFlag_twoPow pte 4 (by norm_num)

@[simp]
theorem hasFlag_leafPte_V (pa : ℕ) (perm : Pte) : hasFlag (leafPte pa perm) PTE_V = true := by
  rw [hasFlag_PTE_V, leafPte, getLsbD_or]
  simp [PTE_V]

@[simp]
theorem hasFlag_zero (flag : Pte) : hasFlag 0#64 flag = false := by simp [hasFlag]

theorem isPerm_PTE_FLAGS (pte : Pte) : IsPerm (PTE_FLAGS pte) := by
  have hle : (pte &&& 0x3FF).toNat ≤ (0x3FF : Pte).toNat := by
    rw [toNat_and]
    exact Nat.and_le_right
  exact lt_of_le_of_lt hle (by decide)

theorem PTE_FLAGS_or_PTE_V {pte : Pte} (hval : hasFlag pte PTE_V = true) :
    PTE_FLAGS pte ||| PTE_V = PTE_FLAGS pte := by
  rw [hasFlag_PTE_V] at hval
  apply eq_of_getLsbD_eq
  intro bit hbit
  rw [getLsbD_or]
  by_cases hzero : bit = 0
  · subst hzero
    have hmask : (0x3FF : Pte).getLsbD 0 = true := by decide
    rw [PTE_FLAGS, getLsbD_and, hval, hmask]
    rfl
  · rw [getLsbD_PTE_V (Nat.pos_of_ne_zero hzero), Bool.or_false]

theorem PTE2PA_clear_U (pte : Pte) : PTE2PA (pte &&& ~~~PTE_U) = PTE2PA pte := by
  have hbits : (pte &&& ~~~PTE_U) >>> 10 = pte >>> 10 := by
    apply eq_of_getLsbD_eq
    intro bit hbit
    have hclear : PTE_U.getLsbD (10 + bit) = false := isPerm_getLsbD (by decide) (by omega)
    by_cases hin : 10 + bit < 64
    · simp only [getLsbD_ushiftRight, getLsbD_and,
        getLsbD_not, hclear, hin, decide_true, Bool.not_false,
        Bool.and_true]
    · simp only [getLsbD_ushiftRight]
      rw [getLsbD_of_ge _ _ (by omega), getLsbD_of_ge _ _ (by omega)]
  rw [PTE2PA, PTE2PA, hbits]

theorem hasFlag_clear_U (pte : Pte) : hasFlag (pte &&& ~~~PTE_U) PTE_V = hasFlag pte PTE_V := by
  have hbit : (~~~PTE_U).getLsbD 0 = true := by decide
  rw [hasFlag_PTE_V, hasFlag_PTE_V, getLsbD_and, hbit, Bool.and_true]

/-- The other flags of a leaf are those it was made with. -/
theorem hasFlag_leafPte (flag : Pte) (hflag : flag ∈ [PTE_R, PTE_W, PTE_X, PTE_U]) (pa : ℕ)
    (perm : Pte) : hasFlag (leafPte pa perm) flag = hasFlag perm flag := by
  have hbit : ∀ bit, 0 < bit → bit < 10 → hasFlag (leafPte pa perm) (BitVec.twoPow 64 bit) =
      hasFlag perm (BitVec.twoPow 64 bit) := by
    intro bit hlow hhigh
    have haddress : (PA2PTE pa).getLsbD bit = false := by simp [PA2PTE, hhigh]
    rw [hasFlag_twoPow _ _ (by omega), hasFlag_twoPow _ _ (by omega), leafPte, getLsbD_or,
      getLsbD_or, haddress, getLsbD_PTE_V hlow, Bool.false_or, Bool.or_false]
  simp only [List.mem_cons, List.not_mem_nil, or_false] at hflag
  rcases hflag with rfl | rfl | rfl | rfl
  · exact hbit 1 (by decide) (by decide)
  · exact hbit 2 (by decide) (by decide)
  · exact hbit 3 (by decide) (by decide)
  · exact hbit 4 (by decide) (by decide)

end Xv6.Riscv
