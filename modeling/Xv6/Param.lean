import Mathlib.Data.Nat.Notation

/-!
# Parameters

The constants of `kernel/param.h` and `kernel/fcntl.h` that several models use.
-/

namespace Xv6

def NOFILE : ℕ := 16

theorem toNat_lt_NOFILE {fd : Int} (hfd : 0 ≤ fd ∧ fd < NOFILE) : fd.toNat < NOFILE := by omega

/-- The length of `p->vma`. -/
def NVMA : ℕ := 16

def PROT_READ : BitVec 32 := 1

def PROT_WRITE : BitVec 32 := 2

def MAP_PRIVATE : BitVec 32 := 2

end Xv6
