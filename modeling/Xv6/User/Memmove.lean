import Mathlib

/-!
# Overlapping moves

`memmove` of the kernel (`kernel/string.c`) and of the user library (`user/ulib.c`).
Addresses are 64 bits wide and compared unsigned.  Both functions copy upwards or
downwards, but they choose the direction by different tests: the kernel copies downwards
only if the destination begins inside the source, the library whenever the source is not
above the destination.
-/

namespace Xv6.Memmove

open Function

abbrev Address := BitVec 64

abbrev Memory := Address → BitVec 8

def copyUp : ℕ → Memory → Address → Address → Memory
  | 0, memory, _, _ => memory
  | n + 1, memory, d, s => copyUp n (update memory d (memory s)) (d + 1) (s + 1)

def copyDown : ℕ → Memory → Address → Address → Memory
  | 0, memory, _, _ => memory
  | n + 1, memory, d, s => copyDown n (update memory (d - 1) (memory (s - 1))) (d - 1) (s - 1)

namespace Kernel

def memmove (memory : Memory) (dst src : Address) (n : BitVec 32) : Memory :=
  if n = 0 then memory
  else if src < dst ∧ dst < src + n.setWidth 64 then
    copyDown n.toNat memory (dst + n.setWidth 64) (src + n.setWidth 64)
  else copyUp n.toNat memory dst src

end Kernel

namespace User

def memmove (memory : Memory) (dst src : Address) (n : BitVec 32) : Memory :=
  if dst < src then copyUp n.toInt.toNat memory dst src
  else copyDown n.toInt.toNat memory (dst + n.signExtend 64) (src + n.signExtend 64)

end User

/-- The memory after a move of `n` bytes; `address - dst` is the position in the range. -/
def moved (memory : Memory) (dst src : Address) (n : ℕ) : Memory := fun address =>
  if (address - dst).toNat < n then memory (src + (address - dst)) else memory address

variable {dst src : Address}

/-! ## The two loops -/

/-- Copying upwards never writes a byte of the source that is still to be read. -/
theorem copyUp_eq_moved (n : ℕ) (hn : n ≤ 2 ^ 64) : ∀ (memory : Memory) (dst src : Address),
    dst = src ∨ n ≤ (dst - src).toNat → copyUp n memory dst src = moved memory dst src n := by
  induction n with
  | zero =>
    intro memory dst src _
    funext address
    simp [copyUp, moved]
  | succ n ih =>
    intro memory dst src hapart
    have hshift : dst + 1 - (src + 1) = dst - src := by bv_omega
    have hapart' : dst + 1 = src + 1 ∨ n ≤ (dst + 1 - (src + 1)).toNat := by
      rw [hshift, add_left_inj]
      exact hapart.imp_right Nat.le_of_succ_le
    rw [copyUp, ih (by omega) _ _ _ hapart']
    funext address
    have hsource : src + 1 + (address - (dst + 1)) = src + (address - dst) := by bv_omega
    simp only [moved, hsource]
    by_cases hfst : address = dst
    · subst hfst
      have hlast : ¬(address - (address + 1)).toNat < n := by bv_omega
      rw [if_neg hlast, update_self, if_pos (by bv_omega)]
      congr 1
      bv_omega
    · have hpos : (address - (dst + 1)).toNat < n ↔ (address - dst).toNat < n + 1 := by bv_omega
      rw [update_of_ne hfst]
      by_cases hin : (address - dst).toNat < n + 1
      · have hread : src + (address - dst) ≠ dst := by rcases hapart with rfl | hapart <;> bv_omega
        rw [if_pos (hpos.mpr hin), if_pos hin, update_of_ne hread]
      · rw [if_neg (mt hpos.mp hin), if_neg hin]

/-- Copying downwards does not either, if the ranges lie the other way round. -/
theorem copyDown_eq_moved (n : ℕ) (hn : n ≤ 2 ^ 64) : ∀ memory : Memory,
    dst = src ∨ n ≤ (src - dst).toNat →
      copyDown n memory (dst + BitVec.ofNat 64 n) (src + BitVec.ofNat 64 n) =
        moved memory dst src n := by
  induction n with
  | zero =>
    intro memory _
    funext address
    simp [copyDown, moved]
  | succ n ih =>
    intro memory hapart
    have hback (p : Address) : p + BitVec.ofNat 64 (n + 1) - 1 = p + BitVec.ofNat 64 n := by
      bv_omega
    rw [copyDown, hback, hback, ih (by omega) _ (hapart.imp_right Nat.le_of_succ_le)]
    funext address
    simp only [moved]
    by_cases hlast : address = dst + BitVec.ofNat 64 n
    · subst hlast
      have hpos : dst + BitVec.ofNat 64 n - dst = BitVec.ofNat 64 n := by bv_omega
      have htoNat : (BitVec.ofNat 64 n).toNat = n := by
        rw [BitVec.toNat_ofNat, Nat.mod_eq_of_lt (by omega)]
      rw [hpos, htoNat, if_neg (lt_irrefl n), if_pos n.lt_succ_self, update_self]
    · have hpos : (address - dst).toNat < n ↔ (address - dst).toNat < n + 1 := by bv_omega
      rw [update_of_ne hlast]
      by_cases hin : (address - dst).toNat < n + 1
      · have hread : src + (address - dst) ≠ dst + BitVec.ofNat 64 n := by
          rcases hapart with rfl | hapart <;> bv_omega
        rw [if_pos (hpos.mpr hin), if_pos hin, update_of_ne hread]
      · rw [if_neg (mt hpos.mp hin), if_neg hin]

/-! ## The choice of the direction -/

theorem kernel_memmove_eq_moved (memory : Memory) (n : BitVec 32)
    (hdst : dst.toNat + n.toNat ≤ 2 ^ 64) (hsrc : src.toNat + n.toNat ≤ 2 ^ 64) :
    Kernel.memmove memory dst src n = moved memory dst src n.toNat := by
  have hn : n.setWidth 64 = BitVec.ofNat 64 n.toNat := by bv_omega
  rw [Kernel.memmove, hn]
  by_cases hzero : n = 0
  · subst hzero
    funext address
    simp [moved]
  · rw [if_neg hzero]
    by_cases hin : src < dst ∧ dst < src + BitVec.ofNat 64 n.toNat
    · rw [if_pos hin]
      exact copyDown_eq_moved _ (by bv_omega) memory (.inr (by bv_omega))
    · rw [if_neg hin]
      refine copyUp_eq_moved _ (by bv_omega) memory dst src ?_
      bv_omega

theorem user_memmove_eq_moved (memory : Memory) {n : BitVec 32} (hn : n.toNat < 2 ^ 31)
    (hdst : dst.toNat + n.toNat ≤ 2 ^ 64) (hsrc : src.toNat + n.toNat ≤ 2 ^ 64) :
    User.memmove memory dst src n = moved memory dst src n.toNat := by
  have hint : n.toInt.toNat = n.toNat := by
    rw [BitVec.toInt_eq_toNat_of_lt (by omega), Int.toNat_natCast]
  have hextend : n.signExtend 64 = BitVec.ofNat 64 n.toNat := by
    rw [BitVec.signExtend_eq_setWidth_of_msb_false
      (by rw [BitVec.msb_eq_false_iff_two_mul_lt]; omega)]
    bv_omega
  rw [User.memmove, hint, hextend]
  by_cases habove : dst < src
  · rw [if_pos habove]
    exact copyUp_eq_moved _ (by bv_omega) memory dst src (.inr (by bv_omega))
  · rw [if_neg habove]
    refine copyDown_eq_moved _ (by bv_omega) memory ?_
    bv_omega

/-- Both functions move the bytes, whatever the overlap, and nothing else. -/
theorem memmove_moves (memory : Memory) (dst src : Address) (n : BitVec 32)
    (hn : n.toNat < 2 ^ 31) (hdst : dst.toNat + n.toNat ≤ 2 ^ 64)
    (hsrc : src.toNat + n.toNat ≤ 2 ^ 64) :
    (∀ i < n.toNat, Kernel.memmove memory dst src n (dst + BitVec.ofNat 64 i) =
      memory (src + BitVec.ofNat 64 i)) ∧
    (∀ address : Address, address.toNat < dst.toNat ∨ dst.toNat + n.toNat ≤ address.toNat →
      Kernel.memmove memory dst src n address = memory address) ∧
    User.memmove memory dst src n = Kernel.memmove memory dst src n := by
  rw [kernel_memmove_eq_moved memory n hdst hsrc, user_memmove_eq_moved memory hn hdst hsrc]
  refine ⟨?_, ?_, rfl⟩
  · intro i hi
    have hposition : dst + BitVec.ofNat 64 i - dst = BitVec.ofNat 64 i := by bv_omega
    rw [moved, hposition, if_pos (by bv_omega)]
  · intro address houtside
    rw [moved, if_neg (by bv_omega)]

/-- Eight bytes moved by two, in a memory in which every byte is its address. -/
theorem memmove_moves_overlap :
    Kernel.memmove (fun address => address.setWidth 8) 2 0 8 9 = 7 ∧
      User.memmove (fun address => address.setWidth 8) 2 0 8 9 = 7 := by
  obtain ⟨hbytes, -, hsame⟩ := memmove_moves (fun address => address.setWidth 8) 2 0 8
    (by decide) (by decide) (by decide)
  rw [hsame]
  exact ⟨hbytes 7 (by decide), hbytes 7 (by decide)⟩

end Xv6.Memmove
