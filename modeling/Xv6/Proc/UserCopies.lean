import Xv6.Vm.Copying
import Xv6.Fs.ShortWrite
import Xv6.Proc.MappedAccess

/-!
# Copies to and from user memory

`copyin`, `copyout` and `copyinstr` of `kernel/vm.c` go from page to page.  What they
do is said here byte by byte: a range has a leading part that is mapped for the user,
the reading functions get exactly the bytes of that part, and `copyout` stores exactly
there.  `walkaddr` refuses every address from `MAXVA` on, so no loop reaches the point
where `va0 + PGSIZE` wraps around.

On a range of a mapping, the copies do what the loads and stores of the process do as far
as its pages were touched before: the kernel's path has no page faults.
-/

namespace Xv6.UserCopies

open LittleEndian Riscv Kalloc PageTable PageMap Mapping Ownership AddressSpace UserMemory
open ExecOwnership ShortWrite

variable {pa index n : ℕ} {src : List Byte} {memory : Memory}

/-! ## `copyinstr` -/

/-- The inner loop of `copyinstr` over the bytes of one page: what is written to `dst`,
and `got_null`. -/
def copyinstrBytes : List Byte → List Byte × Bool
  | [] => ([], false)
  | byte :: rest =>
    if byte = 0 then ([0], true)
    else (byte :: (copyinstrBytes rest).1, (copyinstrBytes rest).2)

/-- The outer loop of `copyinstr`; a page without a NUL uses up at least one byte of
`max`. -/
def copyinstrLoop (memory : Memory) (pagetable : ℕ) : ℕ → ℕ → ℕ → Bool × List Byte
  | 0, _, _ => (false, [])
  | fuel + 1, srcva, max =>
    if max = 0 then (false, [])
    else
      let va0 := PGROUNDDOWN srcva
      match walkaddr memory pagetable va0 with
      | none => (false, [])
      | some pa0 =>
        let n := min (PGSIZE - (srcva - va0)) max
        let (written, got_null) := copyinstrBytes (loadBytes memory pa0 (srcva - va0) n)
        if got_null then (true, written)
        else
          let (found, rest) := copyinstrLoop memory pagetable fuel (va0 + PGSIZE) (max - n)
          (found, written ++ rest)

/-- `copyinstr`: whether it returns 0, and the bytes that reach `dst`. -/
def copyinstr (memory : Memory) (pagetable srcva max : ℕ) : Bool × List Byte :=
  copyinstrLoop memory pagetable max srcva max

/-! ## The leading part of a range -/

/-- The address is mapped with `PTE_V` and `PTE_U`, to a page that is not 0. -/
def UserMapped (memory : Memory) (pagetable va : ℕ) : Prop :=
  va < MAXVA ∧ ∃ pte, lookup memory pagetable va = some pte ∧
    hasFlag pte PTE_U = true ∧ PTE2PA pte ≠ 0

def frame (memory : Memory) (pagetable va : ℕ) : Option ℕ :=
  walkaddr memory pagetable (PGROUNDDOWN va)

/-- The first `count` of the `len` bytes from `va` on are mapped, and then comes the
end of the range or a byte that is not. -/
structure Leading (memory : Memory) (pagetable va len count : ℕ) : Prop where
  le : count ≤ len
  mapped : ∀ index < count, UserMapped memory pagetable (va + index)
  stops : count < len → ¬ UserMapped memory pagetable (va + count)

section
variable {memory after : Memory} {pagetable va len count : ℕ}

theorem frame_eq_some_iff : frame memory pagetable va = some pa ↔
    ∃ pte, lookup memory pagetable va = some pte ∧ hasFlag pte PTE_U = true ∧
      PTE2PA pte ≠ 0 ∧ PTE2PA pte = pa := by
  rw [frame, walkaddr_eq, lookup_round, Option.bind_eq_some_iff]
  constructor
  · rintro ⟨pte, hlook, hpte⟩
    split at hpte
    next hflags =>
      rw [Bool.and_eq_true, bne_iff_ne] at hflags
      exact ⟨pte, hlook, hflags.1, hflags.2, Option.some.inj hpte⟩
    next => cases hpte
  · rintro ⟨pte, hlook, huser, hne, rfl⟩
    refine ⟨pte, hlook, ?_⟩
    rw [huser, bne_iff_ne.mpr hne]
    rfl

theorem userMapped_iff : UserMapped memory pagetable va ↔
    ∃ pa, frame memory pagetable va = some pa := by
  constructor
  · rintro ⟨-, pte, hlook, huser, hne⟩
    exact ⟨PTE2PA pte, frame_eq_some_iff.mpr ⟨pte, hlook, huser, hne, rfl⟩⟩
  · rintro ⟨pa, hframe⟩
    obtain ⟨pte, hlook, huser, hne, -⟩ := frame_eq_some_iff.mp hframe
    exact ⟨lookup_lt hlook, pte, hlook, huser, hne⟩

theorem not_userMapped (hframe : frame memory pagetable va = none) :
    ¬ UserMapped memory pagetable va := by
  rw [userMapped_iff]
  rintro ⟨pa, hsome⟩
  rw [hframe] at hsome
  cases hsome

theorem userByte_of_frame (hframe : frame memory pagetable va = some pa) :
    userByte memory pagetable va = byteAt (memory.page pa) (va % PGSIZE) := by
  rw [frame] at hframe
  rw [userByte, hframe]

theorem Leading.full_iff (hleading : Leading memory pagetable va len count) :
    count = len ↔ ∀ index < len, UserMapped memory pagetable (va + index) := by
  constructor
  · rintro rfl
    exact hleading.mapped
  · intro hall
    by_contra hne
    have hlt := lt_of_le_of_ne hleading.le hne
    exact hleading.stops hlt (hall count hlt)

theorem leading_zero (hstop : len ≠ 0 → frame memory pagetable va = none) :
    Leading memory pagetable va len 0 where
  le := Nat.zero_le len
  mapped index hi := absurd hi (Nat.not_lt_zero index)
  stops hpos := not_userMapped (hstop (Nat.ne_of_gt hpos))

/-- Where a page ends, for a piece that begins at `va`. -/
structure Piece (va len n : ℕ) : Prop where
  pos : 0 < n
  le : n ≤ len
  inside : va % PGSIZE + n ≤ PGSIZE
  next : n < len → PGROUNDDOWN va + PGSIZE = va + n

theorem sub_round (va : ℕ) : va - PGROUNDDOWN va = va % PGSIZE := by
  simp only [PGROUNDDOWN, PGSIZE_eq]
  omega

theorem piece_min (hlen : len ≠ 0) : Piece va len (min (PGSIZE - (va - PGROUNDDOWN va)) len) := by
  rw [sub_round]
  constructor <;> simp only [PGROUNDDOWN, PGSIZE_eq] <;> omega

theorem round_add (hin : va % PGSIZE + index < PGSIZE) :
    PGROUNDDOWN (va + index) = PGROUNDDOWN va := by
  simp only [PGROUNDDOWN, PGSIZE_eq] at *
  omega

theorem mod_add (hin : va % PGSIZE + index < PGSIZE) :
    (va + index) % PGSIZE = va % PGSIZE + index := by
  simp only [PGSIZE_eq] at *
  omega

theorem eq_of_round {first second : ℕ} (hround : PGROUNDDOWN first = PGROUNDDOWN second)
    (hmod : first % PGSIZE = second % PGSIZE) : first = second := by
  simp only [PGROUNDDOWN, PGSIZE_eq] at *
  omega

theorem frame_add (hin : va % PGSIZE + index < PGSIZE) :
    frame memory pagetable (va + index) = frame memory pagetable va := by
  rw [frame, frame, round_add hin]

theorem Leading.page (hpiece : Piece va len n)
    (hframe : frame memory pagetable va = some pa)
    (hrest : Leading memory pagetable (PGROUNDDOWN va + PGSIZE) (len - n) count) :
    Leading memory pagetable va len (n + count) where
  le := by
    have hle := hrest.le
    have hn := hpiece.le
    omega
  mapped index hi := by
    by_cases hfst : index < n
    · have hin := hpiece.inside
      rw [userMapped_iff, frame_add (by omega)]
      exact ⟨pa, hframe⟩
    · have hle := hrest.le
      have hnext := hpiece.next (by omega)
      have hmapped := hrest.mapped (index - n) (by omega)
      rw [hnext] at hmapped
      have haddress : va + n + (index - n) = va + index := by omega
      rw [haddress] at hmapped
      exact hmapped
  stops hlt := by
    have hstops := hrest.stops (by omega)
    rw [hpiece.next (by omega), Nat.add_assoc] at hstops
    exact hstops

/-! ## Reading -/

def userBytes (memory : Memory) (pagetable va count : ℕ) : List Byte :=
  (List.range count).map fun index => userByte memory pagetable (va + index)

@[simp]
theorem length_userBytes : (userBytes memory pagetable va count).length = count := by
  rw [userBytes, List.length_map, List.length_range]

@[simp]
theorem userBytes_zero : userBytes memory pagetable va 0 = [] := rfl

theorem loadBytes_eq_userBytes (hpiece : Piece va len n)
    (hframe : frame memory pagetable va = some pa) :
    loadBytes memory pa (va - PGROUNDDOWN va) n = userBytes memory pagetable va n := by
  have hin := hpiece.inside
  exact loadBytes_eq_userByte hframe (by omega)

theorem userBytes_add (n : ℕ) : userBytes memory pagetable va (n + count) =
    userBytes memory pagetable va n ++ userBytes memory pagetable (va + n) count := by
  rw [userBytes, List.range_add, List.map_append, List.map_map]
  refine congrArg _ (List.map_congr_left fun index _ => ?_)
  rw [Nat.add_assoc]
  rfl

theorem userBytes_page (hpiece : Piece va len n)
    (hrest : Leading memory pagetable (PGROUNDDOWN va + PGSIZE) (len - n) count) :
    userBytes memory pagetable va n ++ userBytes memory pagetable (PGROUNDDOWN va + PGSIZE) count =
      userBytes memory pagetable va (n + count) := by
  rw [userBytes_add]
  by_cases hcount : count = 0
  · rw [hcount, userBytes_zero, userBytes_zero]
  · have hle := hrest.le
    rw [hpiece.next (by omega)]

theorem copyinLoop_leading (memory : Memory) (pagetable fuel : ℕ) :
    ∀ va len, len ≤ fuel → ∃ count, Leading memory pagetable va len count ∧
      copyinLoop memory pagetable fuel va len =
        (decide (count = len), userBytes memory pagetable va count) := by
  induction fuel with
  | zero =>
    intro va len hfuel
    have hlen : len = 0 := Nat.le_zero.mp hfuel
    subst hlen
    exact ⟨0, leading_zero fun hne => absurd rfl hne, rfl⟩
  | succ fuel ih =>
    intro va len hfuel
    rw [copyinLoop]
    by_cases hlen : len = 0
    · subst hlen
      exact ⟨0, leading_zero fun hne => absurd rfl hne, rfl⟩
    · rw [if_neg hlen]
      dsimp only
      cases hwalk : walkaddr memory pagetable (PGROUNDDOWN va) with
      | none =>
        refine ⟨0, leading_zero fun _ => hwalk, ?_⟩
        rw [decide_eq_false (Ne.symm hlen)]
        rfl
      | some pa =>
        have hpiece := @piece_min va len hlen
        generalize min (PGSIZE - (va - PGROUNDDOWN va)) len = n at hpiece ⊢
        obtain ⟨count, hleading, hloop⟩ := ih (PGROUNDDOWN va + PGSIZE) (len - n)
          (by have := hpiece.pos; omega)
        refine ⟨n + count, hleading.page hpiece hwalk, ?_⟩
        dsimp only
        rw [hloop, loadBytes_eq_userBytes hpiece hwalk, userBytes_page hpiece hleading]
        have hiff : count = len - n ↔ n + count = len := by
          have := hpiece.le
          omega
        rw [decide_eq_decide.mpr hiff]

/-- `copyinstr` stops after the first NUL of a leading part, or has seen a leading part
without one. -/
structure CopiesString (memory : Memory) (pagetable va max : ℕ)
    (result : Bool × List Byte) (count : ℕ) : Prop where
  written : result.2 = userBytes memory pagetable va count
  le : count ≤ max
  mapped : ∀ index < count, UserMapped memory pagetable (va + index)
  found : result.1 = true → ∃ k, count = k + 1 ∧ userByte memory pagetable (va + k) = 0 ∧
    ∀ index < k, userByte memory pagetable (va + index) ≠ 0
  missing : result.1 = false → Leading memory pagetable va max count ∧
    ∀ index < count, userByte memory pagetable (va + index) ≠ 0

theorem copyinstrBytes_none {bytes : List Byte} (hnone : ∀ byte ∈ bytes, byte ≠ 0) :
    copyinstrBytes bytes = (bytes, false) := by
  induction bytes with
  | nil => rfl
  | cons byte rest ih =>
    rw [copyinstrBytes, if_neg (hnone byte List.mem_cons_self),
      ih fun other ho => hnone other (List.mem_cons_of_mem byte ho)]

theorem copyinstrBytes_found {before rest : List Byte} (hbefore : ∀ byte ∈ before, byte ≠ 0) :
    copyinstrBytes (before ++ 0 :: rest) = (before ++ [0], true) := by
  induction before with
  | nil => rfl
  | cons byte before ih =>
    rw [List.cons_append, copyinstrBytes, if_neg (hbefore byte List.mem_cons_self),
      ih fun other ho => hbefore other (List.mem_cons_of_mem byte ho)]
    rfl

theorem copyinstrBytes_userBytes (n : ℕ) : (copyinstrBytes (userBytes memory pagetable va n) =
        (userBytes memory pagetable va n, false) ∧
      ∀ index < n, userByte memory pagetable (va + index) ≠ 0) ∨
    ∃ k < n, copyinstrBytes (userBytes memory pagetable va n) =
        (userBytes memory pagetable va (k + 1), true) ∧ userByte memory pagetable (va + k) = 0 ∧
      ∀ index < k, userByte memory pagetable (va + index) ≠ 0 := by
  by_cases hnul : ∃ k, k < n ∧ userByte memory pagetable (va + k) = 0
  · right
    classical
    obtain ⟨hlt, hzero⟩ := Nat.find_spec hnul
    have hfst : ∀ index < Nat.find hnul, userByte memory pagetable (va + index) ≠ 0 := by
      intro index hi hbyte
      exact Nat.find_min hnul hi ⟨hi.trans hlt, hbyte⟩
    generalize Nat.find hnul = k at hlt hzero hfst
    refine ⟨k, hlt, ?_, hzero, hfst⟩
    obtain ⟨rest, rfl⟩ := Nat.exists_eq_add_of_lt hlt
    have hone : userBytes memory pagetable (va + k) 1 = [0] := by simp [userBytes, hzero]
    have hsplit : userBytes memory pagetable va (k + rest + 1) = userBytes memory pagetable va k ++
          0 :: userBytes memory pagetable (va + k + 1) rest := by
      rw [Nat.add_assoc, Nat.add_comm rest, userBytes_add, userBytes_add, hone]
      rfl
    rw [hsplit, copyinstrBytes_found, userBytes_add, hone]
    intro byte hbyte
    obtain ⟨index, hi, rfl⟩ := List.mem_map.mp hbyte
    exact hfst index (List.mem_range.mp hi)
  · left
    have hnone : ∀ index < n, userByte memory pagetable (va + index) ≠ 0 :=
      fun index hi hbyte => hnul ⟨index, hi, hbyte⟩
    refine ⟨copyinstrBytes_none ?_, hnone⟩
    intro byte hbyte
    obtain ⟨index, hi, rfl⟩ := List.mem_map.mp hbyte
    exact hnone index (List.mem_range.mp hi)

theorem copiesString_none (hstop : len ≠ 0 → frame memory pagetable va = none) :
    CopiesString memory pagetable va len (false, []) 0 where
  written := rfl
  le := Nat.zero_le len
  mapped index hi := absurd hi (Nat.not_lt_zero index)
  found htrue := absurd htrue Bool.noConfusion
  missing _ := ⟨leading_zero hstop, fun index hi => absurd hi (Nat.not_lt_zero index)⟩

theorem CopiesString.page {result : Bool × List Byte}
    (hpiece : Piece va len n) (hframe : frame memory pagetable va = some pa)
    (hnone : ∀ index < n, userByte memory pagetable (va + index) ≠ 0)
    (hrest : CopiesString memory pagetable (PGROUNDDOWN va + PGSIZE) (len - n) result count) :
    CopiesString memory pagetable va len
      (result.1, userBytes memory pagetable va n ++ result.2) (n + count) := by
  have hle := hrest.le
  have hn := hpiece.le
  have hin := hpiece.inside
  have hnext : count = 0 ∨ PGROUNDDOWN va + PGSIZE = va + n := by
    by_cases hcount : count = 0
    · exact Or.inl hcount
    · exact Or.inr (hpiece.next (by omega))
  constructor
  · rw [hrest.written, userBytes_add]
    cases hnext with
    | inl hzero => rw [hzero, userBytes_zero, userBytes_zero]
    | inr haddress => rw [haddress]
  · omega
  · intro index hi
    by_cases hfst : index < n
    · rw [userMapped_iff, frame_add (by omega)]
      exact ⟨pa, hframe⟩
    · have hmapped := hrest.mapped (index - n) (by omega)
      rw [hnext.resolve_left (by omega), Nat.add_assoc,
        Nat.add_sub_cancel' (Nat.le_of_not_lt hfst)] at hmapped
      exact hmapped
  · intro htrue
    obtain ⟨k, hk, hzero, hbefore⟩ := hrest.found htrue
    have haddress := hnext.resolve_left (by omega)
    refine ⟨n + k, by omega, ?_, ?_⟩
    · rw [haddress, Nat.add_assoc] at hzero
      exact hzero
    · intro index hi
      by_cases hfst : index < n
      · exact hnone index hfst
      · have hbyte := hbefore (index - n) (by omega)
        rw [haddress, Nat.add_assoc, Nat.add_sub_cancel' (Nat.le_of_not_lt hfst)] at hbyte
        exact hbyte
  · intro hfalse
    obtain ⟨hleading, hbefore⟩ := hrest.missing hfalse
    refine ⟨hleading.page hpiece hframe, ?_⟩
    intro index hi
    by_cases hfst : index < n
    · exact hnone index hfst
    · have hbyte := hbefore (index - n) (by omega)
      rw [hnext.resolve_left (by omega), Nat.add_assoc,
        Nat.add_sub_cancel' (Nat.le_of_not_lt hfst)] at hbyte
      exact hbyte

theorem copyinstrLoop_copies (memory : Memory) (pagetable fuel : ℕ) :
    ∀ va max, max ≤ fuel → ∃ count, CopiesString memory pagetable va max
      (copyinstrLoop memory pagetable fuel va max) count := by
  induction fuel with
  | zero =>
    intro va max hfuel
    exact ⟨0, copiesString_none fun hne => absurd (Nat.le_zero.mp hfuel) hne⟩
  | succ fuel ih =>
    intro va max hfuel
    rw [copyinstrLoop]
    by_cases hmax : max = 0
    · rw [if_pos hmax]
      exact ⟨0, copiesString_none fun hne => absurd hmax hne⟩
    · rw [if_neg hmax]
      dsimp only
      cases hwalk : walkaddr memory pagetable (PGROUNDDOWN va) with
      | none => exact ⟨0, copiesString_none fun _ => hwalk⟩
      | some pa =>
        have hpiece := @piece_min va max hmax
        generalize min (PGSIZE - (va - PGROUNDDOWN va)) max = n at hpiece ⊢
        dsimp only
        rw [loadBytes_eq_userBytes hpiece hwalk]
        cases @copyinstrBytes_userBytes memory pagetable va n with
        | inl hnone =>
          obtain ⟨count, hcopies⟩ := ih (PGROUNDDOWN va + PGSIZE) (max - n)
            (by have := hpiece.pos; omega)
          rw [hnone.1]
          exact ⟨n + count, hcopies.page hpiece hwalk hnone.2⟩
        | inr hf =>
          obtain ⟨k, hk, hbytes, hzero, hbefore⟩ := hf
          have hn := hpiece.le
          have hin := hpiece.inside
          rw [hbytes]
          refine ⟨k + 1, rfl, by omega, ?_, ?_, ?_⟩
          · intro index hi
            rw [userMapped_iff, frame_add (by omega)]
            exact ⟨pa, hwalk⟩
          · intro _
            exact ⟨k, rfl, hzero, hbefore⟩
          · intro hfalse
            cases hfalse

/-! ## Writing -/

/-- No physical page is mapped at two user addresses, and no page of the page table is
mapped for the user. -/
structure Unshared (memory : Memory) (pagetable : ℕ) : Prop where
  table : ∀ va pa, frame memory pagetable va = some pa → pa ∉ tablePages memory pagetable
  distinct : ∀ va other pa, frame memory pagetable va = some pa →
    frame memory pagetable other = some pa → PGROUNDDOWN va = PGROUNDDOWN other

theorem frame_congr (hpages : ∀ pa ∈ tablePages memory pagetable,
      after.page pa = memory.page pa) (va : ℕ) :
    frame after pagetable va = frame memory pagetable va := by
  rw [frame, frame, walkaddr_eq, walkaddr_eq, lookup_congr hpages]

theorem Unshared.store (hunshared : Unshared memory pagetable)
    (hframe : frame memory pagetable va = some pa) (hstore : Rewritten memory after pa) :
    Unshared after pagetable ∧
      (∀ other, frame after pagetable other = frame memory pagetable other) ∧
      ∀ other, lookup after pagetable other = lookup memory pagetable other := by
  have hpages : ∀ table ∈ tablePages memory pagetable, after.page table = memory.page table := by
    intro table htable
    apply hstore.frame
    intro heq
    rw [heq] at htable
    exact hunshared.table va pa hframe htable
  have hframes := frame_congr hpages
  refine ⟨⟨?_, ?_⟩, hframes, lookup_congr hpages⟩
  · intro other found hf
    rw [hframes] at hf
    rw [tablePages_congr hpages]
    exact hunshared.table other found hf
  · intro first second found hfst hsnd
    rw [hframes] at hfst hsnd
    exact hunshared.distinct first second found hfst hsnd

/-- The first `count` bytes of `src` are in the place of the user's bytes from `va` on,
and no other byte of the memory has changed. -/
structure Stored (before after : Memory) (pagetable va : ℕ) (src : List Byte)
    (count : ℕ) : Prop where
  kernelEnd : after.kernelEnd = before.kernelEnd
  freelist : after.freelist = before.freelist
  bytes : ∀ index < count, ∀ pa, frame before pagetable (va + index) = some pa →
    byteAt (after.page pa) ((va + index) % PGSIZE) = src.getD index 0
  others : ∀ pa position, (∀ index < count,
      frame before pagetable (va + index) = some pa → (va + index) % PGSIZE ≠ position) →
    byteAt (after.page pa) position = byteAt (before.page pa) position

theorem stored_zero (src : List Byte) : Stored memory memory pagetable va src 0 :=
  ⟨rfl, rfl, fun index hi => absurd hi (Nat.not_lt_zero index), fun _ _ _ => rfl⟩

theorem byteAt_storeBytes (hle : n ≤ src.length)
    (hin : va % PGSIZE + n ≤ PGSIZE) (other position : ℕ) :
    byteAt ((storeBytes memory pa (va - PGROUNDDOWN va) (src.take n)).page other) position =
      if other = pa ∧ va % PGSIZE ≤ position ∧ position < va % PGSIZE + n then
        src.getD (position - va % PGSIZE) 0
      else byteAt (memory.page other) position := by
  have hlen : (src.take n).length = n := List.length_take_of_le hle
  by_cases ho : other = pa
  · subst ho
    rw [storeBytes, sub_round]
    simp only [Function.update_self, true_and]
    rw [byteAt_overwrite _ _ (by rw [hlen]; exact hin), hlen]
    by_cases hin : va % PGSIZE ≤ position ∧ position < va % PGSIZE + n
    · rw [if_pos hin, if_pos hin, List.getD_eq_getElem?_getD,
        List.getD_eq_getElem?_getD, List.getElem?_take_of_lt (by omega)]
    · rw [if_neg hin, if_neg hin]
  · rw [if_neg fun hall => ho hall.1, storeBytes]
    simp only [Function.update_of_ne ho]

/-- A store of the first bytes, and then of the rest from the address `next` on. -/
theorem Stored.append (next : ℕ)
    (hunshared : Unshared memory pagetable) (hframe : frame memory pagetable va = some pa)
    (hin : va % PGSIZE + n ≤ PGSIZE)
    (hnext : ∀ index < count, next + index = va + (n + index)) (hcount : n + count ≤ src.length)
    (hrest : Stored (storeBytes memory pa (va - PGROUNDDOWN va) (src.take n)) after
      pagetable next (src.drop n) count) :
    Stored memory after pagetable va src (n + count) := by
  have hle : n ≤ src.length := by omega
  have hframes := (hunshared.store hframe (rewritten_storeBytes memory pa
    (va - PGROUNDDOWN va) (src.take n))).2.1
  constructor
  · exact hrest.kernelEnd
  · exact hrest.freelist
  · intro index hi found hf
    by_cases hfst : index < n
    · -- The byte is not stored to again.
      have hsame := hf
      rw [frame_add (by omega), hframe, Option.some.injEq] at hf
      subst hf
      rw [mod_add (by omega), hrest.others, byteAt_storeBytes hle hin,
        if_pos ⟨rfl, by omega, by omega⟩, Nat.add_sub_cancel_left]
      intro other ho hlater hmod
      rw [hframes, hnext other ho] at hlater
      rw [hnext other ho, ← mod_add (by omega)] at hmod
      have := eq_of_round (hunshared.distinct _ _ _ hlater hsame) hmod
      omega
    · have hbyte := hrest.bytes (index - n) (by omega) found
      rw [hframes, hnext _ (by omega), Nat.add_sub_cancel' (Nat.le_of_not_lt hfst)] at hbyte
      rw [hbyte hf, List.getD_eq_getElem?_getD, List.getD_eq_getElem?_getD,
        List.getElem?_drop, Nat.add_sub_cancel' (Nat.le_of_not_lt hfst)]
  · intro found position hout
    rw [hrest.others, byteAt_storeBytes hle hin, if_neg]
    · rintro ⟨rfl, hlow, hhigh⟩
      apply hout (position - va % PGSIZE) (by omega)
      · rw [frame_add (by omega)]
        exact hframe
      · rw [mod_add (by omega)]
        omega
    · intro index hi hsame
      rw [hframes, hnext index hi] at hsame
      rw [hnext index hi]
      exact hout (n + index) (by omega) hsame

theorem copyoutLoop_leading (pagetable fuel : ℕ) :
    ∀ (memory : Memory) (va : ℕ) (src : List Byte), src.length ≤ fuel → Unshared memory pagetable →
      ∃ count, Leading memory pagetable va src.length count ∧
        (copyoutLoop pagetable fuel memory va src).1 = decide (count = src.length) ∧
        Stored memory (copyoutLoop pagetable fuel memory va src).2 pagetable va src count := by
  induction fuel with
  | zero =>
    intro memory va src hfuel hunshared
    have hlen : src.length = 0 := Nat.le_zero.mp hfuel
    rw [hlen]
    exact ⟨0, leading_zero fun hne => absurd rfl hne, rfl, stored_zero src⟩
  | succ fuel ih =>
    intro memory va src hfuel hunshared
    rw [copyoutLoop]
    by_cases hsrc : src = []
    · subst hsrc
      exact ⟨0, leading_zero fun hne => absurd rfl hne, rfl, stored_zero []⟩
    · have hlen : src.length ≠ 0 := fun hzero => hsrc (List.length_eq_zero_iff.mp hzero)
      rw [if_neg hsrc]
      dsimp only
      cases hwalk : walkaddr memory pagetable (PGROUNDDOWN va) with
      | none =>
        refine ⟨0, leading_zero fun _ => hwalk, ?_, stored_zero src⟩
        rw [decide_eq_false (Ne.symm hlen)]
      | some pa =>
        have hpiece := @piece_min va src.length hlen
        generalize min (PGSIZE - (va - PGROUNDDOWN va)) src.length = n at hpiece ⊢
        have hpos := hpiece.pos
        have hn := hpiece.le
        obtain ⟨hstored, hframes, -⟩ := hunshared.store hwalk (rewritten_storeBytes memory
          pa (va - PGROUNDDOWN va) (src.take n))
        obtain ⟨count, hleading, hres, hrest⟩ := ih _ (PGROUNDDOWN va + PGSIZE)
          (src.drop n) (by rw [List.length_drop]; omega) hstored
        rw [List.length_drop] at hleading hres
        have hsame : Leading memory pagetable (PGROUNDDOWN va + PGSIZE) (src.length - n) count := by
          refine ⟨hleading.le, fun index hi => ?_, fun hlt => ?_⟩
          · rw [userMapped_iff, ← hframes, ← userMapped_iff]
            exact hleading.mapped index hi
          · rw [userMapped_iff, ← hframes, ← userMapped_iff]
            exact hleading.stops hlt
        have hle := hleading.le
        refine ⟨n + count, hsame.page hpiece hwalk, ?_, ?_⟩
        · dsimp only
          rw [hres]
          exact decide_eq_decide.mpr (by omega)
        · refine hrest.append _ hunshared hwalk hpiece.inside (fun index hi => ?_) (by omega)
          rw [hpiece.next (by omega), Nat.add_assoc]

theorem page_ext {first second : Page}
    (hbytes : ∀ position, byteAt first position = byteAt second position) : first = second := by
  funext index
  have hbyte := hbytes index.val
  rw [byteAt, byteAt, dif_pos index.isLt, dif_pos index.isLt] at hbyte
  exact hbyte

theorem Stored.frame_eq (hunshared : Unshared memory pagetable)
    (hstored : Stored memory after pagetable va src count) (other : ℕ) :
    frame after pagetable other = frame memory pagetable other := by
  apply frame_congr
  intro table htable
  apply page_ext
  intro position
  apply hstored.others
  intro index _ hframe
  exact absurd htable (hunshared.table _ _ hframe)

end

theorem copyin_exact (memory : Memory) (pagetable va len : ℕ) :
    ((copyin memory pagetable va len).1 = true ↔
      ∀ index < len, UserMapped memory pagetable (va + index)) ∧
    ∃ count, Leading memory pagetable va len count ∧
      (copyin memory pagetable va len).2 = userBytes memory pagetable va count := by
  obtain ⟨count, hleading, hloop⟩ := copyinLoop_leading memory pagetable len va len le_rfl
  rw [copyin, hloop]
  refine ⟨?_, count, hleading, rfl⟩
  rw [← hleading.full_iff]
  exact decide_eq_true_iff

theorem copyout_exact {pagetable : ℕ} (hunshared : Unshared memory pagetable)
    (va : ℕ) (src : List Byte) :
    ((copyout memory pagetable va src).1 = true ↔
      ∀ index < src.length, UserMapped memory pagetable (va + index)) ∧
    ∃ count, Leading memory pagetable va src.length count ∧
      Stored memory (copyout memory pagetable va src).2 pagetable va src count := by
  obtain ⟨count, hleading, hresult, hstored⟩ :=
    copyoutLoop_leading pagetable src.length memory va src le_rfl hunshared
  rw [copyout]
  refine ⟨?_, count, hleading, hstored⟩
  rw [hresult, ← hleading.full_iff]
  exact decide_eq_true_iff

/-- `copyin` and `copyinstr`, for every page table, every address and every length, and
`copyout`, where no page is mapped twice and no page of the page table is mapped. -/
theorem user_copies_exact (memory : Memory) (pagetable va : ℕ) : (∀ len,
      ((copyin memory pagetable va len).1 = true ↔
        ∀ index < len, UserMapped memory pagetable (va + index)) ∧
      ∃ count, Leading memory pagetable va len count ∧
        (copyin memory pagetable va len).2 = userBytes memory pagetable va count) ∧
    (∀ max, ((copyinstr memory pagetable va max).1 = true ↔
        ∃ k < max, (∀ index ≤ k, UserMapped memory pagetable (va + index)) ∧
          userByte memory pagetable (va + k) = 0) ∧
      ((copyinstr memory pagetable va max).1 = true →
        ∃ k < max, userByte memory pagetable (va + k) = 0 ∧
          (∀ index < k, userByte memory pagetable (va + index) ≠ 0) ∧
          (copyinstr memory pagetable va max).2 = userBytes memory pagetable va (k + 1)) ∧
      (copyinstr memory pagetable va max).2.length ≤ max) ∧
    (Unshared memory pagetable → ∀ src : List Byte, ((copyout memory pagetable va src).1 = true ↔
        ∀ index < src.length, UserMapped memory pagetable (va + index)) ∧
      ∃ count, Leading memory pagetable va src.length count ∧
        Stored memory (copyout memory pagetable va src).2 pagetable va src count) := by
  refine ⟨copyin_exact memory pagetable va, fun max => ?_,
    fun hunshared => copyout_exact hunshared va⟩
  obtain ⟨count, hcopies⟩ := copyinstrLoop_copies memory pagetable max va max le_rfl
  rw [copyinstr]
  refine ⟨⟨fun htrue => ?_, fun hnul => ?_⟩, fun htrue => ?_, ?_⟩
  · obtain ⟨k, hk, hzero, -⟩ := hcopies.found htrue
    have hle := hcopies.le
    exact ⟨k, by omega, fun index hindex => hcopies.mapped index (by omega), hzero⟩
  · obtain ⟨k, hk, hmapped, hzero⟩ := hnul
    by_contra hfalse
    obtain ⟨hleading, hbytes⟩ := hcopies.missing (Bool.not_eq_true _ ▸ hfalse)
    -- The NUL is in the leading part, where `copyinstr` has not seen one.
    have hinside : k < count := by
      by_contra houtside
      exact hleading.stops (by omega) (hmapped count (by omega))
    exact hbytes k hinside hzero
  · obtain ⟨k, hk, hzero, hbefore⟩ := hcopies.found htrue
    have hle := hcopies.le
    refine ⟨k, by omega, hzero, hbefore, ?_⟩
    rw [hcopies.written, hk]
  · rw [hcopies.written, length_userBytes]
    exact hcopies.le

/-! ## Write protection -/

def ReadOnly (memory : Memory) (pagetable va : ℕ) : Prop :=
  ∃ pte, lookup memory pagetable va = some pte ∧ hasFlag pte PTE_U = true ∧
    PTE2PA pte ≠ 0 ∧ hasFlag pte PTE_W = false

/-- `copyout` changes no byte of a page without `PTE_W`, and fails when the range has
one. -/
def HonoursProtection (memory : Memory) (pagetable va : ℕ) (src : List Byte) : Prop :=
  (∀ other, ReadOnly memory pagetable other →
    userByte (copyout memory pagetable va src).2 pagetable other =
      userByte memory pagetable other) ∧
  ((∃ index < src.length, ReadOnly memory pagetable (va + index)) →
    (copyout memory pagetable va src).1 = false)

/-- The copy reaches a page without `PTE_W` only with the bytes that are there already,
and fails later. -/
def SparesReadOnly (memory : Memory) (pagetable va : ℕ) (src : List Byte) : Prop :=
  ∀ index < src.length, (∀ earlier ≤ index, UserMapped memory pagetable (va + earlier)) →
    ReadOnly memory pagetable (va + index) →
      src.getD index 0 = userByte memory pagetable (va + index) ∧
      ∃ later < src.length, ¬ UserMapped memory pagetable (va + later)

section
variable {memory : Memory} {pagetable va : ℕ}

theorem ReadOnly.frame (hreadonly : ReadOnly memory pagetable va) :
    ∃ pa, frame memory pagetable va = some pa := by
  obtain ⟨pte, hlook, huser, hne, -⟩ := hreadonly
  exact ⟨PTE2PA pte, frame_eq_some_iff.mpr ⟨pte, hlook, huser, hne, rfl⟩⟩

end

/-- `copyout` does not test `PTE_W`. -/
theorem honours_protection_iff (memory : Memory) (pagetable va : ℕ) (src : List Byte)
    (hunshared : Unshared memory pagetable) :
    HonoursProtection memory pagetable va src ↔
      SparesReadOnly memory pagetable va src := by
  obtain ⟨count, hleading, hresult, hstored⟩ :=
    copyoutLoop_leading pagetable src.length memory va src le_rfl hunshared
  have hframes := hstored.frame_eq hunshared
  rw [HonoursProtection, copyout]
  constructor
  · rintro ⟨hkept, hfails⟩ index hindex hmapped hreadonly
    have hfalse := hfails ⟨index, hindex, hreadonly⟩
    rw [hresult, decide_eq_false_iff_not] at hfalse
    have hle := hleading.le
    have hinside : index < count := by
      by_contra houtside
      exact hleading.stops (by omega) (hmapped count (by omega))
    obtain ⟨pa, hframe⟩ := hreadonly.frame
    refine ⟨?_, count, by omega, hleading.stops (by omega)⟩
    rw [← hkept _ hreadonly, userByte_of_frame ((hframes _).trans hframe)]
    exact (hstored.bytes index hinside pa hframe).symm
  · intro hspares
    constructor
    · intro other hreadonly
      obtain ⟨pa, hframe⟩ := hreadonly.frame
      rw [userByte_of_frame ((hframes _).trans hframe), userByte_of_frame hframe]
      by_cases hhit : ∃ index < count, va + index = other
      · obtain ⟨index, hindex, rfl⟩ := hhit
        have hle := hleading.le
        have hsame := (hspares index (by omega)
          (fun earlier hearlier => hleading.mapped earlier (by omega)) hreadonly).1
        rw [hstored.bytes index hindex pa hframe, hsame, userByte_of_frame hframe]
      · apply hstored.others
        intro index hindex hsame hmod
        apply hhit
        exact ⟨index, hindex, eq_of_round (hunshared.distinct _ _ _ hsame hframe) hmod⟩
    · rintro ⟨index, hindex, hreadonly⟩
      rw [hresult, decide_eq_false_iff_not]
      intro hfull
      have hmapped := hleading.full_iff.mp hfull
      obtain ⟨-, later, hlater, hunmapped⟩ := hspares index hindex
        (fun earlier hearlier => hmapped earlier (by omega)) hreadonly
      exact hunmapped (hmapped later hlater)

/-! ## The page tables of processes -/

section
variable {memory : Memory} {pagetable : ℕ}

/-- The pages of a process are its own: none is mapped twice below `TRAPFRAME`, and
what is above is not for the user. -/
theorem unshared_of_sound (hsound : Sound memory pagetable 0)
    (hhigh : ∀ va, TRAPFRAME ≤ va → frame memory pagetable va = none) :
    Unshared memory pagetable := by
  have hleaf : ∀ va pa, frame memory pagetable va = some pa → va / PGSIZE < userPages ∧
        ∃ pte, lookup memory pagetable (va / PGSIZE * PGSIZE) = some pte ∧ PTE2PA pte = pa := by
    intro va pa hframe
    have hlow : va < TRAPFRAME := by
      by_contra hle
      rw [hhigh va (Nat.le_of_not_lt hle)] at hframe
      cases hframe
    obtain ⟨pte, hlook, -, -, hpa⟩ := frame_eq_some_iff.mp hframe
    rw [← lookup_round, PGROUNDDOWN] at hlook
    exact ⟨div_lt_userPages hlow, pte, hlook, hpa⟩
  constructor
  · intro va pa hframe
    obtain ⟨hpage, pte, hlook, rfl⟩ := hleaf va pa hframe
    exact (leaf_outside hsound hpage hlook).1
  · intro va other pa hva ho
    obtain ⟨hpage, pte, hlook, hpa⟩ := hleaf va pa hva
    obtain ⟨hpage', pte', hlookup', hpa'⟩ := hleaf other pa ho
    rw [PGROUNDDOWN, PGROUNDDOWN,
      leaf_inj hsound hpage hpage' hlook hlookup' (hpa.trans hpa'.symm)]

/-- The last entry of the lower half of the root leads to `TRAPFRAME` and above. -/
theorem frame_high (hroot : hasFlag (readPte memory pagetable (PX 2 TRAPFRAME)) PTE_V = false)
    (va : ℕ) (hva : TRAPFRAME ≤ va) : frame memory pagetable va = none := by
  cases hframe : frame memory pagetable va with
  | none => rfl
  | some pa =>
    exfalso
    obtain ⟨pte, hlook, -⟩ := frame_eq_some_iff.mp hframe
    have hlt := lookup_lt hlook
    obtain ⟨low, hlow, -⟩ := lookup_eq_some hlook
    have htop : PX 2 va = PX 2 TRAPFRAME := by
      apply Fin.ext
      simp only [PX, TRAPFRAME_eq, MAXVA_eq] at hva hlt ⊢
      omega
    rw [lowTable, tablePath, htop, RadixTree.descend_cons, tableChild] at hlow
    simp [hroot] at hlow

end

/-! ## The accesses of the process -/

open MappedAccess (Access Vma translate permits userLoad userLoads userStore userStores Populated
  Touched allows touched_permits)

section
variable {memory after : Memory} {pagetable va count : ℕ} {access : Access}

theorem frame_of_translate (hmapped : UserMapped memory pagetable va)
    (htranslate : translate memory pagetable va access = some pa) :
    frame memory pagetable va = some pa := by
  obtain ⟨-, pte, hlook, huser, hne⟩ := hmapped
  rw [MappedAccess.translate, hlook, Option.bind_some] at htranslate
  split at htranslate
  · exact frame_eq_some_iff.mpr ⟨pte, hlook, huser, hne, Option.some.inj htranslate⟩
  · cases htranslate

theorem userLoads_eq (hmapped : ∀ index < count, UserMapped memory pagetable (va + index))
    (hload : ∀ index < count, (translate memory pagetable (va + index) .load).isSome) :
    userLoads memory pagetable va count = some (userBytes memory pagetable va count) := by
  induction count generalizing va with
  | zero => rfl
  | succ count ih =>
    obtain ⟨pa, hpa⟩ := Option.isSome_iff_exists.mp (hload 0 (Nat.succ_pos count))
    have hbyte := userByte_of_frame (frame_of_translate (hmapped 0 (Nat.succ_pos count)) hpa)
    rw [Nat.add_zero] at hpa hbyte
    have hrest := @ih (va + 1)
      (fun index hi => by
        rw [Nat.add_assoc, Nat.add_comm 1]
        exact hmapped (index + 1) (by omega))
      (fun index hi => by
        rw [Nat.add_assoc, Nat.add_comm 1]
        exact hload (index + 1) (by omega))
    rw [userLoads, userLoad, hpa, hrest, Nat.add_comm count, userBytes_add]
    change some ([byteAt (memory.page pa) (va % PGSIZE)] ++ _) = _
    rw [← hbyte]
    rfl

/-- The stores of a process go through as far as the entries permit, and then leave what
`copyout` leaves. -/
theorem userStores_spec (src : List Byte) {va : ℕ}
    (hunshared : Unshared memory pagetable)
    (hmapped : ∀ index < src.length, UserMapped memory pagetable (va + index)) :
    ((userStores pagetable memory va src).isSome ↔
      ∀ index < src.length, (translate memory pagetable (va + index) .store).isSome) ∧
    ∀ after, userStores pagetable memory va src = some after →
      Stored memory after pagetable va src src.length := by
  induction src generalizing memory va with
  | nil =>
    refine ⟨⟨fun _ index hi => absurd hi (Nat.not_lt_zero index), fun _ => rfl⟩, ?_⟩
    rintro after ⟨⟩
    exact stored_zero []
  | cons value values ih =>
    have hsucc : ∀ index, va + 1 + index = va + (index + 1) := by omega
    cases htr : translate memory pagetable va .store with
    | none =>
      rw [userStores, userStore, htr]
      refine ⟨⟨fun hsome => (by cases hsome), fun hall => ?_⟩, fun after hsome => (by cases hsome)⟩
      have hfst := hall 0 (Nat.succ_pos values.length)
      rw [Nat.add_zero, htr] at hfst
      cases hfst
    | some pa =>
      have hframe := frame_of_translate (hmapped 0 (Nat.succ_pos values.length)) htr
      rw [Nat.add_zero] at hframe
      obtain ⟨hunshared', hframes, hlooks⟩ := hunshared.store hframe
        (rewritten_storeBytes memory pa (va % PGSIZE) [value])
      have htranslate : ∀ index,
          translate (storeBytes memory pa (va % PGSIZE) [value]) pagetable (va + 1 + index) .store =
            translate memory pagetable (va + (index + 1)) .store := by
        intro index
        rw [MappedAccess.translate, hlooks, hsucc, MappedAccess.translate]
      obtain ⟨hiff, hstored⟩ := @ih _ (va + 1) hunshared' fun index hi => by
        rw [userMapped_iff, hframes, ← userMapped_iff, hsucc]
        exact hmapped (index + 1) (Nat.succ_lt_succ hi)
      have hstep : userStores pagetable memory va (value :: values) = userStores pagetable
          (storeBytes memory pa (va % PGSIZE) [value]) (va + 1) values := by
        rw [userStores, userStore, htr]
        rfl
      rw [hstep]
      constructor
      · rw [hiff]
        constructor
        · intro hall index hi
          cases index with
          | zero => rw [Nat.add_zero, htr]; rfl
          | succ index => rw [← htranslate]; exact hall index (Nat.lt_of_succ_lt_succ hi)
        · intro hall index hi
          rw [htranslate]
          exact hall (index + 1) (Nat.succ_lt_succ hi)
      · intro after hafter
        have hmod : va % PGSIZE < PGSIZE := Nat.mod_lt va (by decide)
        rw [List.length_cons, Nat.add_comm]
        refine Stored.append (va + 1) hunshared hframe hmod
          (fun index _ => Nat.add_assoc va 1 index) (by rw [List.length_cons]; omega) ?_
        rw [sub_round]
        exact hstored after hafter

theorem Stored.unique {other : Memory}
    (hafter : Stored memory after pagetable va src count)
    (hother : Stored memory other pagetable va src count) : after = other := by
  have hpage : after.page = other.page := by
    funext pa
    apply page_ext
    intro position
    by_cases hhit : ∃ index < count,
        frame memory pagetable (va + index) = some pa ∧ (va + index) % PGSIZE = position
    · obtain ⟨index, hi, hframe, rfl⟩ := hhit
      rw [hafter.bytes index hi pa hframe, hother.bytes index hi pa hframe]
    · have hmiss : ∀ index < count, frame memory pagetable (va + index) = some pa →
          (va + index) % PGSIZE ≠ position :=
        fun index hi hframe hmod => hhit ⟨index, hi, hframe, hmod⟩
      rw [hafter.others pa position hmiss, hother.others pa position hmiss]
  have hend := hafter.kernelEnd.trans hother.kernelEnd.symm
  have hlist := hafter.freelist.trans hother.freelist.symm
  cases after
  cases other
  simp_all

theorem translate_isSome : (translate memory pagetable va access).isSome ↔
    ∃ pte, lookup memory pagetable va = some pte ∧ permits pte access = true := by
  rw [MappedAccess.translate]
  cases lookup memory pagetable va with
  | none => simp
  | some pte => by_cases hpte : permits pte access = true <;> simp [hpte]

theorem permits_user {pte : Pte} (hpte : permits pte access = true) :
    hasFlag pte PTE_U = true := by
  cases access <;> simp only [permits, Bool.and_eq_true] at hpte
  · exact hpte.1
  · exact hpte.1.1

theorem touched_mapped {vma : Vma} (hsound : Sound memory pagetable 0)
    (hkernel : 0 < memory.kernelEnd) (htouched : Touched memory pagetable vma access va) :
    UserMapped memory pagetable va := by
  obtain ⟨pte, hlook, hpte⟩ := htouched.permitted
  have hround := (lookup_round memory pagetable va).trans hlook
  rw [PGROUNDDOWN] at hround
  have hmanaged := hsound.leaf_managed (div_lt_userPages htouched.below) hround
  exact ⟨lookup_lt hlook, pte, hlook, permits_user hpte,
    Nat.ne_of_gt (lt_of_lt_of_le hkernel hmanaged.2.1)⟩

end

/-- A page that may only be read, and two pages behind it that may be written too. -/
def readableVma : Vma where
  valid := true
  addr := 0x1000
  len := 0x1000
  prot := PROT_READ
  content := [7]

def writableVma : Vma where
  valid := true
  addr := 0x2000
  len := 0x2000
  prot := PROT_READ ||| PROT_WRITE
  content := [8]

/-- An empty address space, and pages for two page faults. -/
def emptySpace : Memory :=
  { blankMemory with freelist := blankMemory.freelist ++ [KERNBASE + 0x4000] }

def fault (memory : Memory) (va : ℕ) : Except Panic (Memory × Bool) :=
  MappedAccess.pageFault memory KERNBASE 0x4000 0 [readableVma, writableVma] va

/-- A test of the memory after a page fault that does not kill the process. -/
def afterFault (outcome : Except Panic (Memory × Bool)) (test : Memory → Bool) : Bool :=
  match outcome with
  | .ok (memory, false) => test memory
  | _ => false

/-- The first page is read-only and holds 7, `copyout` of 9 returns 0 and leaves 9; the
third is not mapped, and nothing above. -/
def overwritten (memory : Memory) : Bool :=
  (lookup memory KERNBASE 0x1000).any (fun pte => hasFlag pte PTE_U &&
    PTE2PA pte != 0 && !hasFlag pte PTE_W) &&
  userByte memory KERNBASE 0x1000 == 7 &&
  (copyout memory KERNBASE 0x1000 [9]).1 &&
  userByte (copyout memory KERNBASE 0x1000 [9]).2 KERNBASE 0x1000 == 9 &&
  !hasFlag (readPte memory KERNBASE (PX 2 TRAPFRAME)) PTE_V &&
  (lookup memory KERNBASE 0x3000).isNone

theorem faults_overwritten : afterFault (fault emptySpace 0x1000) (fun first =>
    (lookup first KERNBASE 0x2000).isNone && (kalloc first).1.isSome &&
      afterFault (fault first 0x2000) overwritten) = true := by
  decide +kernel

theorem fault_ok {outcome : Except Panic (Memory × Bool)} {test : Memory → Bool}
    (htest : afterFault outcome test = true) :
    ∃ memory, outcome = .ok (memory, false) ∧ test memory = true := by
  unfold afterFault at htest
  split at htest
  case h_1 memory => exact ⟨memory, rfl, htest⟩
  case h_2 => cases htest

/-- The memory after a page fault at the first page of each mapping. -/
structure TwoFaults (memory : Memory) : Prop where
  faults : ∃ first, fault emptySpace 0x1000 = .ok (first, false) ∧
    fault first 0x2000 = .ok (memory, false)
  sound : Sound memory KERNBASE 0
  kernel : 0 < memory.kernelEnd
  high : ∀ va, TRAPFRAME ≤ va → frame memory KERNBASE va = none
  touched : Touched memory KERNBASE writableVma .store 0x2000
  readOnly : ReadOnly memory KERNBASE 0x1000
  byte : userByte memory KERNBASE 0x1000 = 7
  copied : (copyout memory KERNBASE 0x1000 [9]).1 = true
  changed : userByte (copyout memory KERNBASE 0x1000 [9]).2 KERNBASE 0x1000 = 9
  behind : lookup memory KERNBASE 0x3000 = none

theorem exists_twoFaults : ∃ memory, TwoFaults memory := by
  obtain ⟨first, hfirst, htest⟩ := fault_ok faults_overwritten
  rw [Bool.and_eq_true, Bool.and_eq_true, Option.isNone_iff_eq_none] at htest
  obtain ⟨⟨hnone, hkalloc⟩, htest⟩ := htest
  obtain ⟨memory, hsecond, htest⟩ := fault_ok htest
  have hzero : ∀ index, readPte emptySpace KERNBASE index = 0 := readPte_blankMemory KERNBASE
  have hloop : MappedAccess.faultLoop KERNBASE 0x1000 [readableVma, writableVma] emptySpace
      (decide (0x4000 ≤ 0x1000 ∨ 0x1000 < 0)) = .ok (first, false) := hfirst
  obtain ⟨hsound, hend, -⟩ := MappedAccess.faultLoop_touches
    (sound_zeroed hzero (by decide) (by decide)) (by decide) (lookup_zeroed hzero _)
    (by decide : readableVma.Covers 0x1000) rfl hloop
  obtain ⟨mem, hmem⟩ := Option.isSome_iff_exists.mp hkalloc
  have hloop' : MappedAccess.faultLoop KERNBASE 0x2000 [writableVma] first
      (decide (0x4000 ≤ 0x2000 ∨ 0x2000 < 0)) = .ok (memory, false) := hsecond
  obtain ⟨hsound', hend', htouched⟩ := MappedAccess.faultLoop_touches hsound (by decide) hnone
    (by decide : writableVma.Covers 0x2000) (Prod.ext hmem rfl) hloop'
  simp only [overwritten, Bool.and_eq_true, Option.any_eq_true, Bool.not_eq_true', bne_iff_ne,
    beq_iff_eq, Option.isNone_iff_eq_none] at htest
  obtain ⟨⟨⟨⟨⟨⟨pte, hlook, ⟨huser, hne⟩, hwrite⟩, hold⟩, hcopy⟩, hnew⟩, hroot⟩, hbehind⟩ := htest
  exact ⟨memory, ⟨first, hfirst, hsecond⟩, hsound', by rw [hend', hend]; decide, frame_high hroot,
    (htouched (by decide)).2 (by decide), ⟨pte, hlook, huser, hne, hwrite⟩, hold, hcopy, hnew,
    hbehind⟩

theorem TwoFaults.unshared (hfaults : TwoFaults memory) :
    Unshared memory KERNBASE :=
  unshared_of_sound hfaults.sound hfaults.high

theorem TwoFaults.unmapped (hfaults : TwoFaults memory) :
    ¬ UserMapped memory KERNBASE 0x3000 := by
  rintro ⟨-, pte, hlook, -⟩
  rw [hfaults.behind] at hlook
  cases hlook

/-- A copy to the first page stores its byte there, and a copy behind the last page fails. -/
theorem user_copies_exact_readable : ∃ memory, Unshared memory KERNBASE ∧
    Stored memory (copyout memory KERNBASE 0x1000 [9]).2 KERNBASE 0x1000 [9] 1 ∧
    (copyout memory KERNBASE 0x3000 [9]).1 = false := by
  obtain ⟨memory, hfaults⟩ := exists_twoFaults
  have hexact := (user_copies_exact memory KERNBASE 0x1000).2.2 hfaults.unshared [9]
  obtain ⟨count, hleading, hstored⟩ := hexact.2
  have hcount : count = 1 := hleading.full_iff.mpr (hexact.1.mp hfaults.copied)
  have hfails := ((user_copies_exact memory KERNBASE 0x3000).2.2 hfaults.unshared [9]).1
  refine ⟨memory, hfaults.unshared, ?_, ?_⟩
  · rw [← hcount]
    exact hstored
  · rw [← Bool.not_eq_true, hfails]
    exact fun hmapped => hfaults.unmapped (hmapped 0 Nat.one_pos)

/-- The second page is writable, so `copyout` to it honours the protection of the first. -/
theorem honours_protection_writable :
    ∃ memory, Unshared memory KERNBASE ∧ ReadOnly memory KERNBASE 0x1000 ∧
      UserMapped memory KERNBASE 0x2000 ∧ HonoursProtection memory KERNBASE 0x2000 [9] := by
  obtain ⟨memory, hfaults⟩ := exists_twoFaults
  refine ⟨memory, hfaults.unshared, hfaults.readOnly,
    touched_mapped hfaults.sound hfaults.kernel hfaults.touched, ?_⟩
  apply (honours_protection_iff memory KERNBASE 0x2000 [9] hfaults.unshared).mpr
  intro index hi _ hreadonly
  obtain ⟨pte, hlook, hpte⟩ := hfaults.touched.permitted
  obtain ⟨pte', hlook', -, -, hwrite⟩ := hreadonly
  rw [permits, Bool.and_eq_true] at hpte
  rw [Nat.lt_one_iff.mp hi, Nat.add_zero, hlook, Option.some.injEq] at hlook'
  rw [← hlook', hpte.2] at hwrite
  cases hwrite

/-- `copyout` to a mapping with `PROT_READ`, after its page fault, returns 0 and changes
the byte. -/
theorem copyout_overwrites_readable : ∃ first memory, fault emptySpace 0x1000 = .ok (first, false) ∧
    fault first 0x2000 = .ok (memory, false) ∧ Unshared memory KERNBASE ∧
    ReadOnly memory KERNBASE 0x1000 ∧ userByte memory KERNBASE 0x1000 = 7 ∧
    (copyout memory KERNBASE 0x1000 [9]).1 = true ∧
    userByte (copyout memory KERNBASE 0x1000 [9]).2 KERNBASE 0x1000 = 9 ∧
    ¬ HonoursProtection memory KERNBASE 0x1000 [9] := by
  obtain ⟨memory, hfaults⟩ := exists_twoFaults
  obtain ⟨first, hfirst, hsecond⟩ := hfaults.faults
  refine ⟨first, memory, hfirst, hsecond, hfaults.unshared, hfaults.readOnly, hfaults.byte,
    hfaults.copied, hfaults.changed, ?_⟩
  rintro ⟨hkept, -⟩
  have hbyte := hkept 0x1000 hfaults.readOnly
  rw [hfaults.byte, hfaults.changed] at hbyte
  cases hbyte

end Xv6.UserCopies
