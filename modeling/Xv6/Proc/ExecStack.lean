import Xv6.Proc.ExecContents
import Xv6.Proc.MappedAccess

/-!
# The arguments on the stack of a new program

Where the argument strings and the pointers to them belong is a function of the lengths
of the strings alone.  `exec` computes it in 64-bit arithmetic, checks it piece by piece
and writes as it goes; it succeeds when the whole layout fits into the stack page.
-/

namespace Xv6.ExecStack

open LittleEndian Riscv Kalloc PageTable PageMap UserMemory Ownership AddressSpace ProcMemory Exec
open ExecOwnership ExecCall Supply ExecContents MappedAccess Outcome

variable {argv : List (List Byte)}
variable {sz sp size low high va dstva pagetable : ℕ} {bytes src : List Byte}

/-! ## The layout -/

/-- Room for `size` bytes below `sp`, on a 16-byte boundary.  Natural subtraction: where
there is no room at all the result is 0, below every stack. -/
def below (sp size : ℕ) : ℕ := (sp - size) / 16 * 16

def stringPointers : ℕ → List (List Byte) → List ℕ
  | _, [] => []
  | sp, string :: strings =>
    below sp (string.length + 1) :: stringPointers (below sp (string.length + 1)) strings

def lowest : ℕ → List (List Byte) → ℕ
  | sp, [] => sp
  | sp, string :: strings => lowest (below sp (string.length + 1)) strings

/-- The address of the array of pointers, which is the stack pointer. -/
def arrayPointer (sp : ℕ) (argv : List (List Byte)) : ℕ :=
  below (lowest sp argv) ((argv.length + 1) * 8)

/-- What lies on the stack: address and size of each string. -/
def stringAreas (pointers : List ℕ) (argv : List (List Byte)) : List (ℕ × ℕ) :=
  List.zipWith (fun pointer string => (pointer, string.length + 1)) pointers argv

def areas (sp : ℕ) (pointers : List ℕ) (argv : List (List Byte)) : List (ℕ × ℕ) :=
  (sp, (argv.length + 1) * 8) :: stringAreas pointers argv

theorem stackPage_base {stack : ℕ} (hsz : sz = (stack + 1) * PGSIZE) :
    sz - PGSIZE = stack * PGSIZE := by
  rw [hsz, Nat.add_mul, one_mul, Nat.add_sub_cancel]

theorem below_le (sp size : ℕ) : below sp size ≤ sp := by
  rw [below]
  omega

theorem below_add_le (hpos : 0 < below sp size) : below sp size + size ≤ sp := by
  rw [below] at *
  omega

theorem lowest_le (sp : ℕ) (strings : List (List Byte)) : lowest sp strings ≤ sp := by
  induction strings generalizing sp with
  | nil => exact le_refl sp
  | cons string strings ih => exact (ih _).trans (below_le sp _)

theorem length_stringPointers (sp : ℕ) (strings : List (List Byte)) :
    (stringPointers sp strings).length = strings.length := by
  induction strings generalizing sp with
  | nil => rfl
  | cons string strings ih => rw [stringPointers, List.length_cons, ih, List.length_cons]

theorem stringAreas_ordered {sp : ℕ} {strings : List (List Byte)} (hpos : 0 < lowest sp strings) :
    (∀ area ∈ stringAreas (stringPointers sp strings) strings,
      lowest sp strings ≤ area.1 ∧ area.1 + area.2 ≤ sp) ∧
    (stringAreas (stringPointers sp strings) strings).Pairwise
      fun first second => second.1 + second.2 ≤ first.1 := by
  induction strings generalizing sp with
  | nil =>
    refine ⟨?_, List.Pairwise.nil⟩
    intro area harea
    cases harea
  | cons string strings ih =>
    have hle := lowest_le (below sp (string.length + 1)) strings
    rw [lowest] at hpos
    have hroom := below_add_le (lt_of_lt_of_le hpos hle)
    obtain ⟨hin, hapart⟩ := ih hpos
    rw [stringPointers, stringAreas, List.zipWith_cons_cons, lowest]
    refine ⟨?_, List.pairwise_cons.mpr ⟨fun area harea => (hin area harea).2, hapart⟩⟩
    intro area harea
    rcases List.mem_cons.mp harea with rfl | htail
    · exact ⟨hle, hroom⟩
    · obtain ⟨hlow, hhigh⟩ := hin area htail
      exact ⟨hlow, by omega⟩

/-- The stack pointer as `exec` computes it: where there is no room it wraps around to an
address that no page table maps. -/
theorem lowered (hsp : sp < MAXVA) (hsize : size < 2 ^ 40) :
    (size ≤ sp → u64 (sp - size) - u64 (sp - size) % 16 = below sp size) ∧
    (sp < size → MAXVA ≤ u64 (sp - size) - u64 (sp - size) % 16) := by
  have hmax : MAXVA = 274877906944 := by decide
  simp only [u64, below]
  constructor <;> intro hle <;> omega

section
variable {start memory after : Memory}
variable {trampoline pagetable trapframe sz stack pa : ℕ}

/-! ## Bytes at an address -/

/-- The address space holds these bytes from `va` on. -/
structure Holds (memory : Memory) (pagetable va : ℕ) (bytes : List Byte) : Prop where
  below : va + bytes.length ≤ userPages * PGSIZE
  bytes : ∀ index < bytes.length,
    byteOfSpace memory pagetable (va + index) = some (bytes.getD index 0)

/-- Writes to the physical page `pa` that reach only addresses from `low` to `high`. -/
structure Writes (memory after : Memory) (pagetable pa low high : ℕ) : Prop where
  lookups : ∀ va, lookup after pagetable va = lookup memory pagetable va
  pages : ∀ other, other ≠ pa → after.page other = memory.page other
  bytes : ∀ va, va / PGSIZE < userPages → ¬(low ≤ va ∧ va < high) →
    byteOfSpace after pagetable va = byteOfSpace memory pagetable va

theorem Writes.refl (memory : Memory) (pagetable pa low high : ℕ) :
    Writes memory memory pagetable pa low high :=
  ⟨fun _ => rfl, fun _ _ => rfl, fun _ _ _ => rfl⟩

theorem Writes.trans {middle : Memory} {high' : ℕ}
    (hfst : Writes memory middle pagetable pa low high)
    (hsnd : Writes middle after pagetable pa low high') (hhigh : high' ≤ high) :
    Writes memory after pagetable pa low high := by
  refine ⟨fun va => ?_, fun other ho => ?_, fun va hva hout => ?_⟩
  · rw [hsnd.lookups, hfst.lookups]
  · rw [hsnd.pages other ho, hfst.pages other ho]
  · rw [hsnd.bytes va hva (by omega), hfst.bytes va hva hout]

theorem Holds.writes (hholds : Holds memory pagetable va bytes)
    (hwrites : Writes memory after pagetable pa low high) (hva : high ≤ va) :
    Holds after pagetable va bytes := by
  refine ⟨hholds.below, fun index hi => ?_⟩
  have hbelow := hholds.below
  rw [hwrites.bytes _ _ (by omega), hholds.bytes index hi]
  exact (Nat.div_lt_iff_lt_mul (by decide)).mpr (by omega)

/-! ## One push -/

theorem copyoutLoop_nil (pagetable fuel : ℕ) (memory : Memory) (dstva : ℕ) :
    copyoutLoop pagetable fuel memory dstva [] = (true, memory) := by
  cases fuel with
  | zero => rfl
  | succ fuel => rfl

theorem copyout_page {page : ℕ} (hsrc : src ≠ [])
    (hwalk : walkaddr memory pagetable (page * PGSIZE) = some pa)
    (hlow : page * PGSIZE ≤ dstva) (hhigh : dstva + src.length ≤ (page + 1) * PGSIZE) :
    copyout memory pagetable dstva src =
      (true, storeBytes memory pa (dstva - page * PGSIZE) src) := by
  obtain ⟨fuel, hfuel⟩ := Nat.exists_eq_succ_of_ne_zero
    (fun hzero => hsrc (List.length_eq_zero_iff.mp hzero))
  have hround : PGROUNDDOWN dstva = page * PGSIZE := by
    simp only [PGROUNDDOWN, PGSIZE_eq] at *
    omega
  have hmin : min (PGSIZE - (dstva - page * PGSIZE)) src.length = src.length := by
    apply min_eq_right
    rw [Nat.add_mul, one_mul] at hhigh
    omega
  rw [copyout, hfuel, copyoutLoop, if_neg hsrc]
  simp only [hround, hwalk, hmin, List.take_length, List.drop_length, copyoutLoop_nil]

theorem copyout_above (hsrc : src ≠ [])
    (hhigh : MAXVA ≤ dstva) : copyout memory pagetable dstva src = (false, memory) := by
  obtain ⟨fuel, hfuel⟩ := Nat.exists_eq_succ_of_ne_zero
    (fun hzero => hsrc (List.length_eq_zero_iff.mp hzero))
  have hwalk : walkaddr memory pagetable (PGROUNDDOWN dstva) = none := by
    rw [walkaddr_eq, lookup_round, lookup_of_le _ _ hhigh]
    rfl
  rw [copyout, hfuel, copyoutLoop, if_neg hsrc]
  simp only [hwalk]

/-- One push: the stack pointer is lowered, checked, and the bytes are copied out. -/
theorem push_spec (hkernel : 0 < start.kernelEnd)
    (hbuild : Building start memory trampoline pagetable trapframe sz)
    (hstack : stack < userPages) (hsome : lookup memory pagetable (stack * PGSIZE) =
      some (leafPte pa PTE_USER)) (hsp : sp ≤ (stack + 1) * PGSIZE)
    (hbytes : bytes ≠ []) (hlen : bytes.length < 2 ^ 40) (hpos : 0 < stack) :
    (below sp bytes.length < stack * PGSIZE →
      u64 (sp - bytes.length) - u64 (sp - bytes.length) % 16 < stack * PGSIZE ∨
      copyout memory pagetable (u64 (sp - bytes.length) - u64 (sp - bytes.length) % 16) bytes =
          (false, memory)) ∧ (stack * PGSIZE ≤ below sp bytes.length →
      u64 (sp - bytes.length) - u64 (sp - bytes.length) % 16 = below sp bytes.length ∧
      ∃ after, copyout memory pagetable (below sp bytes.length) bytes = (true, after) ∧
        Building start after trampoline pagetable trapframe sz ∧
        Writes memory after pagetable (PTE2PA (leafPte pa PTE_USER)) (stack * PGSIZE) sp ∧
        Holds after pagetable (below sp bytes.length) bytes) := by
  have hmax : sp < MAXVA := by
    have hva : MAXVA = (userPages + 2) * PGSIZE := by
      rw [userPages_eq]
      decide
    rw [hva]
    have hle := Nat.mul_le_mul_right PGSIZE (show stack + 1 ≤ userPages by omega)
    simp only [PGSIZE_eq] at *
    omega
  obtain ⟨hroom, hwrap⟩ := lowered hmax hlen
  constructor
  · intro hlow
    by_cases hle : bytes.length ≤ sp
    · left
      rw [hroom hle]
      exact hlow
    · right
      exact copyout_above hbytes (hwrap (by omega))
  · intro hfits
    have hbase : 0 < stack * PGSIZE := Nat.mul_pos hpos (by decide)
    have hadd := below_add_le (lt_of_lt_of_le hbase hfits)
    have hend : 0 < memory.kernelEnd := by
      rw [hbuild.exchange.kernelEnd]
      exact hkernel
    have hwalk := walkaddr_user hend hbuild.sound hstack hsome
    have hstored := copyout_page hbytes hwalk hfits (by omega)
    obtain ⟨hbuild', hlook⟩ := hbuild.store (hbuild.walkaddr_mem hwalk)
      (rewritten_storeBytes memory (PTE2PA (leafPte pa PTE_USER))
        (below sp bytes.length - stack * PGSIZE) bytes)
    have hoffset : stack * PGSIZE + (below sp bytes.length - stack * PGSIZE) =
        below sp bytes.length := by omega
    have hpage : below sp bytes.length - stack * PGSIZE + bytes.length ≤ PGSIZE := by
      rw [Nat.add_mul, one_mul] at hsp
      omega
    have hspace : (stack + 1) * PGSIZE ≤ userPages * PGSIZE := Nat.mul_le_mul_right PGSIZE hstack
    refine ⟨hroom (by omega), _, hstored, hbuild', ⟨hlook, ?_, ?_⟩, by omega, ?_⟩
    · exact fun other ho => (rewritten_storeBytes memory _ _ bytes).frame other ho
    · intro va hva hout
      rw [byteOfSpace_store hbuild hstack hsome hpage hva, hoffset, if_neg (by omega)]
    · intro index hi
      have hva : (below sp bytes.length + index) / PGSIZE < userPages := by
        exact (Nat.div_lt_iff_lt_mul (by decide)).mpr (by omega)
      rw [byteOfSpace_store hbuild hstack hsome hpage hva, hoffset, if_pos (by omega),
        Nat.add_sub_cancel_left]

/-! ## All pushes -/

theorem pushStrings_spec (hkernel : 0 < start.kernelEnd)
    (hbuild : Building start memory trampoline pagetable trapframe sz)
    (hstack : stack < userPages) (hpos : 0 < stack)
    (hsome : lookup memory pagetable (stack * PGSIZE) = some (leafPte pa PTE_USER))
    {strings : List (List Byte)} {ustack : List ℕ}
    (hcount : ustack.length + strings.length ≤ MAXARG)
    (hlen : ∀ string ∈ strings, string.length < 2 ^ 31)
    (hsp : sp ≤ (stack + 1) * PGSIZE) :
    ∃ result after,
      pushStrings pagetable (stack * PGSIZE) strings memory sp ustack = (result, after) ∧
      Building start after trampoline pagetable trapframe sz ∧
      Writes memory after pagetable (PTE2PA (leafPte pa PTE_USER)) (stack * PGSIZE) sp ∧
      (stack * PGSIZE ≤ lowest sp strings →
        result = some (lowest sp strings, ustack ++ stringPointers sp strings) ∧
        List.Forall₂ (fun pointer string => lowest sp strings ≤ pointer ∧
          Holds after pagetable pointer (string ++ [0])) (stringPointers sp strings)
          strings) ∧
      (lowest sp strings < stack * PGSIZE → strings = [] ∨ result = none) := by
  induction strings generalizing memory ustack sp with
  | nil =>
    refine ⟨_, memory, rfl, hbuild, Writes.refl _ _ _ _ _, fun _ => ⟨?_, .nil⟩, fun _ => Or.inl rfl⟩
    rw [stringPointers, List.append_nil, lowest]
  | cons string strings ih =>
    rw [List.length_cons] at hcount
    have hstring := hlen string List.mem_cons_self
    have hsize : (string ++ [0]).length = string.length + 1 := by simp
    have hle := lowest_le (below sp (string.length + 1)) strings
    obtain ⟨hlow, hfits⟩ := push_spec hkernel hbuild hstack hsome hsp
      (List.append_ne_nil_of_right_ne_nil string (List.cons_ne_nil 0 []))
      (by rw [hsize]; omega) hpos
    rw [hsize] at hlow hfits
    rw [Nat.cast_add, Nat.cast_one] at hlow hfits
    rw [pushStrings, if_neg (by omega), stringPointers, lowest]
    dsimp only
    by_cases hbelow : below sp (string.length + 1) < stack * PGSIZE
    · refine ⟨none, memory, ?_, hbuild, Writes.refl _ _ _ _ _,
        fun hbase => absurd hbase (by omega), fun _ => Or.inr rfl⟩
      rcases hlow hbelow with hcheck | hcopy
      · rw [if_pos hcheck]
      · rw [hcopy]
        split
        next => rfl
        next => rfl
    · obtain ⟨hpointer, next, hcopy, hbuild', hwrites, hholds⟩ := hfits (by omega)
      have hsp' := below_le sp (string.length + 1)
      obtain ⟨result, after, hpush, hbuilt, hrest, hall, hnone⟩ := ih hbuild'
        (by rw [hwrites.lookups, hsome])
        (show (ustack ++ [below sp (string.length + 1)]).length + strings.length ≤
          MAXARG by rw [List.length_append, List.length_singleton]; omega)
        (fun other ho => hlen other (List.mem_cons_of_mem _ ho))
        (hsp'.trans hsp)
      rw [hpointer, if_neg hbelow, hcopy]
      refine ⟨result, after, hpush, hbuilt, hwrites.trans hrest hsp', ?_, ?_⟩
      · intro hbase
        obtain ⟨hres, hstrings⟩ := hall hbase
        refine ⟨?_, .cons ⟨hle, hholds.writes hrest (le_refl _)⟩ hstrings⟩
        rw [hres, List.append_assoc, List.singleton_append]
      · intro hbase
        rcases hnone hbase with rfl | hres
        · exact absurd hbase hbelow
        · exact Or.inr hres

theorem length_pointerBytes (pointers : List ℕ) :
    (pointerBytes pointers).length = pointers.length * 8 := by
  induction pointers with
  | nil => rfl
  | cons pointer pointers ih =>
    rw [pointerBytes, List.flatMap_cons, List.length_append, List.length_map,
      List.length_range, List.length_cons, Nat.add_mul, one_mul, Nat.add_comm, ← ih]
    rfl

theorem pushArguments_spec (hkernel : 0 < start.kernelEnd)
    (hbuild : Building start memory trampoline pagetable trapframe sz)
    (hsz : sz = (stack + 1) * PGSIZE) (hstack : stack < userPages) (hpos : 0 < stack)
    (hsome : lookup memory pagetable (stack * PGSIZE) = some (leafPte pa PTE_USER))
    (hcount : argv.length < MAXARG)
    (hlen : ∀ string ∈ argv, string.length < 2 ^ 31) :
    ∃ result after, pushArguments memory pagetable sz argv = (result, after) ∧
      Writes memory after pagetable (PTE2PA (leafPte pa PTE_USER)) (stack * PGSIZE) sz ∧
      (stack * PGSIZE ≤ arrayPointer sz argv → result = some (arrayPointer sz argv, argv.length) ∧
        Holds after pagetable (arrayPointer sz argv)
          (pointerBytes (stringPointers sz argv ++ [0])) ∧
        List.Forall₂ (fun pointer string => Holds after pagetable pointer (string ++ [0]))
          (stringPointers sz argv) argv) ∧
      (arrayPointer sz argv < stack * PGSIZE → result = none) := by
  have hbase := stackPage_base hsz
  have hnil : ([] : List ℕ).length + argv.length ≤ MAXARG := by
    rw [List.length_nil]
    omega
  obtain ⟨pushed, middle, hpush, hbuild', hwrites, hall, hnone⟩ := pushStrings_spec hkernel
    hbuild hstack hpos hsome hnil hlen (le_of_eq hsz)
  have harray := below_le (lowest sz argv) ((argv.length + 1) * 8)
  rw [pushArguments, hbase]
  dsimp only
  rw [hpush]
  by_cases hlow : lowest sz argv < stack * PGSIZE
  · have hres : pushed = none := by
      rcases hnone hlow with rfl | hres
      · rw [lowest, hsz] at hlow
        exact absurd hlow (not_lt.mpr (Nat.mul_le_mul_right PGSIZE (by omega)))
      · exact hres
    rw [hres]
    exact ⟨none, middle, rfl, hwrites, fun hfits => absurd hfits (by
      rw [arrayPointer]; omega), fun _ => rfl⟩
  obtain ⟨hres, hstrings⟩ := hall (by omega)
  rw [hres, List.nil_append]
  dsimp only
  have hpointers := length_stringPointers sz argv
  have hbytes : (pointerBytes (stringPointers sz argv ++ [0])).length = (argv.length + 1) * 8 := by
    rw [length_pointerBytes, List.length_append, hpointers, List.length_singleton]
  have hsp : lowest sz argv ≤ (stack + 1) * PGSIZE := (lowest_le sz argv).trans (le_of_eq hsz)
  have hmax : MAXARG = 32 := rfl
  obtain ⟨hbelow, hfits⟩ := push_spec hkernel hbuild' hstack (by rw [hwrites.lookups, hsome]) hsp
    (List.ne_nil_of_length_pos (by rw [hbytes]; omega)) (by rw [hbytes]; omega) hpos
  rw [hbytes, Nat.cast_mul, Nat.cast_add, Nat.cast_one] at hbelow hfits
  rw [hpointers]
  by_cases hcross : arrayPointer sz argv < stack * PGSIZE
  · refine ⟨none, middle, ?_, hwrites, fun hfits => absurd hcross (not_lt.mpr hfits), fun _ => rfl⟩
    rcases hbelow hcross with hcheck | hcopy
    · exact if_pos hcheck
    · split
      next => rfl
      next =>
        rw [show ((8 : ℕ) : ℤ) = 8 from rfl] at hcopy
        rw [hcopy]
  · obtain ⟨hpointer, after, hcopy, -, hwrites', hholds⟩ := hfits (not_lt.mp hcross)
    rw [show ((8 : ℕ) : ℤ) = 8 from rfl] at hpointer
    have hcheck : ¬below (lowest sz argv) ((argv.length + 1) * 8) < stack * PGSIZE := hcross
    rw [hpointer, if_neg hcheck, hcopy]
    refine ⟨_, after, rfl, hwrites.trans hwrites' (lowest_le sz argv), fun _ => ⟨rfl,
      hholds, ?_⟩, fun hlt => absurd hlt hcross⟩
    exact hstrings.imp fun pointer string hpair => hpair.2.writes hwrites' hpair.1

/-! ## What the program sees -/

theorem userLoads_of_bytes (hbytes : ∀ index < bytes.length,
      userLoad memory pagetable (va + index) = some (bytes.getD index 0)) :
    userLoads memory pagetable va bytes.length = some bytes := by
  induction bytes generalizing va with
  | nil => rfl
  | cons first rest ih =>
    have hfst := hbytes 0 (Nat.succ_pos _)
    have hrest := @ih (va + 1) (fun index hi => by
      have hnext := hbytes (index + 1) (Nat.succ_lt_succ hi)
      rwa [← Nat.add_assoc, Nat.add_right_comm] at hnext)
    rw [List.length_cons, userLoads, Nat.add_zero] at *
    rw [hfst, hrest]
    rfl

theorem userLoad_stack (hsome : lookup memory pagetable (stack * PGSIZE) =
      some (leafPte pa PTE_USER)) (hva : va / PGSIZE = stack) :
    userLoad memory pagetable va = byteOfSpace memory pagetable va := by
  have hpermits : permits (leafPte pa PTE_USER) .load = true := by
    rw [permits, hasFlag_leafPte PTE_U (by decide), hasFlag_leafPte PTE_R (by decide)]
    decide
  rw [← hva, lookup_page] at hsome
  rw [userLoad, MappedAccess.translate, byteOfSpace, hsome, Option.bind_some, if_pos hpermits]
  rfl

theorem Holds.userLoads (hholds : Holds memory pagetable va bytes)
    (hsome : lookup memory pagetable (stack * PGSIZE) = some (leafPte pa PTE_USER))
    (hlow : stack * PGSIZE ≤ va) (hhigh : va + bytes.length ≤ (stack + 1) * PGSIZE) :
    userLoads memory pagetable va bytes.length = some bytes := by
  apply userLoads_of_bytes
  intro index hi
  rw [userLoad_stack hsome, hholds.bytes index hi]
  simp only [PGSIZE_eq] at *
  omega

/-- The stack of a program of size `sz` that was called with `argv`, with the stack pointer
`sp` and the `argv[i]` at `pointers`. -/
structure ArgvLayout (memory : Memory) (pagetable sz sp : ℕ) (argv : List (List Byte))
    (pointers : List ℕ) : Prop where
  aligned : sp % 16 = 0
  array : userLoads memory pagetable sp ((argv.length + 1) * 8) =
    some (pointerBytes (pointers ++ [0]))
  strings : List.Forall₂ (fun pointer string =>
    userLoads memory pagetable pointer (string.length + 1) = some (string ++ [0]))
    pointers argv
  inside : ∀ area ∈ areas sp pointers argv, sz - PGSIZE ≤ area.1 ∧ area.1 + area.2 ≤ sz
  apart : (areas sp pointers argv).Pairwise fun first second =>
    first.1 + first.2 ≤ second.1 ∨ second.1 + second.2 ≤ first.1

theorem areas_inside {argv : List (List Byte)} (hpos : 0 < arrayPointer sz argv) :
    (∀ area ∈ areas (arrayPointer sz argv) (stringPointers sz argv) argv,
      arrayPointer sz argv ≤ area.1 ∧ area.1 + area.2 ≤ sz) ∧
    (areas (arrayPointer sz argv) (stringPointers sz argv) argv).Pairwise
      fun first second => first.1 + first.2 ≤ second.1 ∨ second.1 + second.2 ≤ first.1 := by
  have hadd := below_add_le hpos
  have hle := lowest_le sz argv
  have harray : arrayPointer sz argv + (argv.length + 1) * 8 ≤ lowest sz argv := hadd
  obtain ⟨hin, hapart⟩ := @stringAreas_ordered sz argv (by omega)
  refine ⟨?_, List.pairwise_cons.mpr ⟨?_, hapart.imp Or.inr⟩⟩
  · intro area harea
    rcases List.mem_cons.mp harea with rfl | htail
    · exact ⟨le_refl _, harray.trans hle⟩
    · obtain ⟨hlow, hhigh⟩ := hin area htail
      exact ⟨by omega, hhigh⟩
  · intro area harea
    left
    exact harray.trans (hin area harea).1

theorem strings_userLoads {pointers : List ℕ}
    (hsome : lookup memory pagetable (stack * PGSIZE) = some (leafPte pa PTE_USER))
    (hstrings : List.Forall₂ (fun pointer string =>
      Holds memory pagetable pointer (string ++ [0])) pointers argv)
    (hin : ∀ area ∈ stringAreas pointers argv,
      stack * PGSIZE ≤ area.1 ∧ area.1 + area.2 ≤ (stack + 1) * PGSIZE) :
    List.Forall₂ (fun pointer string =>
      userLoads memory pagetable pointer (string.length + 1) = some (string ++ [0]))
      pointers argv := by
  induction hstrings with
  | nil => exact .nil
  | @cons pointer string pointers argv hhead htail ih =>
    rw [stringAreas, List.zipWith_cons_cons] at hin
    obtain ⟨hlow, hhigh⟩ := hin _ List.mem_cons_self
    refine .cons ?_ (ih fun area harea => hin area (List.mem_cons_of_mem _ harea))
    have hloads := hhead.userLoads hsome hlow (by simpa using hhigh)
    simpa using hloads

theorem argvLayout_of_holds (hsz : sz = (stack + 1) * PGSIZE) (hpos : 0 < stack)
    (hsome : lookup memory pagetable (stack * PGSIZE) = some (leafPte pa PTE_USER))
    (hfits : stack * PGSIZE ≤ arrayPointer sz argv)
    (harray : Holds memory pagetable (arrayPointer sz argv)
      (pointerBytes (stringPointers sz argv ++ [0])))
    (hstrings : List.Forall₂ (fun pointer string =>
      Holds memory pagetable pointer (string ++ [0])) (stringPointers sz argv) argv) :
    ArgvLayout memory pagetable sz (arrayPointer sz argv) argv (stringPointers sz argv) := by
  have hbase := stackPage_base hsz
  obtain ⟨hin, hapart⟩ := @areas_inside sz argv
    (lt_of_lt_of_le (Nat.mul_pos hpos (by decide)) hfits)
  have hbytes : (pointerBytes (stringPointers sz argv ++ [0])).length = (argv.length + 1) * 8 := by
    rw [length_pointerBytes, List.length_append, length_stringPointers, List.length_singleton]
  refine ⟨Nat.mul_mod_left _ 16, ?_, ?_, ?_, hapart⟩
  · rw [← hbytes]
    apply harray.userLoads hsome hfits
    rw [hbytes, ← hsz]
    exact (hin _ List.mem_cons_self).2
  · apply strings_userLoads hsome hstrings
    intro area harea
    obtain ⟨hlow, hhigh⟩ := hin area (List.mem_cons_of_mem _ harea)
    exact ⟨hfits.trans hlow, by rw [← hsz]; exact hhigh⟩
  · intro area harea
    obtain ⟨hlow, hhigh⟩ := hin area harea
    rw [hbase]
    exact ⟨hfits.trans hlow, hhigh⟩

theorem Prepared.push {file : ProgramFile} (hfree : FreeSound start) (hkernel : 0 < start.kernelEnd)
    (hprepared : Prepared start trampoline trapframe file pagetable sz memory)
    (hcount : argv.length < MAXARG)
    (hlen : ∀ string ∈ argv, string.length < 2 ^ 31) :
    ∃ stack pa result after, sz = (stack + 1) * PGSIZE ∧ 0 < stack ∧
      walkaddr memory pagetable (sz - PGSIZE) = some (PTE2PA (leafPte pa PTE_USER)) ∧
      lookup after pagetable (stack * PGSIZE) = some (leafPte pa PTE_USER) ∧
      pushArguments memory pagetable sz argv = (result, after) ∧
      Writes memory after pagetable (PTE2PA (leafPte pa PTE_USER)) (stack * PGSIZE) sz ∧
      (stack * PGSIZE ≤ arrayPointer sz argv → result = some (arrayPointer sz argv, argv.length) ∧
        Holds after pagetable (arrayPointer sz argv)
          (pointerBytes (stringPointers sz argv ++ [0])) ∧
        List.Forall₂ (fun pointer string => Holds after pagetable pointer (string ++ [0]))
          (stringPointers sz argv) argv) ∧
      (arrayPointer sz argv < stack * PGSIZE → result = none) := by
  obtain ⟨hbuild, pages, pa, hsz, hsome⟩ := hprepared.stack hfree hkernel
  have hbound := hbuild.space.filled.bound
  rw [hsz, pageCount_mul] at hbound
  have hend : 0 < memory.kernelEnd := by
    rw [hbuild.exchange.kernelEnd]
    exact hkernel
  have hstack : pages + 1 < userPages := by omega
  have hwalk := walkaddr_user hend hbuild.sound hstack hsome
  have hbase : sz - PGSIZE = (pages + 1) * PGSIZE := stackPage_base hsz
  obtain ⟨result, after, hpush, hwrites, hspec⟩ := pushArguments_spec hkernel hbuild hsz
    hstack (Nat.succ_pos pages) hsome hcount hlen
  exact ⟨pages + 1, pa, result, after, hsz, Nat.succ_pos pages, by rw [hbase, hwalk],
    by rw [hwrites.lookups, hsome], hpush, hwrites, hspec⟩

end

section
variable {s : State} {trampoline trapframe : ℕ}

theorem Holds.congr {first second : Memory}
    (hholds : Holds first pagetable va bytes) (hsame : ∀ va, va / PGSIZE < userPages →
      byteOfSpace second pagetable va = byteOfSpace first pagetable va) :
    Holds second pagetable va bytes := by
  refine ⟨hholds.below, fun index hi => ?_⟩
  have hbelow := hholds.below
  rw [hsame _ _, hholds.bytes index hi]
  exact (Nat.div_lt_iff_lt_mul (by decide)).mpr (by omega)

theorem exec_succeeds (hready : Ready s trampoline trapframe) (path : List Byte)
    {program : ProgramFile} {memory : Memory}
    (hprepared : Prepared s.memory trampoline trapframe program pagetable sz memory)
    (hcount : argv.length < MAXARG) (hlen : ∀ string ∈ argv, string.length < 2 ^ 31)
    (hroom : sz - PGSIZE ≤ arrayPointer sz argv) :
    ∃ final, exec s trampoline trapframe path (some program) argv =
      .ok ((argv.length : ℤ), final) := by
  have hfree := freeSound_of_sound hready.sound
  obtain ⟨value, final, hexec, -, -⟩ := exec_spec hready path (some program) argv
  obtain ⟨stack, pa, result, after, hsz, -, -, -, hpush, -, hfits, -⟩ :=
    Prepared.push hfree hready.kernel hprepared hcount hlen
  have hbase := stackPage_base hsz
  obtain ⟨hres, -⟩ := hfits (by rw [← hbase]; exact hroom)
  have himage := hprepared.execImage_eq argv
  rw [hpush, hres] at himage
  refine ⟨final, ?_⟩
  rw [hexec]
  rw [exec_eq hready.unlocked, himage, ok_bind] at hexec
  dsimp only [commit] at hexec
  cases hfreed : procFreepagetable after s.proc.pagetable s.proc.sz with
  | error panic =>
    rw [hfreed] at hexec
    cases hexec
  | ok freed =>
    rw [hfreed, ok_bind, pure_eq_ok, Except.ok.injEq, Prod.mk.injEq] at hexec
    rw [← hexec.1]

/-- `exec` lays out `argv`.  A call that succeeds returns `argc` and leaves the array of
pointers and the strings on the stack page; given a file that loads and memory for it, a
call fails exactly when the layout would cross below the stack page, and whatever happens
it writes to no other page of the new address space. -/
theorem exec_lays_out_argv (hready : Ready s trampoline trapframe) (path : List Byte)
    (file : Option ProgramFile) (argv : List (List Byte)) (hcount : argv.length < MAXARG)
    (hlength : ∀ string ∈ argv, string.length < 2 ^ 31) :
    ∃ value final, exec s trampoline trapframe path file argv = .ok (value, final) ∧
      (value ≠ -1 → value = argv.length ∧ final.proc.a1 = final.proc.sp ∧
        ∃ pointers, ArgvLayout final.memory final.proc.pagetable final.proc.sz
          final.proc.sp argv pointers) ∧
      ∀ program pagetable sz memory, file = some program →
        Prepared s.memory trampoline trapframe program pagetable sz memory →
        (value = -1 ↔ arrayPointer sz argv < sz - PGSIZE) ∧
        ∃ pa, walkaddr memory pagetable (sz - PGSIZE) = some pa ∧ ∀ other, other ≠ pa →
            (pushArguments memory pagetable sz argv).2.page other =
              memory.page other := by
  have hfree := freeSound_of_sound hready.sound
  obtain ⟨value, final, hexec, -, -⟩ := exec_spec hready path file argv
  refine ⟨value, final, hexec, ?_, ?_⟩
  · intro hvalue
    obtain ⟨image, after, himage, -, hargc, hproc, hlookup, hbytes⟩ :=
      exec_committed hready hexec hvalue
    obtain ⟨program, memory, -, hprepared, hpush⟩ := prepared_of_execImage himage
    obtain ⟨stack, pa, result, after', hsz, hpos, -, hsome, hpush', -, hfits, hcross⟩ :=
      Prepared.push hfree hready.kernel hprepared hcount hlength
    rw [hpush, Prod.mk.injEq] at hpush'
    obtain ⟨rfl, rfl⟩ := hpush'
    have hroom : stack * PGSIZE ≤ arrayPointer image.sz argv := by
      by_contra hlt
      exact absurd (hcross (not_le.mp hlt)) (by simp)
    obtain ⟨hresult, harray, hstrings⟩ := hfits hroom
    rw [Option.some.injEq, Prod.mk.injEq] at hresult
    rw [hproc, hargc, hresult.2]
    refine ⟨rfl, rfl, stringPointers image.sz argv, ?_⟩
    dsimp only
    rw [hresult.1]
    exact argvLayout_of_holds hsz hpos (by rw [hlookup, hsome]) hroom
      (harray.congr hbytes) (hstrings.imp fun _ _ hholds => hholds.congr hbytes)
  · rintro program pagetable sz memory rfl hprepared
    obtain ⟨stack, pa, result, after, hsz, hpos, hwalk, -, hpush, hwrites, hfits, hcross⟩ :=
      Prepared.push hfree hready.kernel hprepared hcount hlength
    have hbase := stackPage_base hsz
    refine ⟨?_, _, hwalk, fun other hother => by rw [hpush, hwrites.pages other hother]⟩
    rw [hbase]
    constructor
    · intro hvalue
      by_contra hroom
      obtain ⟨final', hexec'⟩ := exec_succeeds hready path hprepared hcount hlength
        (by rw [hbase]; exact not_lt.mp hroom)
      rw [hexec, Except.ok.injEq, Prod.mk.injEq] at hexec'
      omega
    · intro hlt
      by_contra hvalue
      obtain ⟨image, after', himage, -⟩ := exec_committed hready hexec hvalue
      rw [hprepared.execImage_eq argv, hpush, hcross hlt] at himage
      dsimp only at himage
      cases hfreed : procFreepagetable after pagetable sz with
      | ok freed | error panic =>
        rw [hfreed] at himage
        cases himage

end

def emptyProgram : ProgramFile := contentFile ([0x7f, 0x45, 0x4c, 0x46] ++ List.replicate 60 0)

theorem exists_prepared_empty {s : State} {trampoline trapframe : ℕ}
    (hready : Ready s trampoline trapframe) (hroom : 27 ≤ s.memory.freelist.length) :
    ∃ pagetable sz memory,
      Prepared s.memory trampoline trapframe emptyProgram pagetable sz memory := by
  have hfree := freeSound_of_sound hready.sound
  obtain ⟨pagetable, created, hcreate, hsupply⟩ :=
    procPagetable_succeeds hfree (by omega) trampoline trapframe
  have hphnum : (elfHeader (emptyProgram.read 0 sizeofElf)).phnum = 0 := by decide +kernel
  have hlen : (emptyProgram.read 0 sizeofElf).length = sizeofElf := by decide +kernel
  have hmagic : (elfHeader (emptyProgram.read 0 sizeofElf)).magic = ELF_MAGIC := by decide +kernel
  obtain ⟨sz, memory, hprepared⟩ := prepared_of_loaded hfree hready.kernel hlen hmagic
    hcreate (show _ = Except.ok (true, 0, created) by rw [hphnum]; rfl) (by omega)
  exact ⟨pagetable, sz, memory, hprepared⟩

theorem exec_lays_out_argv_echo : ∃ (s final : State) (pointers : List ℕ),
      Ready s KERNBASE (KERNBASE + 0x40000) ∧
      exec s KERNBASE (KERNBASE + 0x40000) [] (some emptyProgram)
        [[0x65, 0x63, 0x68, 0x6f], []] = .ok (2, final) ∧
      ArgvLayout final.memory final.proc.pagetable final.proc.sz final.proc.sp
        [[0x65, 0x63, 0x68, 0x6f], []] pointers := by
  obtain ⟨s, hready, hroom⟩ := exists_ready_roomy
  obtain ⟨pagetable, sz, memory, hprepared⟩ := exists_prepared_empty hready hroom
  obtain ⟨value, final, hexec, hlayout, hfails⟩ := exec_lays_out_argv hready []
    (some emptyProgram) [[0x65, 0x63, 0x68, 0x6f], []] (by decide) (by decide)
  obtain ⟨hiff, -⟩ := hfails emptyProgram pagetable sz memory rfl hprepared
  have hvalue : value ≠ -1 := by
    obtain ⟨-, pages, -, hsz, -⟩ :=
      hprepared.stack (freeSound_of_sound hready.sound) hready.kernel
    rw [ne_eq, hiff, hsz]
    simp only [arrayPointer, lowest, below, List.length_cons, List.length_nil, PGSIZE_eq]
    omega
  obtain ⟨hargc, -, pointers, hargv⟩ := hlayout hvalue
  exact ⟨s, final, pointers, hready, by rw [hexec, hargc]; rfl, hargv⟩

end Xv6.ExecStack
