import Xv6.Vm.Supply

/-!
# The arithmetic of `sbrk`

`growproc` of `kernel/proc.c` keeps the 64-bit `p->sz` in a 32-bit local.  `sys_mmap`
raises `p->sz` without allocating memory, so below `p->sz` there may be pages that are
not present, and nothing is assumed here about which pages are.  The sum is exact where
it and the size fit in 32 bits and the pages in between are as the page functions want
them, and where memory runs out.
-/

namespace Xv6.Growproc

open Outcome Riscv Kalloc PageTable PageMap Mapping Ownership UserMemory AddressSpace Supply

/-- `growproc` of a process with `p->sz = psz`: the result, `p->sz` and the memory
afterwards. -/
def growproc (memory : Memory) (pagetable psz : ℕ) (n : ℤ) : Except Panic (ℤ × ℕ × Memory) := do
  let sz := u32 psz
  if 0 < n then
    let (grown, memory) ← uvmalloc memory pagetable sz (u32 (sz + n))
    if u32 grown = 0 then return (-1, psz, memory)
    return (0, u32 grown, memory)
  else if n < 0 then
    let (shrunk, memory) ← uvmdealloc memory pagetable sz (u32 (sz + n))
    return (0, u32 shrunk, memory)
  else return (0, sz, memory)

/-- `growproc` fails and changes nothing, or the new size is the sum. -/
def GrowsExactly (memory : Memory) (pagetable psz : ℕ) (n : ℤ) : Prop :=
  ∃ result sz after, growproc memory pagetable psz n = .ok (result, sz, after) ∧
    ((result = -1 ∧ sz = psz ∧ ∀ va, lookup after pagetable va = lookup memory pagetable va) ∨
      (result = 0 ∧ (sz : ℤ) = psz + n))

/-! ## Growing over pages that may be there -/

section
variable {memory : Memory} {pagetable base page : ℕ} {hand : Multiset ℕ}

theorem uvmdealloc_cut {middle : Memory} (hsound : Sound middle pagetable hand)
    (hlook : ∀ va, lookup middle pagetable va = lookup memory pagetable va)
    (hbase : base ≤ page) (hbound : page ≤ userPages)
    (hpres : ∀ other, base ≤ other → other < page → Present memory pagetable (other * PGSIZE)) :
    ∃ after, uvmdealloc middle pagetable (page * PGSIZE) (base * PGSIZE) =
        .ok (base * PGSIZE, after) ∧ UnmapsPages memory after pagetable base (page - base) := by
  have hmin : min (page * PGSIZE) (base * PGSIZE) = base * PGSIZE :=
    min_eq_right (Nat.mul_le_mul_right PGSIZE hbase)
  obtain ⟨after, hunmap, hunmaps, -⟩ := @conserves_uvmunmap middle pagetable base
    (page - base) hand hsound (by omega) (by
      intro other hlow hhigh
      rw [Present, hlook]
      exact hpres other hlow (by omega)) true
  refine ⟨after, ?_, ?_⟩
  · rw [uvmdealloc_eq (by rw [pageCount_mul]; exact hbound), hmin, pageCount_mul,
      pageCount_mul, hunmap]
    rfl
  · intro va
    rw [hunmaps va, hlook]

/-- What the loop of `uvmalloc` says about the pages it goes over. -/
structure LoopOutcome (memory : Memory) (pagetable base page count : ℕ)
    (outcome : Except Panic (Bool × Memory)) : Prop where
  panics : ∀ panic, outcome = .error panic → ∃ other, page ≤ other ∧ other < page + count ∧
      lookup memory pagetable (other * PGSIZE) ≠ none
  grows : ∀ after, outcome = .ok (true, after) → ∀ other, page ≤ other → other < page + count →
      lookup memory pagetable (other * PGSIZE) = none
  fails : ∀ after, outcome = .ok (false, after) →
    UnmapsPages memory after pagetable base (page - base)
  short : ∀ after, outcome = .ok (false, after) → memory.freelist.length ≤ 3 * count

theorem loopOutcome_failed {count : ℕ} {after : Memory}
    (hunmaps : UnmapsPages memory after pagetable base (page - base))
    (hshort : memory.freelist.length ≤ 3 * count) :
    LoopOutcome memory pagetable base page count (.ok (false, after)) := by
  refine ⟨fun panic herror => ?_, fun other htrue => ?_, fun other hfalse => ?_, fun _ _ => hshort⟩
  · cases herror
  · cases htrue
  · cases hfalse
    exact hunmaps

theorem LoopOutcome.step {count : ℕ} {next : Memory} {mem : ℕ} {perm : Pte}
    {outcome : Except Panic (Bool × Memory)} (hbase : base ≤ page)
    (hnone : lookup memory pagetable (page * PGSIZE) = none)
    (hmaps : MapsPages memory next pagetable (page * PGSIZE) 1 mem perm)
    (hsupply : memory.freelist.length ≤ next.freelist.length + 3)
    (hrest : LoopOutcome next pagetable base (page + 1) count outcome) :
    LoopOutcome memory pagetable base page (count + 1) outcome := by
  have hlater : ∀ other, page < other → lookup next pagetable (other * PGSIZE) =
        lookup memory pagetable (other * PGSIZE) := by
    intro other ho
    rw [hmaps.single, page_mul_div, page_mul_div, if_neg (by omega)]
  constructor
  · intro panic herror
    obtain ⟨other, hlow, hhigh, hsome⟩ := hrest.panics panic herror
    rw [hlater other (by omega)] at hsome
    exact ⟨other, by omega, by omega, hsome⟩
  · intro after htrue other hlow hhigh
    by_cases heq : other = page
    · rw [heq]
      exact hnone
    · rw [← hlater other (by omega)]
      exact hrest.grows after htrue other (by omega) (by omega)
  · intro after hfalse va
    rw [hrest.fails after hfalse va, hmaps.single, page_mul_div]
    by_cases hpage : va / PGSIZE = page
    · rw [if_pos (by omega), if_neg (by omega), ← lookup_round, PGROUNDDOWN, hpage, hnone]
    · by_cases hcut : base ≤ va / PGSIZE ∧ va / PGSIZE < base + (page - base)
      · rw [if_pos (by omega), if_pos hcut]
      · rw [if_neg (by omega), if_neg hpage, if_neg hcut]
  · intro after hfalse
    have hnext := hrest.short after hfalse
    omega

end

/-- The loop of `uvmalloc` for `count` pages, after the pages from `base` on: it panics
at a page that is there, and takes back what it has mapped when memory runs out. -/
theorem uvmallocLoop_outcome {pagetable base : ℕ} {hand : Multiset ℕ} (count : ℕ)
    {memory : Memory} {page : ℕ} (hsound : Sound memory pagetable hand)
    (hbase : base ≤ page) (hbound : page + count ≤ userPages)
    (hpres : ∀ other, base ≤ other → other < page → Present memory pagetable (other * PGSIZE)) :
    LoopOutcome memory pagetable base page count
      (uvmallocLoop pagetable (base * PGSIZE) count memory (page * PGSIZE)) := by
  induction count generalizing memory page with
  | zero =>
    refine ⟨fun panic herror => ?_, fun after _ other hlow hhigh => ?_, fun after hfalse => ?_,
      fun after hfalse => ?_⟩
    · cases herror
    · exact absurd hhigh (Nat.not_lt.mpr hlow)
    · cases hfalse
    · cases hfalse
  | succ count ih =>
    have huser : page < userPages := by omega
    have halign := Nat.mul_mod_left page PGSIZE
    cases hkal : kalloc memory with
    | mk result popped =>
      cases result with
      | none =>
        obtain ⟨rfl, hnil⟩ := kalloc_none hkal
        obtain ⟨after, hdealloc, hunmaps⟩ :=
          uvmdealloc_cut hsound (fun _ => rfl) hbase (by omega) hpres
        simp only [uvmallocLoop, hkal, hdealloc, ok_bind, pure_eq_ok]
        exact loopOutcome_failed hunmaps (by rw [hnil]; exact Nat.zero_le _)
      | some mem =>
        have hfresh := rewritten_fillPage popped mem 0
        cases hlook : lookup memory pagetable (page * PGSIZE) with
        | some pte =>
          obtain ⟨hcons, hsame⟩ := conserves_kalloc hsound hkal
          obtain ⟨-, hsame'⟩ := conserves_touch (hcons.sound hsound)
            (Multiset.mem_cons_self mem hand) hfresh.kernelEnd hfresh.freelist
            hfresh.frame
          have hsome := (hsame' (page * PGSIZE)).trans ((hsame _).trans hlook)
          have hremap := (mappages_eq_page (lookup_lt hsome) halign mem PTE_USER).trans
            (mappagesPage_remap hsome mem PTE_USER)
          simp only [uvmallocLoop, hkal, hremap]
          refine ⟨fun panic _ => ⟨page, le_refl page, by omega, ?_⟩,
            fun after htrue => ?_, fun after hfalse => ?_, fun after hfalse => ?_⟩
          · rw [hlook]
            exact Option.some_ne_none pte
          · cases htrue
          · cases hfalse
          · cases hfalse
        | none =>
          obtain ⟨mapped, next, hmap, htrue, hfalse⟩ := map_fresh hsound hkal
            hfresh (page_lt_TRAPFRAME huser) halign hlook
            (by decide : IsPerm PTE_USER)
          obtain ⟨hshort, hsupply⟩ := map_fresh_supply hsound hkal hfresh
            (page_lt_TRAPFRAME huser) halign hlook hmap
          cases mapped with
          | false =>
            obtain ⟨freed, hkfree, hcons, hsame⟩ := hfalse rfl
            obtain ⟨after, hdealloc, hunmaps⟩ := uvmdealloc_cut
              (hcons.sound hsound) hsame hbase (by omega) hpres
            simp only [uvmallocLoop, hkal, hmap, ok_bind, hkfree, hdealloc, pure_eq_ok]
            refine loopOutcome_failed hunmaps ((hshort rfl).trans ?_)
            omega
          | true =>
            obtain ⟨hcons, hmaps⟩ := htrue rfl
            simp only [uvmallocLoop, hkal, hmap, ok_bind, if_true]
            rw [← Nat.succ_mul]
            apply LoopOutcome.step hbase hlook hmaps hsupply
            apply ih (hcons.sound hsound) (by omega) (by omega)
            intro other hlow hhigh
            rw [Present, hmaps.single, page_mul_div, page_mul_div]
            by_cases heq : other = page
            · rw [if_pos heq]
              exact ⟨_, rfl, PTE_FLAGS_user mem⟩
            · rw [if_neg heq]
              exact hpres other hlow (by omega)

/-! ## The three cases of `growproc` -/

section
variable {memory : Memory} {pagetable psz : ℕ} {n : ℤ} {hand : Multiset ℕ}

theorem pageCount_le_userPages {sz : ℕ} (hsz : sz < 2 ^ 32) : pageCount sz ≤ userPages := by
  rw [userPages_eq]
  simp only [pageCount, PGSIZE_eq]
  omega

theorem uvmalloc_outcome {oldsz newsz : ℕ} (hsound : Sound memory pagetable hand)
    (hle : oldsz ≤ newsz) (hnew : newsz < 2 ^ 32) :
    ∃ outcome, LoopOutcome memory pagetable (pageCount oldsz) (pageCount oldsz)
        (pageCount newsz - pageCount oldsz) outcome ∧
      uvmalloc memory pagetable oldsz newsz =
        outcome.map fun found => (if found.1 then newsz else 0, found.2) := by
  have hbound := pageCount_le_userPages hnew
  have hmono := pageCount_mono hle
  have hsteps : pageSteps (pageCount oldsz * PGSIZE) newsz = pageCount newsz - pageCount oldsz := by
    simp only [pageCount, pageSteps, PGSIZE_eq]
    omega
  refine ⟨uvmallocLoop pagetable (pageCount oldsz * PGSIZE)
    (pageCount newsz - pageCount oldsz) memory (pageCount oldsz * PGSIZE), ?_, ?_⟩
  · apply uvmallocLoop_outcome _ hsound (le_refl _) (by omega)
    intro other hlow hhigh
    exact absurd hhigh (Nat.not_lt.mpr hlow)
  · rw [uvmalloc, if_neg (Nat.not_lt.mpr hle), PGROUNDUP_eq (hmono.trans hbound)]
    dsimp only
    rw [hsteps]
    cases uvmallocLoop pagetable (pageCount oldsz * PGSIZE)
      (pageCount newsz - pageCount oldsz) memory (pageCount oldsz * PGSIZE) with
    | error panic => rfl
    | ok found => rfl

/-- The sizes fit in 32 bits, and the pages between them are absent before growing and
present before shrinking. -/
structure FitsIn32 (memory : Memory) (pagetable psz : ℕ) (n : ℤ) : Prop where
  old : psz < 2 ^ 32
  nonneg : 0 ≤ psz + n
  new : psz + n < 2 ^ 32
  absent : ∀ page, pageCount psz ≤ page → page < pageCount (psz + n).toNat →
    lookup memory pagetable (page * PGSIZE) = none
  present : ∀ page, pageCount (psz + n).toNat ≤ page → page < pageCount psz →
    Present memory pagetable (page * PGSIZE)

/-- There are three free pages, and one to spare, for each page above the truncated size. -/
def Supplied (memory : Memory) (psz : ℕ) (n : ℤ) : Prop :=
  3 * (pageCount (u32 psz + n).toNat - pageCount (u32 psz)) < memory.freelist.length

theorem u32_natCast (value : ℕ) : u32 value = value % 2 ^ 32 := by
  rw [u32]
  omega

theorem growsExactly_zero : GrowsExactly memory pagetable psz 0 ↔
    FitsIn32 memory pagetable psz 0 := by
  have hgrow : growproc memory pagetable psz 0 = .ok (0, u32 psz, memory) := rfl
  rw [GrowsExactly, hgrow, u32_natCast]
  constructor
  · rintro ⟨result, sz, after, hres, hexact⟩
    cases hres
    refine ⟨by omega, by omega, by omega, ?_, ?_⟩ <;>
    · rw [add_zero, Int.toNat_natCast]
      exact fun page hlow hhigh => absurd hhigh (Nat.not_lt.mpr hlow)
  · intro hfits
    have hold := hfits.old
    exact ⟨0, _, _, rfl, Or.inr ⟨rfl, by omega⟩⟩

theorem growproc_wraps (hn : 0 < n) (hint : n < 2 ^ 31) (hwraps : 2 ^ 32 ≤ u32 psz + n) :
    growproc memory pagetable psz n = .ok (0, u32 psz, memory) := by
  have hsz := u32_natCast psz
  have hless : u32 (u32 psz + n) < u32 psz := by
    generalize u32 psz = sz at hsz hwraps ⊢
    rw [u32]
    omega
  have hsame : u32 (u32 psz : ℕ) = u32 psz := by
    rw [u32_natCast]
    omega
  have hpos : u32 psz ≠ 0 := by omega
  rw [growproc]
  simp only [if_pos hn, uvmalloc, if_pos hless, pure_eq_ok, ok_bind, hsame, if_neg hpos]

theorem growsExactly_pos (hsound : Sound memory pagetable hand) (hn : 0 < n) (hint : n < 2 ^ 31) :
    (FitsIn32 memory pagetable psz n → GrowsExactly memory pagetable psz n) ∧
      (Supplied memory psz n → GrowsExactly memory pagetable psz n →
        FitsIn32 memory pagetable psz n) := by
  have hsz := u32_natCast psz
  by_cases hwraps : 2 ^ 32 ≤ u32 psz + n
  · rw [GrowsExactly, growproc_wraps hn hint hwraps]
    constructor
    · rintro ⟨hold, -, hnew, -⟩
      omega
    · rintro - ⟨result, sz, after, hres, hexact⟩
      cases hres
      omega
  · have hsum : u32 (u32 psz + n) = (u32 psz + n).toNat := by
      rw [u32]
      omega
    obtain ⟨outcome, houtcome, halloc⟩ := @uvmalloc_outcome memory pagetable hand
      (u32 psz) (u32 psz + n).toNat hsound (by omega) (by omega)
    have hgrow : growproc memory pagetable psz n = (outcome.map fun found =>
        (if found.1 then ((0 : ℤ), (u32 psz + n).toNat, found.2)
          else (-1, psz, found.2))) := by
      rw [growproc]
      simp only [if_pos hn, hsum, halloc]
      cases outcome with
      | error panic => rfl
      | ok found =>
        obtain ⟨grown, after⟩ := found
        cases grown with
        | false => rfl
        | true =>
          have hvalue : u32 ((u32 psz + n).toNat : ℕ) = (u32 psz + n).toNat := by
            rw [u32_natCast]
            omega
          have hne : (u32 psz + n).toNat ≠ 0 := by omega
          simp only [Except.map, if_true, ok_bind, hvalue, if_neg hne, pure_eq_ok]
    rw [GrowsExactly, hgrow]
    cases outcome with
    | error panic =>
      -- A page above the truncated size is there already.
      obtain ⟨other, hlow, hhigh, hsome⟩ := houtcome.panics panic rfl
      constructor
      · rintro ⟨hold, -, -, habsent, -⟩
        have hsame : u32 psz = psz := by omega
        rw [hsame] at hlow hhigh
        exact absurd (habsent other hlow (by omega)) hsome
      · rintro - ⟨result, sz, after, hres, -⟩
        cases hres
    | ok found =>
      obtain ⟨grown, after⟩ := found
      cases grown with
      | false =>
        constructor
        · refine fun _ => ⟨-1, psz, after, rfl, Or.inl ⟨rfl, rfl, fun va => ?_⟩⟩
          rw [houtcome.fails after rfl va, if_neg (by omega)]
        · exact fun hsupplied => absurd hsupplied (Nat.not_lt.mpr (houtcome.short after rfl))
      | true =>
        have habsent := houtcome.grows after rfl
        constructor
        · rintro ⟨hold, -⟩
          exact ⟨0, _, after, rfl, Or.inr ⟨rfl, by omega⟩⟩
        · rintro - ⟨result, sz, final, hres, hexact⟩
          cases hres
          have hsame : u32 psz = psz := by omega
          rw [hsame] at habsent
          refine ⟨by omega, by omega, by omega, ?_, ?_⟩
          · intro page hlow hhigh
            exact habsent page hlow (by omega)
          · intro page hlow hhigh
            have hmono := @pageCount_mono psz (psz + n).toNat (by omega)
            omega

/-- The case `n < 0`, when the truncated size is smaller than `-n`: `uvmdealloc` sees a
larger size and does nothing. -/
theorem growproc_below (hn : n < 0) (hint : -2 ^ 31 ≤ n) (hbelow : u32 psz + n < 0) :
    growproc memory pagetable psz n = .ok (0, u32 psz, memory) := by
  have hsz := u32_natCast psz
  have hmore : u32 psz ≤ u32 (u32 psz + n) := by
    generalize u32 psz = sz at hsz hbelow ⊢
    rw [u32]
    omega
  have hsame : u32 (u32 psz : ℕ) = u32 psz := by
    rw [u32_natCast]
    omega
  rw [growproc]
  simp only [if_neg (by omega : ¬ 0 < n), if_pos hn, uvmdealloc, if_pos hmore, pure_eq_ok,
    ok_bind, hsame]

theorem growsExactly_neg (hsound : Sound memory pagetable hand) (hn : n < 0) (hint : -2 ^ 31 ≤ n) :
    GrowsExactly memory pagetable psz n ↔ FitsIn32 memory pagetable psz n := by
  have hsz := u32_natCast psz
  by_cases hbelow : u32 psz + n < 0
  · rw [GrowsExactly, growproc_below hn hint hbelow]
    apply iff_of_false
    · rintro ⟨result, sz, after, hres, hexact⟩
      cases hres
      omega
    · rintro ⟨hold, hnonneg, -⟩
      omega
  · have hsum : u32 (u32 psz + n) = (u32 psz + n).toNat := by
      rw [u32]
      omega
    have hmin : min (u32 psz) (u32 psz + n).toNat = (u32 psz + n).toNat := by omega
    have hbound : pageCount (u32 psz) ≤ userPages := pageCount_le_userPages (by omega)
    have hmono := @pageCount_mono (u32 psz + n).toNat (u32 psz) (by omega)
    have hvalue : u32 ((u32 psz + n).toNat : ℕ) = (u32 psz + n).toNat := by
      rw [u32_natCast]
      omega
    have hgrow : growproc memory pagetable psz n =
        (uvmunmap memory pagetable (pageCount (u32 psz + n).toNat * PGSIZE)
          (pageCount (u32 psz) - pageCount (u32 psz + n).toNat) true).map fun after =>
            ((0 : ℤ), (u32 psz + n).toNat, after) := by
      rw [growproc]
      simp only [if_neg (by omega : ¬ 0 < n), if_pos hn, hsum, uvmdealloc_eq hbound, hmin]
      cases uvmunmap memory pagetable (pageCount (u32 psz + n).toNat * PGSIZE)
          (pageCount (u32 psz) - pageCount (u32 psz + n).toNat) true with
      | error panic => rfl
      | ok after => simp only [Except.map, ok_bind, hvalue, pure_eq_ok]
    rw [GrowsExactly, hgrow]
    constructor
    · rintro ⟨result, sz, after, hres, hexact⟩
      cases hunmap : uvmunmap memory pagetable (pageCount (u32 psz + n).toNat * PGSIZE)
          (pageCount (u32 psz) - pageCount (u32 psz + n).toNat) true with
      | error panic =>
        rw [hunmap] at hres
        cases hres
      | ok final =>
        rw [hunmap] at hres
        cases hres
        have hsame : u32 psz = psz := by omega
        rw [uvmunmap_aligned (Nat.mul_mod_left _ PGSIZE), page_mul_div,
          unmapCount_eq (by have := userPages_le; omega)] at hunmap
        have hpres := uvmunmapLoop_returns _ hsound.wellFormed
          (fun _ => hsound.releasable (by omega)) hunmap
        rw [hsame] at hpres hmono
        refine ⟨by omega, by omega, by omega, ?_, ?_⟩
        · intro page hlow hhigh
          omega
        · intro page hlow hhigh
          obtain ⟨pte, hsome, hleaf, -⟩ := hpres page hlow (by omega)
          exact ⟨pte, hsome, hleaf⟩
    · rintro ⟨hold, hnonneg, -, -, hpres⟩
      have hsame : u32 psz = psz := by omega
      rw [hsame] at hbound hmono ⊢
      obtain ⟨after, hunmap, -⟩ := @conserves_uvmunmap memory pagetable
        (pageCount (psz + n).toNat) (pageCount psz - pageCount (psz + n).toNat) hand
        hsound (by omega) (fun page hlow hhigh => hpres page hlow (by omega)) true
      refine ⟨0, (psz + n).toNat, after, ?_, Or.inr ⟨rfl, by omega⟩⟩
      rw [hunmap]
      rfl

end

/-- `growproc`, for every size of the process, every 32-bit argument and every set of
pages that are present: it is exact where the sizes fit in 32 bits, and where it does not
run out of memory only there. -/
theorem growproc_exact_iff (memory : Memory) (pagetable psz : ℕ) (n : ℤ)
    (hand : Multiset ℕ) (hsound : Sound memory pagetable hand) (hlow : -2 ^ 31 ≤ n)
    (hhigh : n < 2 ^ 31) :
    (FitsIn32 memory pagetable psz n → GrowsExactly memory pagetable psz n) ∧
      ((0 < n → Supplied memory psz n) → GrowsExactly memory pagetable psz n →
        FitsIn32 memory pagetable psz n) := by
  rcases lt_trichotomy n 0 with hn | rfl | hn
  · exact ⟨(growsExactly_neg hsound hn hlow).mpr, fun _ => (growsExactly_neg hsound hn hlow).mp⟩
  · exact ⟨growsExactly_zero.mpr, fun _ => growsExactly_zero.mp⟩
  · obtain ⟨hfits, hexact⟩ := @growsExactly_pos memory pagetable psz n hand hsound hn hhigh
    exact ⟨hfits, fun hsupplied => hexact (hsupplied hn)⟩

/-- Four free pages. -/
def fourPages : Memory :=
  { blankMemory with freelist := blankMemory.freelist ++ [KERNBASE + 0x4000] }

/-- An empty process grows by one byte exactly, but from `2^32` on it does not.  A size whose
page is not present, as after `mmap`, cannot be taken back: `uvmunmap` panics. -/
theorem growproc_exact_fourPages : GrowsExactly fourPages KERNBASE 0 1 ∧
    Supplied fourPages (2 ^ 32) 1 ∧ ¬ GrowsExactly fourPages KERNBASE (2 ^ 32) 1 ∧
    ¬ GrowsExactly fourPages KERNBASE 1 (-1) := by
  have hzero : ∀ index, readPte fourPages KERNBASE index = 0 := readPte_blankMemory KERNBASE
  have hnone := @lookup_zeroed fourPages KERNBASE hzero
  have hsound : Sound fourPages KERNBASE 0 := sound_zeroed hzero (by decide) (by decide)
  have hsupplied : Supplied fourPages (2 ^ 32) 1 := by
    rw [Supplied]
    decide
  refine ⟨?_, hsupplied, fun hexact => ?_, fun hexact => ?_⟩
  · apply (growproc_exact_iff fourPages KERNBASE 0 1 0 hsound (by decide) (by decide)).1
    exact ⟨by decide, by decide, by decide, fun page _ _ => hnone _,
      fun page _ hhigh => absurd hhigh (Nat.not_lt_zero page)⟩
  · have hfits := (growproc_exact_iff fourPages KERNBASE (2 ^ 32) 1 0 hsound (by decide)
      (by decide)).2 (fun _ => hsupplied) hexact
    exact absurd hfits.old (lt_irrefl _)
  · have hfits := (growproc_exact_iff fourPages KERNBASE 1 (-1) 0 hsound (by decide)
      (by decide)).2 (fun hpos => absurd hpos (by decide)) hexact
    obtain ⟨pte, hsome, -⟩ := hfits.present 0 (by decide) (by decide)
    rw [hnone] at hsome
    cases hsome

/-- `growproc(-1)` of a process without memory returns 0 and keeps the size 0, and
`growproc(0)` of a process whose mappings end at 4 GiB sets its size to 0. -/
theorem growproc_inexact : growproc blankMemory KERNBASE 0 (-1) = .ok (0, 0, blankMemory) ∧
      growproc blankMemory KERNBASE (2 ^ 32) 0 = .ok (0, 0, blankMemory) ∧
      ¬ GrowsExactly blankMemory KERNBASE 0 (-1) ∧
      ¬ GrowsExactly blankMemory KERNBASE (2 ^ 32) 0 := by
  have hbelow : growproc blankMemory KERNBASE 0 (-1) = .ok (0, 0, blankMemory) :=
    growproc_below (by decide) (by decide) (by decide)
  have htruncated : growproc blankMemory KERNBASE (2 ^ 32) 0 = .ok (0, 0, blankMemory) :=
    rfl
  refine ⟨hbelow, htruncated, ?_, ?_⟩
  · rintro ⟨result, sz, after, hresult, hexact⟩
    rw [hbelow] at hresult
    cases hresult
    omega
  · rintro ⟨result, sz, after, hresult, hexact⟩
    rw [htruncated] at hresult
    cases hresult
    omega

end Xv6.Growproc
