import Xv6.Proc.Exec

/-!
# `exec` neither leaks nor loses pages

An invariant of the new address space holds from its creation to the commit,
through the loops over segments and arguments; every exit to `bad` therefore
gives back exactly the pages taken.
-/

namespace Xv6.ExecOwnership

open LittleEndian Riscv Kalloc PageTable PageMap Mapping UserMemory Ownership AddressSpace List
open Option ProcMemory Exec Outcome

/-- The address space under construction: it was made of free pages of
`start`, and it is the space of a process of size `sz`. -/
structure Building (start memory : Memory)
    (trampoline pagetable trapframe sz : ℕ) : Prop where
  exchange : Exchange start memory 0 (spacePages memory pagetable)
  sound : Sound memory pagetable 0
  space : ProcessSpace memory trampoline pagetable trapframe sz

def AllUser (memory : Memory) (pagetable count : ℕ) : Prop :=
  ∀ page < count, ∃ pa, lookup memory pagetable (page * PGSIZE) = some (leafPte pa PTE_USER)

section Building

variable {start memory after : Memory}
variable {trampoline pagetable trapframe sz newsz : ℕ}

theorem Building.step (hbuild : Building start memory trampoline pagetable trapframe sz)
    (hcons : Conserves memory after pagetable 0 0) (hhigh : HighSame memory after pagetable)
    (hfill : Filled after pagetable (pageCount newsz)) :
    Building start after trampoline pagetable trapframe newsz := by
  have hsound := hcons.sound hbuild.sound
  refine ⟨hbuild.exchange.trans ?_, hsound, hsound.interior, hsound.upper, hfill, ?_, ?_⟩
  · simpa using conserves_exchange hcons
  · rw [hhigh _ (userPages_le_div (by decide)), hbuild.space.trampoline]
  · rw [hhigh _ (userPages_le_div (le_refl _)), hbuild.space.trapframe]

theorem Building.store (hbuild : Building start memory trampoline pagetable trapframe sz)
    {pa : ℕ} (hleaf : pa ∈ userLeaves memory pagetable) (hstore : Rewritten memory after pa) :
    Building start after trampoline pagetable trapframe sz ∧
      ∀ va, lookup after pagetable va = lookup memory pagetable va := by
  obtain ⟨hcons, hlook⟩ := conserves_store hbuild.sound hleaf hstore
  refine ⟨hbuild.step hcons (highSame_of_lookup hlook) ?_, hlook⟩
  exact hbuild.space.filled.congr fun page _ => hlook (page * PGSIZE)

/-- Only user memory has the user bit, so what `walkaddr` returns is a page of
the address space. -/
theorem Building.walkaddr_mem (hbuild : Building start memory trampoline pagetable trapframe sz)
    {va pa : ℕ} (hwalk : walkaddr memory pagetable va = some pa) :
    pa ∈ userLeaves memory pagetable := by
  rw [walkaddr_eq, bind_eq_some_iff] at hwalk
  obtain ⟨pte, hsome, hpte⟩ := hwalk
  split at hpte
  next hflags =>
    rw [Bool.and_eq_true] at hflags
    rw [some.injEq] at hpte
    rw [← lookup_round, PGROUNDDOWN] at hsome
    by_cases huser : va / PGSIZE < userPages
    · rw [← hpte]
      exact mem_userLeaves huser hsome
    · -- The trap frame and the trampoline are mapped without the user bit.
      exfalso
      have huserBit := hflags.1
      by_cases hfst : va / PGSIZE = userPages
      · rw [hfst, ← TRAPFRAME_page, hbuild.space.trapframe, some.injEq] at hsome
        rw [← hsome, hasFlag_leafPte PTE_U (by decide)] at huserBit
        exact absurd huserBit (by decide)
      · by_cases hsnd : va / PGSIZE = userPages + 1
        · rw [hsnd, ← TRAMPOLINE_page, hbuild.space.trampoline, some.injEq] at hsome
          rw [← hsome, hasFlag_leafPte PTE_U (by decide)] at huserBit
          exact absurd huserBit (by decide)
        · rw [lookup_above (by rw [page_mul_div]; omega)] at hsome
          exact absurd hsome (by simp)
  next => exact absurd hpte (by simp)

theorem walkaddr_user {page pa : ℕ} (hkernel : 0 < memory.kernelEnd)
    (hsound : Sound memory pagetable 0) (hpage : page < userPages)
    (hsome : lookup memory pagetable (page * PGSIZE) = some (leafPte pa PTE_USER)) :
    walkaddr memory pagetable (page * PGSIZE) = some (PTE2PA (leafPte pa PTE_USER)) := by
  have hman := hsound.leaf_managed hpage hsome
  have hne : (PTE2PA (leafPte pa PTE_USER) != 0) = true := by
    have hpos := lt_of_lt_of_le hkernel hman.2.1
    simpa using Nat.pos_iff_ne_zero.mp hpos
  have huser : hasFlag (leafPte pa PTE_USER) PTE_U = true := by
    rw [hasFlag_leafPte PTE_U (by decide)]
    decide
  rw [walkaddr_eq, hsome, bind_some, huser, hne]
  rfl

theorem rewritten_storeBytes (memory : Memory) (pa offset : ℕ) (bytes : List Byte) :
    Rewritten memory (storeBytes memory pa offset bytes) pa :=
  ⟨rfl, rfl, fun _ ho => Function.update_of_ne ho _ _⟩

theorem Building.copyoutLoop (hbuild : Building start memory trampoline pagetable trapframe sz)
    (fuel dstva : ℕ) (src : List Byte) :
    Building start (copyoutLoop pagetable fuel memory dstva src).2 trampoline
      pagetable trapframe sz := by
  induction fuel generalizing memory dstva src with
  | zero => exact hbuild
  | succ fuel ih =>
    rw [UserMemory.copyoutLoop]
    dsimp only
    split
    next => exact hbuild
    next =>
      cases hwalk : walkaddr memory pagetable (PGROUNDDOWN dstva) with
      | none => exact hbuild
      | some pa =>
        exact ih (hbuild.store (hbuild.walkaddr_mem hwalk)
          (rewritten_storeBytes memory pa _ _)).1 _ _

theorem Building.copyout (hbuild : Building start memory trampoline pagetable trapframe sz)
    {dstva : ℕ} {src : List Byte} {copied : Bool}
    (hcopy : copyout memory pagetable dstva src = (copied, after)) :
    Building start after trampoline pagetable trapframe sz := by
  have hloop := hbuild.copyoutLoop src.length dstva src
  rw [UserMemory.copyout] at hcopy
  rw [hcopy] at hloop
  exact hloop

theorem Building.pushStrings (hbuild : Building start memory trampoline pagetable trapframe sz)
    (stackbase : ℕ) (strings : List (List Byte)) (sp : ℕ) (ustack : List ℕ) :
    Building start (pushStrings pagetable stackbase strings memory sp ustack).2
      trampoline pagetable trapframe sz := by
  induction strings generalizing memory sp ustack with
  | nil => exact hbuild
  | cons string strings ih =>
    rw [Exec.pushStrings]
    dsimp only
    split
    next => exact hbuild
    next =>
      split
      next => exact hbuild
      next =>
        split
        next hcopy => exact hbuild.copyout hcopy
        next hcopy => exact ih (hbuild.copyout hcopy) _ _

theorem Building.pushArguments (hbuild : Building start memory trampoline pagetable trapframe sz)
    (top : ℕ) (argv : List (List Byte)) :
    Building start (pushArguments memory pagetable top argv).2 trampoline pagetable trapframe
      sz := by
  have hstrings := hbuild.pushStrings (top - PGSIZE) argv top []
  rw [Exec.pushArguments]
  dsimp only
  split
  next hres =>
    rw [hres] at hstrings
    exact hstrings
  next hres =>
    rw [hres] at hstrings
    split
    next => exact hstrings
    next =>
      split
      next hcopy => exact hstrings.copyout hcopy
      next hcopy => exact hstrings.copyout hcopy

/-! ## Loading segments -/

theorem AllUser.congr {count : ℕ} (huser : AllUser memory pagetable count)
    (hsame : ∀ va, lookup after pagetable va = lookup memory pagetable va) :
    AllUser after pagetable count := by
  intro page hpage
  rw [hsame]
  exact huser page hpage

/-- The loop of `loadseg` finds every page of a segment that lies below the
size of the image. -/
theorem loadsegLoop_spec (file : ProgramFile) {va offset size : ℕ}
    (hkernel : 0 < start.kernelEnd) (halign : va % PGSIZE = 0)
    (hfits : va + size ≤ sz) (count : ℕ) {i : ℕ} (hi : i % PGSIZE = 0)
    (hbuild : Building start memory trampoline pagetable trapframe sz)
    (huser : AllUser memory pagetable (pageCount sz))
    (hcount : ∀ step < count, i + step * PGSIZE < size) :
    ∃ loaded after, loadsegLoop file pagetable va offset size count memory i = .ok (loaded, after) ∧
      Building start after trampoline pagetable trapframe sz ∧
      AllUser after pagetable (pageCount sz) := by
  induction count generalizing memory i with
  | zero => exact ⟨true, memory, rfl, hbuild, huser⟩
  | succ count ih =>
    have hin : i < size := by simpa using hcount 0 (Nat.succ_pos count)
    have hbound := hbuild.space.filled.bound
    have hpage : (va + i) / PGSIZE < pageCount sz := by
      simp only [pageCount, PGSIZE_eq] at *
      omega
    have hround : (va + i) % 2 ^ 64 = (va + i) / PGSIZE * PGSIZE := by
      rw [userPages_eq] at hbound
      simp only [pageCount, PGSIZE_eq] at *
      omega
    have hend : 0 < memory.kernelEnd := by
      rw [hbuild.exchange.kernelEnd]
      exact hkernel
    obtain ⟨pa, hsome⟩ := huser _ hpage
    have hlt : (va + i) / PGSIZE < userPages := lt_of_lt_of_le hpage hbound
    have hwalk := walkaddr_user hend hbuild.sound hlt hsome
    rw [loadsegLoop, hround, hwalk]
    dsimp only
    generalize (if size - i < PGSIZE then size - i else PGSIZE) = n
    obtain ⟨hbuild', hlook⟩ := hbuild.store (hbuild.walkaddr_mem hwalk)
      (rewritten_storeBytes memory (PTE2PA (leafPte pa PTE_USER)) 0
        (file.read ((offset + i) % 2 ^ 32) n))
    have huser' := huser.congr hlook
    split
    next => exact ⟨false, _, rfl, hbuild', huser'⟩
    next =>
      refine ih ?_ hbuild' huser' ?_
      · simp only [PGSIZE_eq] at *
        omega
      · intro step hstep
        have hlater := hcount (step + 1) (by omega)
        simp only [PGSIZE_eq] at *
        omega

theorem loadseg_spec (file : ProgramFile) {va size : ℕ} (offset : ℕ)
    (hkernel : 0 < start.kernelEnd) (halign : va % PGSIZE = 0) (hfits : va + size ≤ sz)
    (hbuild : Building start memory trampoline pagetable trapframe sz)
    (huser : AllUser memory pagetable (pageCount sz)) :
    ∃ loaded after, loadseg memory file pagetable va offset size = .ok (loaded, after) ∧
      Building start after trampoline pagetable trapframe sz ∧
      AllUser after pagetable (pageCount sz) := by
  have hmod : size % 2 ^ 32 ≤ size := Nat.mod_le size _
  apply loadsegLoop_spec file hkernel halign (by omega) _ (Nat.zero_mod _) hbuild huser
  intro step hstep
  simp only [pageSteps, PGSIZE_eq] at *
  omega

theorem field_lt (bytes : List Byte) (offset width : ℕ) :
    field bytes offset width < 256 ^ width := by
  rw [field]
  have hlen : ((bytes.drop offset).take width).length ≤ width := length_take_le _ _
  generalize (bytes.drop offset).take width = taken at hlen
  refine lt_of_lt_of_le ?_ (Nat.pow_le_pow_right (by norm_num) hlen)
  clear hlen
  induction taken with
  | nil => simp
  | cons byte taken ih =>
    have hbyte := byte.isLt
    rw [foldr_cons, length_cons, pow_succ]
    omega

/-- Growing the image: the result 0 leaves its size, any other result is the
new one. -/
theorem Building.uvmalloc (hbuild : Building start memory trampoline pagetable trapframe sz)
    (huser : AllUser memory pagetable (pageCount sz)) (newsz : ℕ) :
    ∃ result after, uvmalloc memory pagetable sz newsz = .ok (result, after) ∧
      (result = 0 → Building start after trampoline pagetable trapframe sz) ∧
      (result ≠ 0 → result = max sz newsz ∧
        Building start after trampoline pagetable trapframe result ∧
        AllUser after pagetable (pageCount result) ∧
        GrowsPages memory after pagetable (pageCount sz) (pageCount result) ∧
        KeepsData memory after pagetable (pageCount sz) ∧
        ZeroPages after pagetable (pageCount sz) (pageCount result)) := by
  obtain ⟨result, after, halloc, hcons, hhigh, hdata, hres⟩ :=
    uvmalloc_spec hbuild.sound hbuild.space.filled newsz
  refine ⟨result, after, halloc, ?_, ?_⟩
  · intro hzero
    rcases hres with ⟨-, hfill⟩ | ⟨hmax, hfill, -⟩
    · exact hbuild.step hcons hhigh hfill
    · have hnil : max sz newsz = sz := by omega
      rw [hnil] at hfill
      exact hbuild.step hcons hhigh hfill
  · intro hnonzero
    rcases hres with ⟨hzero, -⟩ | ⟨hmax, hfill, hgrows, hzeros⟩
    · exact absurd hzero hnonzero
    · rw [← hmax] at hfill hgrows hzeros
      refine ⟨hmax, hbuild.step hcons hhigh hfill, ?_, hgrows, hdata, hzeros⟩
      intro page hpage
      by_cases hold : page < pageCount sz
      · rw [hgrows.2 _ (by rw [page_mul_div]; omega)]
        exact huser page hold
      · exact hgrows.1 page (by omega) hpage

theorem loadSegments_spec (file : ProgramFile) (hkernel : 0 < start.kernelEnd) (count off : ℕ)
    (hbuild : Building start memory trampoline pagetable trapframe sz)
    (huser : AllUser memory pagetable (pageCount sz)) :
    ∃ loaded size after, loadSegments file pagetable count memory off sz =
      .ok (loaded, size, after) ∧
      Building start after trampoline pagetable trapframe size ∧
      (loaded = true → AllUser after pagetable (pageCount size)) := by
  induction count generalizing memory off sz with
  | zero => exact ⟨true, sz, memory, rfl, hbuild, fun _ => huser⟩
  | succ count ih =>
    have hstop : ∃ loaded size after,
        (pure (false, sz, memory) : Except Panic (Bool × ℕ × Memory)) = .ok (loaded, size, after) ∧
        Building start after trampoline pagetable trapframe size ∧
        (loaded = true → AllUser after pagetable (pageCount size)) :=
      ⟨false, sz, memory, rfl, hbuild, by simp⟩
    rw [loadSegments]
    dsimp only
    generalize hbytes : file.read (off % 2 ^ 32) sizeofPh = bytes
    have hvaddr : (progHeader bytes).vaddr < 2 ^ 64 := field_lt bytes 16 8
    have hmemsz : (progHeader bytes).memsz < 2 ^ 64 := field_lt bytes 40 8
    generalize progHeader bytes = ph at hvaddr hmemsz
    by_cases hread : bytes.length ≠ sizeofPh
    · rw [if_pos hread]
      exact hstop
    rw [if_neg hread]
    by_cases htype : ph.type ≠ ELF_PROG_LOAD
    · rw [if_pos htype]
      exact ih _ hbuild huser
    rw [if_neg htype]
    by_cases hsizes : ph.memsz < ph.filesz
    · rw [if_pos hsizes]
      exact hstop
    rw [if_neg hsizes]
    by_cases hwrap : (ph.vaddr + ph.memsz) % 2 ^ 64 < ph.vaddr
    · rw [if_pos hwrap]
      exact hstop
    rw [if_neg hwrap]
    obtain ⟨sz1, grown, halloc, hzero, hmore⟩ :=
      hbuild.uvmalloc huser ((ph.vaddr + ph.memsz) % 2 ^ 64)
    rw [halloc, ok_bind]
    dsimp only
    by_cases hfailed : sz1 = 0
    · rw [if_pos hfailed]
      exact ⟨false, sz, grown, rfl, hzero hfailed, by simp⟩
    rw [if_neg hfailed]
    obtain ⟨hmax, hbuild', huser', -⟩ := hmore hfailed
    by_cases halign : ph.vaddr % PGSIZE ≠ 0
    · rw [if_pos halign]
      exact ⟨false, sz1, grown, rfl, hbuild', by simp⟩
    rw [if_neg halign]
    have hfits : ph.vaddr + ph.filesz ≤ sz1 := by omega
    obtain ⟨loaded, filled, hload, hbuild'', huser''⟩ := loadseg_spec file
      ph.off hkernel (by simpa using halign) hfits hbuild' huser'
    rw [hload, ok_bind]
    dsimp only
    cases loaded with
    | true => exact ih _ hbuild'' huser''
    | false => exact ⟨false, sz1, filled, rfl, hbuild'', by simp⟩

theorem Building.resize (hbuild : Building start memory trampoline pagetable trapframe sz)
    (hcount : pageCount newsz = pageCount sz) :
    Building start memory trampoline pagetable trapframe newsz := by
  refine ⟨hbuild.exchange, hbuild.sound, hbuild.space.interior,
    hbuild.space.upper, ?_, hbuild.space.trampoline, hbuild.space.trapframe⟩
  rw [hcount]
  exact hbuild.space.filled

/-- From the page table on, the address space stays well built, whatever the
file and the arguments are. -/
theorem loadImage_spec (file : ProgramFile) (elf : ElfHeader)
    (argv : List (List Byte)) (hkernel : 0 < start.kernelEnd)
    (hbuild : Building start memory trampoline pagetable trapframe 0) :
    ∃ image size after, loadImage memory file elf pagetable argv = .ok (image, size, after) ∧
      Building start after trampoline pagetable trapframe size ∧
      ∀ found, image = some found → found.pagetable = pagetable ∧ found.sz = size := by
  have hnil : AllUser memory pagetable (pageCount 0) := by
    intro page hpage
    exact absurd hpage (Nat.not_lt_zero page)
  obtain ⟨loaded, size, segments, hsegments, hbuild₁, huser₁⟩ :=
    loadSegments_spec file hkernel elf.phnum elf.phoff hbuild hnil
  rw [loadImage, hsegments, ok_bind]
  dsimp only
  cases loaded with
  | false => exact ⟨none, size, segments, rfl, hbuild₁, by simp⟩
  | true =>
    have hbound := hbuild₁.space.filled.bound
    have hcount₁ := hbuild₁.space.filled.count_le hbuild₁.sound
    have hround := PGROUNDUP_eq hbound
    have hbuild₂ : Building start segments trampoline pagetable trapframe (PGROUNDUP size) := by
      apply hbuild₁.resize
      rw [hround, pageCount_mul]
    have huser₂ : AllUser segments pagetable (pageCount (PGROUNDUP size)) := by
      rw [hround, pageCount_mul]
      exact huser₁ rfl
    obtain ⟨sz1, stacked, halloc, hzero, hmore⟩ :=
      hbuild₂.uvmalloc huser₂ ((PGROUNDUP size + 2 * PGSIZE) % 2 ^ 64)
    simp only [Bool.true_eq_false, if_false, halloc, ok_bind]
    split
    next hfailed => exact ⟨none, PGROUNDUP size, stacked, rfl, hzero hfailed, by simp⟩
    next hgrown =>
      obtain ⟨hmax, hbuild₃, -, hgrows, -⟩ := hmore hgrown
      -- The guard page is the first of the two new ones.
      have hsz1 : sz1 = (pageCount size + 2) * PGSIZE := by
        rw [hmax, hround]
        simp only [PGSIZE_eq, PHYSTOP_eq] at *
        omega
      have hguard : sz1 - 2 * PGSIZE = pageCount size * PGSIZE := by
        rw [hsz1, Nat.add_mul, Nat.add_sub_cancel]
      have hcount : pageCount sz1 = pageCount size + 2 := by rw [hsz1, pageCount_mul]
      obtain ⟨pa, hsome⟩ := hgrows.1 (pageCount size) (by rw [hround, pageCount_mul]) (by omega)
      obtain ⟨cleared, hclear, hcons, hhigh, hfill, -⟩ := uvmclear_spec
        hbuild₃.sound hbuild₃.space.filled (by omega) hsome
      have hbuild₄ := hbuild₃.step hcons hhigh hfill
      rw [hguard, hclear, ok_bind]
      have hpush := hbuild₄.pushArguments sz1 argv
      split
      next hres =>
        rw [hres] at hpush
        exact ⟨none, sz1, _, rfl, hpush, by simp⟩
      next hres =>
        rw [hres] at hpush
        refine ⟨_, sz1, _, rfl, hpush, ?_⟩
        intro found hf
        rw [some.injEq] at hf
        rw [← hf]
        exact ⟨rfl, rfl⟩

end Building

/-- `exec` up to its commit returns.  It builds an address space from free
pages, or returns every page it took. -/
theorem execImage_spec {memory : Memory} (hfree : FreeSound memory)
    (hkernel : 0 < memory.kernelEnd) (trampoline trapframe : ℕ)
    (file : Option ProgramFile) (argv : List (List Byte)) :
    ∃ image after, execImage memory trampoline trapframe file argv = .ok (image, after) ∧
      (image = none → Exchange memory after 0 0) ∧ ∀ found, image = some found →
        Building memory after trampoline found.pagetable trapframe found.sz := by
  have hstop : ∃ image after, (pure (none, memory) :
      Except Panic (Option Image × Memory)) = .ok (image, after) ∧
      (image = none → Exchange memory after 0 0) ∧
      ∀ found, image = some found →
        Building memory after trampoline found.pagetable trapframe found.sz :=
    ⟨none, memory, rfl, fun _ => Exchange.refl memory 0, by simp⟩
  cases file with
  | none => exact hstop
  | some file =>
    rw [execImage]
    dsimp only
    split
    next => exact hstop
    next =>
    split
    next => exact hstop
    next =>
      obtain ⟨result, created, hcreate, hnone, hsome⟩ :=
        procPagetable_spec hfree trampoline trapframe
      rw [hcreate, ok_bind]
      cases result with
      | none => exact ⟨none, created, rfl, fun _ => hnone rfl, by simp⟩
      | some pagetable =>
        obtain ⟨hexch, hsound, hspace⟩ := hsome pagetable rfl
        obtain ⟨image, size, loaded, hload, hbuild, himage⟩ :=
          loadImage_spec file (elfHeader (file.read 0 sizeofElf)) argv
            hkernel ⟨hexch, hsound, hspace⟩
        simp only [hload, ok_bind]
        cases image with
        | none =>
          obtain ⟨after, hreturn, hrel⟩ := procFreepagetable_spec hbuild.sound hbuild.space
          refine ⟨none, after, ?_, ?_, by simp⟩
          · simp only [hreturn, ok_bind, pure_eq_ok]
          · intro _
            exact hbuild.exchange.trans (released_exchange hrel)
        | some image =>
          refine ⟨some image, loaded, rfl, by simp, ?_⟩
          intro found hf
          obtain ⟨hpagetable, hsz⟩ := himage found hf
          rw [hpagetable, hsz]
          exact hbuild

end Xv6.ExecOwnership
