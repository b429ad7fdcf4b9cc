import Xv6.Proc.ExecCall

/-!
# The contents of a new address space

`exec` builds an address space page by page and then frees the old one.  Here its
contents are read through its page table, as bytes at virtual addresses: what a store
into one page changes, what the allocation of the stack leaves alone, and that the
commit keeps every byte.
-/

namespace Xv6.ExecContents

open LittleEndian Riscv Kalloc PageTable PageMap Mapping UserMemory Ownership AddressSpace List
open Option ProcMemory Exec ExecOwnership ExecCall Supply Outcome

variable {va size : ℕ} {segments : Memory} {file : ProgramFile}

/-- The byte at a virtual address, whoever may access it. -/
def byteOfSpace (memory : Memory) (pagetable va : ℕ) : Option Byte :=
  (lookup memory pagetable va).map fun pte => byteAt (memory.page (PTE2PA pte)) (va % PGSIZE)

section
variable {start memory after : Memory}
variable {trampoline pagetable trapframe sz : ℕ}

theorem lookup_page (memory : Memory) (pagetable va : ℕ) :
    lookup memory pagetable (va / PGSIZE * PGSIZE) = lookup memory pagetable va :=
  lookup_round memory pagetable va

theorem storeBytes_page (memory : Memory) (pa offset : ℕ) (bytes : List Byte) :
    (storeBytes memory pa offset bytes).page pa = overwrite (memory.page pa) offset bytes :=
  Function.update_self pa _ _

theorem byteOfSpace_store (hbuild : Building start memory trampoline pagetable trapframe sz)
    {page offset : ℕ} {pte : Pte} {bytes : List Byte} (hpage : page < userPages)
    (hsome : lookup memory pagetable (page * PGSIZE) = some pte)
    (hfits : offset + bytes.length ≤ PGSIZE) (hva : va / PGSIZE < userPages) :
    byteOfSpace (storeBytes memory (PTE2PA pte) offset bytes) pagetable va =
      if page * PGSIZE + offset ≤ va ∧ va < page * PGSIZE + offset + bytes.length then
        some (bytes.getD (va - (page * PGSIZE + offset)) 0)
      else byteOfSpace memory pagetable va := by
  obtain ⟨-, hlook⟩ := hbuild.store (mem_userLeaves hpage hsome)
    (rewritten_storeBytes memory (PTE2PA pte) offset bytes)
  have hsplit := Nat.div_add_mod' va PGSIZE
  have hmod : va % PGSIZE < PGSIZE := Nat.mod_lt va (by decide)
  rw [byteOfSpace, byteOfSpace, hlook]
  by_cases hsame : va / PGSIZE = page
  · rw [hsame] at hsplit
    rw [← lookup_page, hsame, hsome, map_some, map_some, storeBytes_page,
      byteAt_overwrite _ _ hfits]
    by_cases hin : offset ≤ va % PGSIZE ∧ va % PGSIZE < offset + bytes.length
    · rw [if_pos hin, if_pos (by omega)]
      congr 2
      omega
    · rw [if_neg hin, if_neg (by omega)]
  · have hout : ¬(page * PGSIZE + offset ≤ va ∧
        va < page * PGSIZE + offset + bytes.length) := by
      rintro ⟨hlow, hhigh⟩
      apply hsame
      simp only [PGSIZE_eq] at *
      omega
    rw [if_neg hout]
    cases ho : lookup memory pagetable va with
    | none => rw [map_none, map_none]
    | some pte' =>
      rw [← lookup_page] at ho
      have hne : PTE2PA pte' ≠ PTE2PA pte :=
        fun heq => hsame (leaf_inj hbuild.sound hva hpage ho hsome heq)
      rw [map_some, map_some, (rewritten_storeBytes memory (PTE2PA pte) offset bytes).frame _ hne]

theorem byteOfSpace_congr (hlook : lookup after pagetable va = lookup memory pagetable va)
    (hpage : ∀ pte, lookup memory pagetable va = some pte →
      after.page (PTE2PA pte) = memory.page (PTE2PA pte)) :
    byteOfSpace after pagetable va = byteOfSpace memory pagetable va := by
  rw [byteOfSpace, byteOfSpace, hlook]
  cases hsome : lookup memory pagetable va with
  | none => rfl
  | some pte => rw [map_some, map_some, hpage pte hsome]

theorem keepsData_byteOfSpace {count : ℕ}
    (hdata : KeepsData memory after pagetable count) (hva : va / PGSIZE < count) :
    byteOfSpace after pagetable va = byteOfSpace memory pagetable va := by
  obtain ⟨hlook, hpage⟩ := hdata _ hva
  rw [lookup_page, lookup_page] at hlook
  apply byteOfSpace_congr hlook
  intro pte hsome
  exact hpage pte (by rw [lookup_page, hsome])

theorem zeroPages_byteOfSpace {first last : ℕ}
    (hzero : ZeroPages memory pagetable first last) (hfst : first ≤ va / PGSIZE)
    (hlast : va / PGSIZE < last) : byteOfSpace memory pagetable va = some 0 := by
  obtain ⟨pa, hsome, hpage⟩ := hzero _ hfst hlast
  rw [byteOfSpace, ← lookup_page, hsome, map_some, hpage]
  simp [byteAt]

/-! ## The two pages of the stack -/

/-- The address space of `segments` with a guard page and a stack page on top of its
`pages` pages. -/
structure StackReady (segments memory : Memory) (pagetable pages : ℕ) : Prop where
  lookups : ∀ va, va / PGSIZE < pages → lookup memory pagetable va = lookup segments pagetable va
  bytes : ∀ va, va / PGSIZE < pages →
    byteOfSpace memory pagetable va = byteOfSpace segments pagetable va
  zero : ∀ va, va / PGSIZE = pages → byteOfSpace memory pagetable va = some 0
  guard : ∃ pa, lookup memory pagetable (pages * PGSIZE) = some (leafPte pa PTE_USER &&& ~~~PTE_U)
  stack : ∃ pa, lookup memory pagetable ((pages + 1) * PGSIZE) = some (leafPte pa PTE_USER)

theorem stack_spec {stacked : Memory} {sz : ℕ}
    (hbuild : Building start segments trampoline pagetable trapframe size)
    (huser : AllUser segments pagetable (pageCount size))
    (halloc : uvmalloc segments pagetable (PGROUNDUP size)
      ((PGROUNDUP size + 2 * PGSIZE) % 2 ^ 64) = .ok (sz, stacked)) (hsz : sz ≠ 0)
    (hclear : uvmclear stacked pagetable (sz - 2 * PGSIZE) = .ok memory) :
    sz = (pageCount size + 2) * PGSIZE ∧ Building start memory trampoline pagetable trapframe sz ∧
      StackReady segments memory pagetable (pageCount size) := by
  have hcount := hbuild.space.filled.count_le hbuild.sound
  have hround := PGROUNDUP_eq hbuild.space.filled.bound
  have hbuild' : Building start segments trampoline pagetable trapframe (PGROUNDUP size) := by
    apply hbuild.resize
    rw [hround, pageCount_mul]
  have huser' : AllUser segments pagetable (pageCount (PGROUNDUP size)) := by
    rw [hround, pageCount_mul]
    exact huser
  obtain ⟨sz', stacked', halloc', -, hmore⟩ :=
    hbuild'.uvmalloc huser' ((PGROUNDUP size + 2 * PGSIZE) % 2 ^ 64)
  rw [halloc, Except.ok.injEq, Prod.mk.injEq] at halloc'
  obtain ⟨rfl, rfl⟩ := halloc'
  obtain ⟨hmax, hbuilt, -, hgrows, hdata, hzeros⟩ := hmore hsz
  have hsize : sz = (pageCount size + 2) * PGSIZE := by
    rw [hmax, hround]
    simp only [PGSIZE_eq, PHYSTOP_eq] at *
    omega
  have hguard : sz - 2 * PGSIZE = pageCount size * PGSIZE := by
    rw [hsize, Nat.add_mul, Nat.add_sub_cancel]
  have hpages : pageCount sz = pageCount size + 2 := by rw [hsize, pageCount_mul]
  rw [hround, pageCount_mul, hpages] at hgrows hzeros
  rw [hround, pageCount_mul] at hdata
  obtain ⟨pa, hsome⟩ := hgrows.1 (pageCount size) (le_refl _) (by omega)
  obtain ⟨pa', hsome'⟩ := hgrows.1 (pageCount size + 1) (by omega) (by omega)
  obtain ⟨cleared, hclear', hcons, hhigh, hfill, hlook, hframe⟩ :=
    uvmclear_spec hbuilt.sound hbuilt.space.filled (by omega) hsome
  rw [hguard, hclear', Except.ok.injEq] at hclear
  subst hclear
  have hbound := hbuilt.space.filled.bound
  rw [hpages] at hbound
  -- A page of the space keeps its contents: only a page of the table was written.
  have hbytes : ∀ va, va / PGSIZE < pageCount size + 2 → va / PGSIZE ≠ pageCount size →
      byteOfSpace cleared pagetable va = byteOfSpace stacked pagetable va := by
    intro va hva hne
    apply byteOfSpace_congr
    · rw [hlook, if_neg hne]
    · intro pte hpte
      apply hframe
      rw [← lookup_page] at hpte
      exact (leaf_outside hbuilt.sound (by omega) hpte).1
  refine ⟨hsize, hbuilt.step hcons hhigh hfill, ?_, ?_, ?_, ⟨pa, ?_⟩, pa', ?_⟩
  · intro va hva
    rw [hlook, if_neg (by omega), hgrows.2 va (by omega)]
  · intro va hva
    rw [hbytes va (by omega) (by omega), keepsData_byteOfSpace hdata hva]
  · intro va hva
    have hzero := zeroPages_byteOfSpace hzeros (le_of_eq hva.symm) (by omega)
    rw [byteOfSpace, ← lookup_page, hva, hsome, map_some] at hzero
    rw [byteOfSpace, hlook, if_pos hva, map_some, PTE2PA_clear_U, hframe]
    · exact hzero
    · exact (leaf_outside hbuilt.sound (by omega) hsome).1
  · rw [hlook, page_mul_div, if_pos rfl]
  · rw [hlook, page_mul_div, if_neg (by omega), hsome']

/-! ## `exec` before it pushes the arguments -/

/-- `exec` has loaded the file into a new address space of size `sz` and allocated the
stack: the file is loadable and there was memory enough. -/
def Prepared (start : Memory) (trampoline trapframe : ℕ) (file : ProgramFile)
    (pagetable sz : ℕ) (memory : Memory) : Prop :=
  ∃ created size segments stacked, (file.read 0 sizeofElf).length = sizeofElf ∧
    (elfHeader (file.read 0 sizeofElf)).magic = ELF_MAGIC ∧
    procPagetable start trampoline trapframe = .ok (some pagetable, created) ∧
    loadSegments file pagetable (elfHeader (file.read 0 sizeofElf)).phnum created
      (elfHeader (file.read 0 sizeofElf)).phoff 0 = .ok (true, size, segments) ∧
    uvmalloc segments pagetable (PGROUNDUP size)
      ((PGROUNDUP size + 2 * PGSIZE) % 2 ^ 64) = .ok (sz, stacked) ∧
    sz ≠ 0 ∧ uvmclear stacked pagetable (sz - 2 * PGSIZE) = .ok memory

theorem Prepared.execImage_eq
    (hprepared : Prepared start trampoline trapframe file pagetable sz memory)
    (argv : List (List Byte)) :
    execImage start trampoline trapframe (some file) argv =
      match pushArguments memory pagetable sz argv with
      | (none, memory) => (procFreepagetable memory pagetable sz).map fun memory => (none, memory)
      | (some (sp, argc), memory) =>
        .ok (some ⟨pagetable, sz, sp, argc,
          (elfHeader (file.read 0 sizeofElf)).entry⟩, memory) := by
  obtain ⟨created, size, segments, stacked, hlen, hmagic, hcreate, hload, halloc, hsz,
    hclear⟩ := hprepared
  rw [execImage]
  dsimp only
  rw [if_neg (not_not.mpr hlen), if_neg (not_not.mpr hmagic), hcreate, ok_bind]
  simp only [loadImage, hload, ok_bind, halloc, hclear, if_neg hsz, Bool.true_eq_false, if_false]
  cases pushArguments memory pagetable sz argv with
  | mk pushed memory =>
    cases pushed with
    | none =>
      simp only [pure_eq_ok, ok_bind]
      cases procFreepagetable memory pagetable sz with
      | error panic => rfl
      | ok memory => rfl
    | some found => rfl

theorem prepared_of_execImage {file : Option ProgramFile} {argv : List (List Byte)} {image : Image}
    (himage : execImage start trampoline trapframe file argv = .ok (some image, after)) :
    ∃ program memory, file = some program ∧
      Prepared start trampoline trapframe program image.pagetable image.sz memory ∧
      pushArguments memory image.pagetable image.sz argv =
        (some (image.sp, image.argc), after) := by
  cases file with
  | none => cases himage
  | some file =>
    rw [execImage] at himage
    dsimp only at himage
    by_cases hlen : (file.read 0 sizeofElf).length = sizeofElf
    swap
    · rw [if_pos hlen] at himage
      cases himage
    rw [if_neg (not_not.mpr hlen)] at himage
    by_cases hmagic : (elfHeader (file.read 0 sizeofElf)).magic = ELF_MAGIC
    swap
    · rw [if_pos hmagic] at himage
      cases himage
    rw [if_neg (not_not.mpr hmagic)] at himage
    cases hcreate : procPagetable start trampoline trapframe with
    | error panic =>
      rw [hcreate] at himage
      cases himage
    | ok result =>
    obtain ⟨_ | pagetable, created⟩ := result
    · rw [hcreate] at himage
      cases himage
    rw [hcreate, ok_bind] at himage
    dsimp only [loadImage] at himage
    cases hload : loadSegments file pagetable (elfHeader (file.read 0 sizeofElf)).phnum created
        (elfHeader (file.read 0 sizeofElf)).phoff 0 with
    | error panic =>
      rw [hload] at himage
      cases himage
    | ok result =>
    obtain ⟨loaded, size, segments⟩ := result
    rw [hload] at himage
    cases loaded with
    | false =>
      simp only [ok_bind, if_true, pure_eq_ok] at himage
      cases hfree : procFreepagetable segments pagetable size with
      | error panic | ok memory =>
        rw [hfree] at himage
        cases himage
    | true =>
    simp only [ok_bind, Bool.true_eq_false, if_false] at himage
    cases halloc : uvmalloc segments pagetable (PGROUNDUP size)
        ((PGROUNDUP size + 2 * PGSIZE) % 2 ^ 64) with
    | error panic =>
      rw [halloc] at himage
      cases himage
    | ok result =>
    obtain ⟨sz, stacked⟩ := result
    rw [halloc] at himage
    simp only [ok_bind] at himage
    by_cases hsz : sz = 0
    · rw [if_pos hsz] at himage
      simp only [pure_eq_ok, ok_bind] at himage
      cases hfree : procFreepagetable stacked pagetable (PGROUNDUP size) with
      | error panic | ok memory =>
        rw [hfree] at himage
        cases himage
    rw [if_neg hsz] at himage
    cases hclear : uvmclear stacked pagetable (sz - 2 * PGSIZE) with
    | error panic =>
      rw [hclear] at himage
      cases himage
    | ok memory =>
    rw [hclear] at himage
    simp only [ok_bind] at himage
    cases hpush : pushArguments memory pagetable sz argv with
    | mk pushed pushedMemory =>
    rw [hpush] at himage
    cases pushed with
    | none =>
      simp only [pure_eq_ok, ok_bind] at himage
      cases hfree : procFreepagetable pushedMemory pagetable sz with
      | error panic | ok memory =>
        rw [hfree] at himage
        cases himage
    | some found =>
      cases himage
      exact ⟨file, memory, rfl, ⟨created, size, segments, stacked, hlen, hmagic,
        hcreate, hload, halloc, hsz, hclear⟩, hpush⟩

theorem procPagetable_building (hfree : FreeSound start)
    (hcreate : procPagetable start trampoline trapframe = .ok (some pagetable, memory)) :
    Building start memory trampoline pagetable trapframe 0 ∧
      AllUser memory pagetable (pageCount 0) := by
  obtain ⟨result, created, hcreate', -, hsome⟩ := procPagetable_spec hfree trampoline trapframe
  rw [hcreate, Except.ok.injEq, Prod.mk.injEq] at hcreate'
  obtain ⟨rfl, rfl⟩ := hcreate'
  obtain ⟨hexch, hsound, hspace⟩ := hsome pagetable rfl
  exact ⟨⟨hexch, hsound, hspace⟩, fun page hpage => absurd hpage (Nat.not_lt_zero page)⟩

theorem Prepared.stack (hfree : FreeSound start) (hkernel : 0 < start.kernelEnd)
    (hprepared : Prepared start trampoline trapframe file pagetable sz memory) :
    Building start memory trampoline pagetable trapframe sz ∧
      ∃ pages pa, sz = (pages + 2) * PGSIZE ∧
        lookup memory pagetable ((pages + 1) * PGSIZE) = some (leafPte pa PTE_USER) := by
  obtain ⟨created, size, segments, stacked, -, -, hcreate, hload, halloc, hsz, hclear⟩ := hprepared
  obtain ⟨hbuild, huser⟩ := procPagetable_building hfree hcreate
  obtain ⟨loaded, size', segments', hload', hbuilt, hfull⟩ :=
    loadSegments_spec file hkernel _ _ hbuild huser
  rw [hload, Except.ok.injEq, Prod.mk.injEq, Prod.mk.injEq] at hload'
  obtain ⟨rfl, rfl, rfl⟩ := hload'
  obtain ⟨hsize, hready, hstack⟩ := stack_spec hbuilt (hfull rfl) halloc hsz hclear
  obtain ⟨pa, hsome⟩ := hstack.stack
  exact ⟨hready, _, pa, hsize, hsome⟩

theorem prepared_of_loaded {created : Memory}
    (hfree : FreeSound start) (hkernel : 0 < start.kernelEnd)
    (hlen : (file.read 0 sizeofElf).length = sizeofElf)
    (hmagic : (elfHeader (file.read 0 sizeofElf)).magic = ELF_MAGIC)
    (hcreate : procPagetable start trampoline trapframe = .ok (some pagetable, created))
    (hload : loadSegments file pagetable (elfHeader (file.read 0 sizeofElf)).phnum created
      (elfHeader (file.read 0 sizeofElf)).phoff 0 = .ok (true, size, segments))
    (hsupply : 6 < segments.freelist.length) :
    ∃ sz memory, Prepared start trampoline trapframe file pagetable sz memory := by
  obtain ⟨hbuild, huser⟩ := procPagetable_building hfree hcreate
  obtain ⟨loaded, size', segments', hload', hbuilt, hfull⟩ :=
    loadSegments_spec file hkernel _ _ hbuild huser
  rw [hload, Except.ok.injEq, Prod.mk.injEq, Prod.mk.injEq] at hload'
  obtain ⟨rfl, rfl, rfl⟩ := hload'
  have hcount := hbuilt.space.filled.count_le hbuilt.sound
  have hround := PGROUNDUP_eq hbuilt.space.filled.bound
  have hnew : (PGROUNDUP size + 2 * PGSIZE) % 2 ^ 64 = (pageCount size + 2) * PGSIZE := by
    rw [hround]
    simp only [PGSIZE_eq, PHYSTOP_eq] at *
    omega
  have hbuild' : Building start segments trampoline pagetable trapframe (PGROUNDUP size) := by
    apply hbuilt.resize
    rw [hround, pageCount_mul]
  have huser' : AllUser segments pagetable (pageCount (PGROUNDUP size)) := by
    rw [hround, pageCount_mul]
    exact hfull rfl
  obtain ⟨stacked, halloc, -⟩ := @uvmalloc_succeeds segments pagetable (PGROUNDUP size)
    ((PGROUNDUP size + 2 * PGSIZE) % 2 ^ 64) 0 hbuild'.sound hbuild'.space.filled
    (by rw [hnew, hround]; exact Nat.mul_le_mul_right PGSIZE (by omega))
    (by rw [hnew, hround, pageCount_mul, pageCount_mul]; omega)
  have hpos : (PGROUNDUP size + 2 * PGSIZE) % 2 ^ 64 ≠ 0 := by
    rw [hnew]
    exact Nat.mul_ne_zero (by omega) (by decide)
  obtain ⟨sz', stacked', halloc', -, hmore⟩ :=
    hbuild'.uvmalloc huser' ((PGROUNDUP size + 2 * PGSIZE) % 2 ^ 64)
  rw [halloc, Except.ok.injEq, Prod.mk.injEq] at halloc'
  obtain ⟨rfl, rfl⟩ := halloc'
  obtain ⟨-, hbuilt', -, hgrows, -⟩ := hmore hpos
  rw [hnew, hround, pageCount_mul, pageCount_mul] at hgrows
  obtain ⟨pa, hsome⟩ := hgrows.1 (pageCount size) (le_refl _) (by omega)
  obtain ⟨cleared, hclear, -⟩ := uvmclear_spec hbuilt'.sound hbuilt'.space.filled
    (by rw [hnew, pageCount_mul]; omega) hsome
  refine ⟨_, cleared, created, size, segments, stacked, hlen, hmagic, hcreate, hload,
    halloc, hpos, ?_⟩
  rw [hnew, Nat.add_mul, Nat.add_sub_cancel]
  exact hclear

/-! ## The commit -/

/-- A call that does not fail has committed to an image, and freeing the old address
space left every byte of the new one in place. -/
theorem exec_committed {s final : State} {path : List Byte} {file : Option ProgramFile}
    {argv : List (List Byte)} {value : ℤ} (hready : Ready s trampoline trapframe)
    (hexec : exec s trampoline trapframe path file argv = .ok (value, final))
    (hvalue : value ≠ -1) :
    ∃ image after, execImage s.memory trampoline trapframe file argv = .ok (some image, after) ∧
      Building s.memory after trampoline image.pagetable trapframe image.sz ∧ value = image.argc ∧
      final.proc = ⟨image.pagetable, image.sz, image.entry, image.sp, image.sp, programName path⟩ ∧
      (∀ va, lookup final.memory image.pagetable va = lookup after image.pagetable va) ∧
      ∀ va, va / PGSIZE < userPages → byteOfSpace final.memory image.pagetable va =
        byteOfSpace after image.pagetable va := by
  obtain ⟨image, after, himage, -, hsome⟩ := execImage_spec
    (freeSound_of_sound hready.sound) hready.kernel trampoline trapframe file argv
  rw [exec_eq hready.unlocked, himage, ok_bind] at hexec
  cases image with
  | none =>
    cases hexec
    exact absurd rfl hvalue
  | some image =>
    have hbuild := hsome image rfl
    obtain ⟨hsound, -⟩ := exchange_keeps_space hbuild.exchange hready.sound
    obtain ⟨freed, hfree, hrel⟩ := procFreepagetable_spec hsound
      (exchange_processSpace hbuild.exchange hready.sound hready.space)
    rw [commit, hfree, ok_bind] at hexec
    cases hexec
    -- The old address space holds no page of the new one.
    have hkept : ∀ pa ∈ spacePages after image.pagetable, freed.page pa = after.page pa := by
      intro pa hpa
      apply hrel.frame
      have hdist := hready.sound.distinct
      rw [zero_add, ← exchange_holdings hbuild.exchange hready.sound] at hdist
      exact Multiset.disjoint_left.mp (Multiset.nodup_add.mp hdist).2.2 hpa
    have hlook : ∀ va, lookup freed image.pagetable va = lookup after image.pagetable va := by
      apply lookup_congr
      intro table htable
      exact hkept table (Multiset.mem_add.mpr (Or.inl htable))
    refine ⟨image, after, himage, hbuild, rfl, rfl, hlook, ?_⟩
    intro va hva
    apply byteOfSpace_congr (hlook va)
    intro pte hpte
    rw [← lookup_page] at hpte
    exact hkept _ (Multiset.mem_add.mpr (Or.inr (mem_userLeaves hva hpte)))

end

/-! ## Files and a machine with room -/

/-- A file with the given bytes, as `readi` returns them. -/
def contentFile (content : List Byte) : ProgramFile where
  read off n :=
    if content.length < off ∨ (off + n) % 2 ^ 32 < off then []
    else (content.drop off).take n
  length_le off n := by
    split
    · exact Nat.zero_le n
    · exact length_take_le n _

def roomyMemory : Memory where
  kernelEnd := KERNBASE
  page := fun _ _ => 0
  freelist := (List.range 32).map fun index => KERNBASE + (index + 1) * PGSIZE

theorem freeSound_roomyMemory : FreeSound roomyMemory := by
  refine ⟨by decide, ?_⟩
  intro pa hpa
  obtain ⟨index, hi, rfl⟩ := mem_map.mp hpa
  rw [mem_range] at hi
  simp only [Managed, roomyMemory, KERNBASE, PGSIZE_eq, PHYSTOP_eq]
  omega

theorem exists_ready_roomy : ∃ s : State, Ready s KERNBASE (KERNBASE + 0x40000) ∧
    27 ≤ s.memory.freelist.length := by
  have hlen : roomyMemory.freelist.length = 32 := by decide
  obtain ⟨pagetable, after, hcreate, hsupply⟩ := procPagetable_succeeds
    freeSound_roomyMemory (by omega) KERNBASE (KERNBASE + 0x40000)
  obtain ⟨hbuild, -⟩ := procPagetable_building freeSound_roomyMemory hcreate
  refine ⟨⟨after, ⟨pagetable, 0, 0, 0, 0, []⟩, 0, 0, false⟩, ⟨?_, hbuild.sound,
    hbuild.space, rfl⟩, ?_⟩
  · rw [hbuild.exchange.kernelEnd]
    decide
  · dsimp only
    omega

end Xv6.ExecContents
