import Xv6.Proc.ExecStack

/-!
# The image of a new program

What the LOAD headers of a file describe is a function from addresses to bytes, into which
the segments are placed one after the other.  `exec` builds it in memory: `uvmalloc` adds
pages of zeros, `loadseg` copies page by page.  Its parameter `offset` is a `uint`, and so is
the offset at which `exec` reads a header, while the offsets in the file have 64 bits.
-/

namespace Xv6.ExecLoad

open LittleEndian Riscv Kalloc PageTable UserMemory Ownership AddressSpace Exec ExecOwnership BitVec
open List ExecCall Supply ExecContents ExecStack Outcome

variable {headers : List ProgHeader} {va off size : ℕ} {ph : ProgHeader} {content : List Byte}
  {image : ℕ → Byte}

/-! ## The image that the headers describe -/

/-- The program headers that `exec` reads from an offset on. -/
def programHeaders (file : ProgramFile) : ℕ → ℕ → List ProgHeader
  | 0, _ => []
  | count + 1, off =>
    progHeader (file.read (off % 2 ^ 32) sizeofPh) :: programHeaders file count (off + sizeofPh)

def loads (headers : List ProgHeader) : List ProgHeader :=
  headers.filter fun ph => decide (ph.type = ELF_PROG_LOAD)

def loadHeaders (file : ProgramFile) : List ProgHeader :=
  loads (programHeaders file (elfHeader (file.read 0 sizeofElf)).phnum
    (elfHeader (file.read 0 sizeofElf)).phoff)

/-- The program headers that the file has from an offset on. -/
def describedHeaders (content : List Byte) : ℕ → ℕ → List ProgHeader
  | 0, _ => []
  | count + 1, off =>
    progHeader ((content.drop off).take sizeofPh) ::
      describedHeaders content count (off + sizeofPh)

/-- The LOAD headers of the table at the 64-bit offset `phoff`. -/
def describedLoads (content : List Byte) : List ProgHeader :=
  loads (describedHeaders content (elfHeader (content.take sizeofElf)).phnum
    (elfHeader (content.take sizeofElf)).phoff)

/-- The addresses of a segment that have bytes in the file. -/
def InFile (ph : ProgHeader) (va : ℕ) : Prop := ph.vaddr ≤ va ∧ va < ph.vaddr + ph.filesz

instance (ph : ProgHeader) (va : ℕ) : Decidable (InFile ph va) :=
  inferInstanceAs (Decidable (_ ∧ _))

def InSegment (ph : ProgHeader) (va : ℕ) : Prop := ph.vaddr ≤ va ∧ va < ph.vaddr + ph.memsz

def DisjointSegments (headers : List ProgHeader) : Prop :=
  headers.Pairwise fun first second => ∀ va, ¬(InSegment first va ∧ InSegment second va)

/-- `loadseg` of one segment: its offset is cut to 32 bits. -/
def place (content : List Byte) (image : ℕ → Byte) (ph : ProgHeader) : ℕ → Byte := fun va =>
  if InFile ph va then content.getD (ph.off % 2 ^ 32 + (va - ph.vaddr)) 0 else image va

theorem foldl_place_outside (content : List Byte)
    (hout : ∀ ph ∈ headers, ¬InFile ph va) (image : ℕ → Byte) :
    headers.foldl (place content) image va = image va := by
  induction headers generalizing image with
  | nil => rfl
  | cons head rest ih =>
    rw [foldl_cons, ih fun ph hph => hout ph (mem_cons_of_mem _ hph), place,
      if_neg (hout head mem_cons_self)]

theorem foldl_place_inside (content : List Byte) (hdisjoint : DisjointSegments headers)
    (hsizes : ∀ ph ∈ headers, ph.filesz ≤ ph.memsz) (hph : ph ∈ headers)
    (hva : InFile ph va) (image : ℕ → Byte) : headers.foldl (place content) image va =
      content.getD (ph.off % 2 ^ 32 + (va - ph.vaddr)) 0 := by
  have hsegment : ∀ other ∈ headers, InFile other va → InSegment other va := by
    intro other ho hin
    have hsize := hsizes other ho
    exact ⟨hin.1, by have := hin.2; omega⟩
  induction headers generalizing image with
  | nil => cases hph
  | cons head rest ih =>
    obtain ⟨hhead, hrest⟩ := pairwise_cons.mp hdisjoint
    rw [foldl_cons]
    rcases mem_cons.mp hph with rfl | hmem
    · rw [foldl_place_outside content _ _, place, if_pos hva]
      intro other ho hin
      exact hhead other ho va ⟨hsegment ph hph hva, hsegment other (mem_cons_of_mem _ ho) hin⟩
    · exact ih hrest (fun other ho => hsizes other (mem_cons_of_mem _ ho))
        hmem _ fun other ho => hsegment other (mem_cons_of_mem _ ho)

/-! ## `loadseg` -/

theorem read_full {content : List Byte} {off n : ℕ} (hn : 0 < n) (hoff : off < 2 ^ 32)
    (hsize : content.length < 2 ^ 32) (hpage : n ≤ PGSIZE) :
    ((contentFile content).read off n).length = n ↔ off + n ≤ content.length := by
  simp only [contentFile, PGSIZE_eq] at *
  split
  next hreject =>
    rw [length_nil]
    omega
  next haccept =>
    rw [length_take, length_drop]
    omega

theorem read_zero (content : List Byte) (n : ℕ) :
    (contentFile content).read 0 n = content.take n := by
  simp [contentFile]

/-- Where the table of the headers is in the file, `exec` reads the headers it has. -/
theorem programHeaders_eq (hsize : content.length < 2 ^ 32) (count : ℕ)
    (htable : ∀ index < count, off + sizeofPh * (index + 1) ≤ content.length) :
    programHeaders (contentFile content) count off = describedHeaders content count off := by
  induction count generalizing off with
  | zero => rfl
  | succ count ih =>
    have hfst := htable 0 (Nat.succ_pos count)
    have haccept : ¬(content.length < off ∨ (off + sizeofPh) % 2 ^ 32 < off) := by omega
    have hrest := @ih (off + sizeofPh) fun index hi => by
      have hnext := htable (index + 1) (Nat.succ_lt_succ hi)
      rw [Nat.mul_add_one] at hnext
      omega
    rw [programHeaders, describedHeaders, Nat.mod_eq_of_lt (by omega), hrest]
    simp only [contentFile, if_neg haccept]

theorem read_getD {n index : ℕ} (hi : index < n)
    (hfull : off + n ≤ content.length) (hsize : content.length < 2 ^ 32) :
    ((contentFile content).read off n).getD index 0 = content.getD (off + index) 0 := by
  have haccept : ¬(content.length < off ∨ (off + n) % 2 ^ 32 < off) := by omega
  simp only [contentFile, if_neg haccept, getD_eq_getElem?_getD,
    List.getElem?_take_of_lt hi, List.getElem?_drop]

section
variable {start memory after : Memory}
variable {trampoline pagetable trapframe sz : ℕ} {content : List Byte}

/-- The loop of `loadseg` copies all that is left of the segment, or stops where the file
ends. -/
theorem loadsegLoop_data {offset : ℕ} (hsize : content.length < 2 ^ 32)
    (hkernel : 0 < start.kernelEnd) (halign : va % PGSIZE = 0)
    (hfits : va + size ≤ sz) (count : ℕ) {i : ℕ} (hi : i % PGSIZE = 0)
    (hbuild : Building start memory trampoline pagetable trapframe sz)
    (huser : AllUser memory pagetable (pageCount sz))
    (hcount : ∀ step < count, i + step * PGSIZE < size)
    (hlast : size ≤ i + count * PGSIZE) (hoffset : i < size → offset + i < 2 ^ 32) :
    ∃ loaded after, loadsegLoop (contentFile content) pagetable va offset size count memory i =
        .ok (loaded, after) ∧
      (loaded = true ↔ (i < size → offset + size ≤ content.length)) ∧
      (loaded = true → after.freelist = memory.freelist ∧
        ∀ addr, addr / PGSIZE < userPages → byteOfSpace after pagetable addr =
          if va + i ≤ addr ∧ addr < va + size then
            some (content.getD (offset + (addr - va)) 0)
          else byteOfSpace memory pagetable addr) := by
  induction count generalizing memory i with
  | zero =>
    refine ⟨true, memory, rfl, ⟨fun _ hlt => by omega, fun _ => rfl⟩, fun _ => ⟨rfl, ?_⟩⟩
    intro addr _
    rw [if_neg (by omega)]
  | succ count ih =>
    have hin : i < size := by simpa using hcount 0 (Nat.succ_pos count)
    have hbound := hbuild.space.filled.bound
    have hpage : (va + i) / PGSIZE < pageCount sz := by
      simp only [pageCount, PGSIZE_eq] at *
      omega
    have hround : (va + i) % 2 ^ 64 = (va + i) / PGSIZE * PGSIZE := by
      rw [userPages_eq] at hbound
      simp only [pageCount, PGSIZE_eq] at *
      omega
    have hend : 0 < memory.kernelEnd := by
      rw [hbuild.exchange.kernelEnd]
      exact hkernel
    obtain ⟨pa, hsome⟩ := huser _ hpage
    have hlt : (va + i) / PGSIZE < userPages := lt_of_lt_of_le hpage hbound
    have hwalk := walkaddr_user hend hbuild.sound hlt hsome
    have hoff : (offset + i) % 2 ^ 32 = offset + i := Nat.mod_eq_of_lt (hoffset hin)
    rw [loadsegLoop, hround, hwalk, hoff]
    dsimp only
    obtain ⟨n, hn⟩ : ∃ n, n = if size - i < PGSIZE then size - i else PGSIZE := ⟨_, rfl⟩
    rw [← hn]
    have hpiece : n = PGSIZE ∧ i + PGSIZE ≤ size ∨ n < PGSIZE ∧ i + n = size := by
      split at hn <;> omega
    have hpos : 0 < n := by
      have hpage : 0 < PGSIZE := by decide
      omega
    have hle : n ≤ PGSIZE := by omega
    have hread := read_full hpos (hoffset hin) hsize hle
    obtain ⟨hbuild', hlook⟩ := hbuild.store (hbuild.walkaddr_mem hwalk)
      (rewritten_storeBytes memory (PTE2PA (leafPte pa PTE_USER)) 0
        ((contentFile content).read (offset + i) n))
    have huser' := huser.congr hlook
    by_cases hfull : ((contentFile content).read (offset + i) n).length = n
    swap
    · -- The file ends within this page.
      rw [if_pos hfull]
      rw [hread] at hfull
      refine ⟨false, _, rfl, ⟨fun h => absurd h (by simp), fun hall => ?_⟩, by simp⟩
      have hall' := hall hin
      omega
    rw [if_neg (not_not.mpr hfull)]
    have hcontent := hread.mp hfull
    obtain ⟨loaded, after, hloop, hiff, hdata⟩ := @ih _ (i + PGSIZE)
      (by simp only [PGSIZE_eq] at *; omega) hbuild' huser'
      (by
        intro step hstep
        have hlater := hcount (step + 1) (by omega)
        simp only [PGSIZE_eq] at *
        omega)
      (by rw [Nat.add_mul, one_mul] at hlast; omega)
      (by omega)
    refine ⟨loaded, after, hloop, ?_, ?_⟩
    · rw [hiff]
      constructor
      · intro hrest _
        by_cases hnext : i + PGSIZE < size
        · exact hrest hnext
        · omega
      · exact fun hall _ => hall hin
    · intro hloaded
      obtain ⟨hlist, hbytes⟩ := hdata hloaded
      refine ⟨hlist, fun addr haddr => ?_⟩
      have hbase : (va + i) / PGSIZE * PGSIZE = va + i := by
        simp only [PGSIZE_eq] at *
        omega
      have hstore := byteOfSpace_store hbuild hlt hsome
        (show 0 + ((contentFile content).read (offset + i) n).length ≤ PGSIZE by
          rw [hfull, Nat.zero_add]; exact hle) haddr
      rw [hfull, hbase, Nat.add_zero] at hstore
      rw [hbytes addr haddr, hstore]
      by_cases hlater : va + (i + PGSIZE) ≤ addr ∧ addr < va + size
      · rw [if_pos hlater, if_pos (by omega)]
      · rw [if_neg hlater]
        by_cases hhere : va + i ≤ addr ∧ addr < va + i + n
        · rw [if_pos hhere, if_pos (by omega), read_getD (by omega) hcontent hsize]
          congr 2
          omega
        · rw [if_neg hhere, if_neg (by omega)]

/-- `loadseg` succeeds exactly when the file has the bytes at the offset cut to 32 bits,
and copies those. -/
theorem loadseg_data {va size : ℕ} (offset : ℕ) (hsize : content.length < 2 ^ 32)
    (hkernel : 0 < start.kernelEnd) (halign : va % PGSIZE = 0)
    (hfits : va + size ≤ sz) (hwidth : size < 2 ^ 32)
    (hbuild : Building start memory trampoline pagetable trapframe sz)
    (huser : AllUser memory pagetable (pageCount sz)) :
    ∃ loaded after,
      loadseg memory (contentFile content) pagetable va offset size = .ok (loaded, after) ∧
      (loaded = true ↔ (0 < size → offset % 2 ^ 32 + size ≤ content.length)) ∧
      (loaded = true → after.freelist = memory.freelist ∧
        ∀ addr, addr / PGSIZE < userPages → byteOfSpace after pagetable addr =
          if va ≤ addr ∧ addr < va + size then
            some (content.getD (offset % 2 ^ 32 + (addr - va)) 0)
          else byteOfSpace memory pagetable addr) := by
  have hmod : offset % 2 ^ 32 < 2 ^ 32 := Nat.mod_lt offset (by norm_num)
  rw [loadseg, Nat.mod_eq_of_lt hwidth]
  apply loadsegLoop_data hsize hkernel halign hfits _ (Nat.zero_mod _) hbuild huser
  · intro step hstep
    simp only [pageSteps, PGSIZE_eq] at *
    omega
  · simp only [pageSteps, PGSIZE_eq]
    omega
  · intro _
    exact hmod

/-! ## The loop over the headers -/

/-- The pages of the address space hold the image, which is zero everywhere else. -/
structure Loaded (memory : Memory) (pagetable sz : ℕ) (image : ℕ → Byte) : Prop where
  bytes : ∀ va, va / PGSIZE < pageCount sz → byteOfSpace memory pagetable va = some (image va)
  zero : ∀ va, pageCount sz ≤ va / PGSIZE → image va = 0

theorem Loaded.uvmalloc (hloaded : Loaded memory pagetable sz image) (hle : sz ≤ size)
    (hdata : KeepsData memory after pagetable (pageCount sz))
    (hzeros : ZeroPages after pagetable (pageCount sz) (pageCount size)) :
    Loaded after pagetable size image := by
  have hcount : pageCount sz ≤ pageCount size := by
    simp only [pageCount, PGSIZE_eq]
    omega
  refine ⟨fun va hva => ?_, fun va hva => hloaded.zero va (hcount.trans hva)⟩
  by_cases hold : va / PGSIZE < pageCount sz
  · rw [keepsData_byteOfSpace hdata hold, hloaded.bytes va hold]
  · rw [zeroPages_byteOfSpace hzeros (not_lt.mp hold) hva, hloaded.zero va (not_lt.mp hold)]

theorem Loaded.place
    (hloaded : Loaded memory pagetable sz image) (hbound : pageCount sz ≤ userPages)
    (hfits : ph.vaddr + ph.filesz ≤ sz)
    (hbytes : ∀ addr, addr / PGSIZE < userPages → byteOfSpace after pagetable addr =
      if ph.vaddr ≤ addr ∧ addr < ph.vaddr + ph.filesz then
        some (content.getD (ph.off % 2 ^ 32 + (addr - ph.vaddr)) 0)
      else byteOfSpace memory pagetable addr) :
    Loaded after pagetable sz (place content image ph) := by
  refine ⟨fun va hva => ?_, fun va hva => ?_⟩
  · rw [hbytes va (lt_of_lt_of_le hva hbound), ExecLoad.place, hloaded.bytes va hva]
    by_cases hin : ph.vaddr ≤ va ∧ va < ph.vaddr + ph.filesz
    · rw [if_pos hin, if_pos (show InFile ph va from hin)]
    · rw [if_neg hin, if_neg (show ¬InFile ph va from hin)]
  · have hout : ¬InFile ph va := by
      simp only [InFile, pageCount, PGSIZE_eq] at *
      omega
    rw [ExecLoad.place, if_neg hout, hloaded.zero va hva]

/-- What the loop over the headers has checked of a LOAD header when it goes on. -/
structure Checked (content : List Byte) (sz : ℕ) (ph : ProgHeader) : Prop where
  sizes : ph.filesz ≤ ph.memsz
  inside : ph.vaddr + ph.memsz ≤ sz
  present : 0 < ph.filesz → ph.off % 2 ^ 32 + ph.filesz ≤ content.length

theorem loads_cons_pos (headers : List ProgHeader)
    (htype : ph.type = ELF_PROG_LOAD) : loads (ph :: headers) = ph :: loads headers :=
  filter_cons_of_pos (by simpa using htype)

theorem loads_cons_neg (headers : List ProgHeader)
    (htype : ph.type ≠ ELF_PROG_LOAD) : loads (ph :: headers) = loads headers :=
  filter_cons_of_neg (by simpa using htype)

theorem loadSegments_data (hsize : content.length < 2 ^ 32)
    (hkernel : 0 < start.kernelEnd) (count off : ℕ)
    (hbuild : Building start memory trampoline pagetable trapframe sz)
    (huser : AllUser memory pagetable (pageCount sz)) (hloaded : Loaded memory pagetable sz image)
    (hload : loadSegments (contentFile content) pagetable count memory off sz =
      .ok (true, size, after)) :
    sz ≤ size ∧ Loaded after pagetable size ((loads (programHeaders (contentFile content) count
        off)).foldl (ExecLoad.place content) image) ∧
      (∀ ph ∈ loads (programHeaders (contentFile content) count off), Checked content size ph) ∧
      ∀ index < count, (off + sizeofPh * index) % 2 ^ 32 + sizeofPh ≤ content.length := by
  induction count generalizing memory off sz image with
  | zero =>
    cases hload
    exact ⟨le_refl _, hloaded, by simp [programHeaders, loads], by simp⟩
  | succ count ih =>
    rw [loadSegments] at hload
    rw [programHeaders]
    dsimp only at hload
    have hfull := @read_full content (off % 2 ^ 32) sizeofPh (by decide)
      (Nat.mod_lt _ (by decide)) hsize (by decide)
    generalize (contentFile content).read (off % 2 ^ 32) sizeofPh = bytes at hload hfull ⊢
    have hvaddr : (progHeader bytes).vaddr < 2 ^ 64 := field_lt bytes 16 8
    have hmemsz : (progHeader bytes).memsz < 2 ^ 64 := field_lt bytes 40 8
    generalize progHeader bytes = ph at hload hvaddr hmemsz ⊢
    by_cases hread : bytes.length ≠ sizeofPh
    · rw [if_pos hread] at hload
      cases hload
    rw [if_neg hread] at hload
    -- the headers behind this one are those from the next offset on
    have hreads : (∀ index < count,
          (off + sizeofPh + sizeofPh * index) % 2 ^ 32 + sizeofPh ≤ content.length) →
        ∀ index < count + 1, (off + sizeofPh * index) % 2 ^ 32 + sizeofPh ≤ content.length := by
      intro hrest index hi
      cases index with
      | zero => exact hfull.mp (not_not.mp hread)
      | succ index =>
        rw [Nat.mul_add_one, Nat.add_comm (sizeofPh * index), ← Nat.add_assoc]
        exact hrest index (Nat.lt_of_succ_lt_succ hi)
    by_cases htype : ph.type ≠ ELF_PROG_LOAD
    · rw [if_pos htype] at hload
      rw [loads_cons_neg _ htype]
      obtain ⟨hle, hfinal, hchecked, hrest⟩ := ih _ hbuild huser hloaded hload
      exact ⟨hle, hfinal, hchecked, hreads hrest⟩
    rw [if_neg htype] at hload
    by_cases hsizes : ph.memsz < ph.filesz
    · rw [if_pos hsizes] at hload
      cases hload
    rw [if_neg hsizes] at hload
    by_cases hwrap : (ph.vaddr + ph.memsz) % 2 ^ 64 < ph.vaddr
    · rw [if_pos hwrap] at hload
      cases hload
    rw [if_neg hwrap] at hload
    rw [loads_cons_pos _ (not_not.mp htype), foldl_cons]
    obtain ⟨sz1, grown, halloc, -, hmore⟩ := hbuild.uvmalloc huser ((ph.vaddr + ph.memsz) % 2 ^ 64)
    rw [halloc, ok_bind] at hload
    dsimp only at hload
    by_cases hfailed : sz1 = 0
    · rw [if_pos hfailed] at hload
      cases hload
    rw [if_neg hfailed] at hload
    obtain ⟨hmax, hbuild', huser', -, hdata, hzeros⟩ := hmore hfailed
    by_cases halign : ph.vaddr % PGSIZE ≠ 0
    · rw [if_pos halign] at hload
      cases hload
    rw [if_neg halign] at hload
    have hcount := hbuild'.space.filled.count_le hbuild'.sound
    have hsum : (ph.vaddr + ph.memsz) % 2 ^ 64 = ph.vaddr + ph.memsz := by omega
    have hfits : ph.vaddr + ph.filesz ≤ sz1 := by omega
    have hwidth : ph.filesz < 2 ^ 32 := by
      simp only [pageCount, PGSIZE_eq, PHYSTOP_eq] at hcount
      omega
    obtain ⟨loaded, filled, hseg, hiff, hbytes⟩ := loadseg_data ph.off hsize hkernel
      (by simpa using halign) hfits hwidth hbuild' huser'
    obtain ⟨loaded', filled', hseg', hbuild'', huser''⟩ := loadseg_spec
      (contentFile content) ph.off hkernel (by simpa using halign) hfits hbuild' huser'
    rw [hseg, Except.ok.injEq, Prod.mk.injEq] at hseg'
    obtain ⟨rfl, rfl⟩ := hseg'
    rw [hseg, ok_bind] at hload
    dsimp only at hload
    cases hflag : loaded with
    | false =>
      rw [hflag] at hload
      cases hload
    | true =>
      rw [hflag, if_pos rfl] at hload
      have hgrownImage := hloaded.uvmalloc (by omega) hdata hzeros
      obtain ⟨hle, hfinal, hchecked, hrest⟩ := ih _ hbuild'' huser''
        (hgrownImage.place hbuild'.space.filled.bound hfits (hbytes hflag).2) hload
      refine ⟨by omega, hfinal, ?_, hreads hrest⟩
      intro other ho
      rcases mem_cons.mp ho with rfl | hlater
      · exact ⟨not_lt.mp hsizes, by omega, hiff.mp hflag⟩
      · exact hchecked other hlater

end

/-! ## The committed image -/

/-- The file has the headers it describes, and the address space holds their image. -/
structure ImageCorrect (memory : Memory) (pagetable sz : ℕ) (content : List Byte) : Prop where
  table : ∀ index < (elfHeader (content.take sizeofElf)).phnum,
    (elfHeader (content.take sizeofElf)).phoff + sizeofPh * (index + 1) ≤ content.length
  bytes : ∀ ph ∈ describedLoads content, ∀ index < ph.filesz, ∃ byte,
    content[ph.off + index]? = some byte ∧
      byteOfSpace memory pagetable (ph.vaddr + index) = some byte
  zero : ∀ va < sz - PGSIZE, (∀ ph ∈ describedLoads content, ¬InFile ph va) →
    byteOfSpace memory pagetable va = some 0
  mapped : ∀ va < TRAPFRAME, (lookup memory pagetable va).isSome = true ↔ va < sz
  guard : ∃ pte, lookup memory pagetable (sz - 2 * PGSIZE) = some pte ∧ hasFlag pte PTE_U = false
  trampoline : ∃ pte, lookup memory pagetable TRAMPOLINE = some pte ∧ hasFlag pte PTE_U = false
  trapframe : ∃ pte, lookup memory pagetable TRAPFRAME = some pte ∧ hasFlag pte PTE_U = false

theorem hasFlag_guard (pte : Pte) : hasFlag (pte &&& ~~~PTE_U) PTE_U = false := by
  have hbit : (~~~PTE_U).getLsbD 4 = false := by decide
  rw [hasFlag_PTE_U, getLsbD_and, hbit, Bool.and_false]

theorem filled_mapped {memory : Memory} {pagetable pages : ℕ}
    (hfill : Filled memory pagetable pages) (hva : va < TRAPFRAME) :
    (lookup memory pagetable va).isSome = true ↔ va < pages * PGSIZE := by
  have huser := div_lt_userPages hva
  constructor
  · intro hsome
    by_contra hhigh
    have hnone := hfill.absent (va / PGSIZE) (by simp only [PGSIZE_eq] at *; omega) huser
    rw [lookup_page] at hnone
    rw [hnone] at hsome
    cases hsome
  · intro hlow
    obtain ⟨pte, hsome, -⟩ := hfill.present (va / PGSIZE) (by simp only [PGSIZE_eq] at *; omega)
    rw [lookup_page] at hsome
    rw [hsome]
    rfl

section
variable {s final : State} {trampoline trapframe : ℕ} {content path : List Byte}
variable {argv : List (List Byte)} {value : ℤ}

/-- What a call of `exec` that succeeds leaves: the image placed segment by segment, and
everything about the pages that does not depend on the offsets. -/
theorem exec_image (hready : Ready s trampoline trapframe)
    (hsize : content.length < 2 ^ 32) (hcount : argv.length < MAXARG)
    (hlen : ∀ string ∈ argv, string.length < 2 ^ 31)
    (hexec : exec s trampoline trapframe path (some (contentFile content)) argv =
      .ok (value, final)) (hvalue : value ≠ -1) :
    (∀ va < final.proc.sz - PGSIZE,
      byteOfSpace final.memory final.proc.pagetable va =
        some ((loadHeaders (contentFile content)).foldl (place content) (fun _ => 0) va)) ∧
    (∀ ph ∈ loadHeaders (contentFile content), Checked content (final.proc.sz - 2 * PGSIZE) ph) ∧
    (∀ index < (elfHeader (content.take sizeofElf)).phnum,
      ((elfHeader (content.take sizeofElf)).phoff + sizeofPh * index) % 2 ^ 32 + sizeofPh ≤
        content.length) ∧
    (∀ va < TRAPFRAME, (lookup final.memory final.proc.pagetable va).isSome = true ↔
      va < final.proc.sz) ∧
    (∃ pa, lookup final.memory final.proc.pagetable (final.proc.sz - 2 * PGSIZE) =
      some (leafPte pa PTE_USER &&& ~~~PTE_U)) ∧
    lookup final.memory final.proc.pagetable TRAMPOLINE =
      some (leafPte trampoline (PTE_R ||| PTE_X)) ∧
    lookup final.memory final.proc.pagetable TRAPFRAME =
      some (leafPte trapframe (PTE_R ||| PTE_W)) := by
  have hfree := freeSound_of_sound hready.sound
  obtain ⟨image, after, himage, hbuilt, -, hproc, hlook, hbytes⟩ :=
    exec_committed hready hexec hvalue
  obtain ⟨program, memory, hfile, hprepared, hpush⟩ := prepared_of_execImage himage
  obtain rfl : contentFile content = program := Option.some.inj hfile
  obtain ⟨stack, pa, result, after', hsz, -, -, -, hpush', hwrites, -, -⟩ :=
    Prepared.push hfree hready.kernel hprepared hcount hlen
  rw [hpush, Prod.mk.injEq] at hpush'
  obtain ⟨-, rfl⟩ := hpush'
  obtain ⟨created, size, segments, stacked, -, -, hcreate, hload, halloc, hnonzero,
    hclear⟩ := hprepared
  obtain ⟨hbuild, huser⟩ := procPagetable_building hfree hcreate
  have hnil : Loaded created image.pagetable 0 fun _ => 0 :=
    ⟨fun va hva => absurd hva (Nat.not_lt_zero _), fun _ _ => rfl⟩
  obtain ⟨-, hloaded, hchecked, hreads⟩ :=
    loadSegments_data hsize hready.kernel _ _ hbuild huser hnil hload
  obtain ⟨loaded, size', segments', hload', hbuild', hfull⟩ :=
    loadSegments_spec (contentFile content) hready.kernel _ _ hbuild huser
  rw [hload, Except.ok.injEq, Prod.mk.injEq, Prod.mk.injEq] at hload'
  obtain ⟨rfl, rfl, rfl⟩ := hload'
  obtain ⟨hsize', hready', hstack⟩ := stack_spec hbuild' (hfull rfl) halloc hnonzero hclear
  have hbound := hready'.space.filled.bound
  rw [hsize', pageCount_mul] at hbound
  rw [hproc]
  dsimp only
  have hguardAt : image.sz - 2 * PGSIZE = pageCount size * PGSIZE := by
    rw [hsize', Nat.add_mul, Nat.add_sub_cancel]
  have hstackAt : stack = pageCount size + 1 := by
    rw [hsize'] at hsz
    simp only [PGSIZE_eq] at hsz
    omega
  rw [read_zero] at hreads
  refine ⟨?_, ?_, hreads, ?_, ?_, ?_, ?_⟩
  · intro va hva
    have hpage : va / PGSIZE ≤ pageCount size := by
      rw [hsize'] at hva
      simp only [PGSIZE_eq] at *
      omega
    rw [hbytes va (by omega), hwrites.bytes va (by omega) (by
      rw [hstackAt]
      simp only [PGSIZE_eq] at *
      omega)]
    rcases Nat.lt_or_eq_of_le hpage with hlt | heq
    · rw [hstack.bytes va hlt, hloaded.bytes va hlt]
      rfl
    · have hzero := hloaded.zero va (le_of_eq heq.symm)
      rw [hstack.zero va heq]
      exact congrArg some hzero.symm
  · intro ph hph
    obtain ⟨hsizes, hin, hpres⟩ := hchecked ph hph
    refine ⟨hsizes, hin.trans ?_, hpres⟩
    rw [hguardAt]
    simp only [pageCount, PGSIZE_eq]
    omega
  · intro va hva
    rw [hlook, filled_mapped hbuilt.space.filled hva, hsize', pageCount_mul]
  · obtain ⟨guard, hguard⟩ := hstack.guard
    exact ⟨guard, by rw [hlook, hwrites.lookups, hguardAt, hguard]⟩
  · rw [hlook, hbuilt.space.trampoline]
  · rw [hlook, hbuilt.space.trapframe]

/-- `exec` loads the image that the file describes exactly when the offset of every header,
and of every segment with bytes in the file, has 32 bits. -/
theorem exec_image_correct_iff (hready : Ready s trampoline trapframe)
    (hsize : content.length < 2 ^ 32) (hcount : argv.length < MAXARG)
    (hlength : ∀ string ∈ argv, string.length < 2 ^ 31)
    (hexec : exec s trampoline trapframe path (some (contentFile content)) argv =
      .ok (value, final)) (hvalue : value ≠ -1)
    (hdisjoint : DisjointSegments (describedLoads content)) :
    ImageCorrect final.memory final.proc.pagetable final.proc.sz content ↔
      (∀ index < (elfHeader (content.take sizeofElf)).phnum,
        (elfHeader (content.take sizeofElf)).phoff + sizeofPh * index < 2 ^ 32) ∧
      ∀ ph ∈ describedLoads content, 0 < ph.filesz → ph.off < 2 ^ 32 := by
  obtain ⟨hbytes, hchecked, hreads, hmapped, ⟨pa, hguard⟩, htrampoline, htrapframe⟩ :=
    exec_image hready hsize hcount hlength hexec hvalue
  constructor
  · intro hcorrect
    constructor
    · intro index hindex
      have htable := hcorrect.table index hindex
      rw [Nat.mul_add_one] at htable
      omega
    · intro ph hph hpos
      obtain ⟨byte, hbyte, -⟩ := hcorrect.bytes ph hph 0 hpos
      obtain ⟨hlt, -⟩ := List.getElem?_eq_some_iff.mp hbyte
      omega
  · rintro ⟨hheaders, hoffsets⟩
    have htable : ∀ index < (elfHeader (content.take sizeofElf)).phnum,
        (elfHeader (content.take sizeofElf)).phoff + sizeofPh * (index + 1) ≤ content.length := by
      intro index hindex
      have hread := hreads index hindex
      rw [Nat.mod_eq_of_lt (hheaders index hindex)] at hread
      rw [Nat.mul_add_one]
      omega
    have hsame : loadHeaders (contentFile content) = describedLoads content := by
      rw [loadHeaders, read_zero, programHeaders_eq hsize _ htable, describedLoads]
    rw [hsame] at hbytes hchecked
    refine ⟨htable, ?_, ?_, hmapped, ⟨_, hguard, hasFlag_guard _⟩, ⟨_, htrampoline, ?_⟩, _,
      htrapframe, ?_⟩
    · intro ph hph index hindex
      have hoff := hoffsets ph hph (by omega)
      obtain ⟨hsizes, hinside, hpresent⟩ := hchecked ph hph
      have hlast := hpresent (by omega)
      rw [Nat.mod_eq_of_lt hoff] at hlast
      have hlt : ph.off + index < content.length := by omega
      have hpages : (0 : ℕ) < PGSIZE := by decide
      refine ⟨content[ph.off + index], List.getElem?_eq_getElem hlt, ?_⟩
      rw [hbytes _ (by omega), foldl_place_inside content hdisjoint
        (fun other hother => (hchecked other hother).sizes) hph ⟨by omega, by omega⟩,
        Nat.mod_eq_of_lt hoff, Nat.add_sub_cancel_left, getD_eq_getElem?_getD,
        List.getElem?_eq_getElem hlt]
      rfl
    · intro va hva houtside
      rw [hbytes va hva, foldl_place_outside content houtside]
    · rw [hasFlag_leafPte PTE_U (by decide)]
      decide
    · rw [hasFlag_leafPte PTE_U (by decide)]
      decide

end

/-! ## Three files -/

/-- A file of 120 bytes whose only segment are four bytes for address 0, at the offset
`high * 2^32`. -/
def oneSegment (high : Byte) : List Byte :=
  [0x7f, 0x45, 0x4c, 0x46] ++ List.replicate 28 0 ++ [64] ++ List.replicate 23 0 ++
    [1] ++ List.replicate 7 0 ++
    [1] ++ List.replicate 11 0 ++ [high] ++ List.replicate 19 0 ++
    [4] ++ List.replicate 7 0 ++ [4] ++ List.replicate 15 0

theorem describedLoads_oneSegment {high : Byte} (hhigh : high = 0 ∨ high = 1) :
    describedLoads (oneSegment high) = [⟨1, high.toNat * 2 ^ 32, 0, 4, 4⟩] ∧
      loadHeaders (contentFile (oneSegment high)) = describedLoads (oneSegment high) := by
  rcases hhigh with rfl | rfl
  · decide +kernel
  · decide +kernel

theorem exec_oneSegment {high : Byte} (hhigh : high = 0 ∨ high = 1) {s : State}
    {trampoline trapframe : ℕ} (hready : Ready s trampoline trapframe)
    (hroom : 27 ≤ s.memory.freelist.length) :
    ∃ final, exec s trampoline trapframe [] (some (contentFile (oneSegment high))) [] =
      .ok (0, final) := by
  have hfree := freeSound_of_sound hready.sound
  obtain ⟨file, hfile⟩ : ∃ file, file = contentFile (oneSegment high) := ⟨_, rfl⟩
  have hheader : (file.read 0 sizeofElf).length = sizeofElf ∧
      (elfHeader (file.read 0 sizeofElf)).magic = ELF_MAGIC ∧
      (elfHeader (file.read 0 sizeofElf)).phnum = 1 ∧
      (elfHeader (file.read 0 sizeofElf)).phoff = 64 ∧
      (file.read (64 % 2 ^ 32) sizeofPh).length = sizeofPh ∧
      progHeader (file.read (64 % 2 ^ 32) sizeofPh) = ⟨1, high.toNat * 2 ^ 32, 0, 4, 4⟩ := by
    rw [hfile]
    rcases hhigh with rfl | rfl
    · decide +kernel
    · decide +kernel
  obtain ⟨hlen, hmagic, hphnum, hphoff, hbytes, hph⟩ := hheader
  obtain ⟨pagetable, created, hcreate, hsupply⟩ :=
    ProcMemory.procPagetable_succeeds hfree (by omega) trampoline trapframe
  obtain ⟨hbuild, huser⟩ := procPagetable_building hfree hcreate
  obtain ⟨grown, halloc, hgrown⟩ := @uvmalloc_succeeds created pagetable 0 4 0 hbuild.sound
    hbuild.space.filled (Nat.zero_le 4) (by
      have hcount : pageCount 4 - pageCount 0 = 1 := by decide
      omega)
  have hcount : pageCount 4 - pageCount 0 = 1 := by decide
  obtain ⟨sz1, grown', halloc', -, hmore⟩ := hbuild.uvmalloc huser 4
  rw [halloc, Except.ok.injEq, Prod.mk.injEq] at halloc'
  obtain ⟨rfl, rfl⟩ := halloc'
  obtain ⟨-, hbuild', huser', -⟩ := hmore (by decide)
  have hsize : (oneSegment high).length = 120 := by rcases hhigh with rfl | rfl <;> decide
  obtain ⟨loaded, filled, hseg, hiff, hdata⟩ := @loadseg_data s.memory grown trampoline
    pagetable trapframe 4 (oneSegment high) 0 4 (high.toNat * 2 ^ 32) (by omega)
    hready.kernel (by decide) (by omega) (by omega) hbuild' huser'
  have hloaded : loaded = true := by
    rw [hiff, Nat.mul_mod_left, hsize]
    omega
  subst hloaded
  have hlist := (hdata rfl).1
  have hload : loadSegments file pagetable (elfHeader (file.read 0 sizeofElf)).phnum
      created (elfHeader (file.read 0 sizeofElf)).phoff 0 = .ok (true, 4, filled) := by
    rw [hphnum, hphoff, loadSegments]
    dsimp only
    rw [hph, if_neg (not_not.mpr hbytes)]
    dsimp only
    rw [if_neg (by decide), if_neg (by decide), if_neg (by decide),
      show (0 + 4) % 2 ^ 64 = 4 from rfl, halloc, ok_bind]
    dsimp only
    rw [if_neg (by decide), if_neg (by decide), hfile, hseg, ok_bind]
    rfl
  obtain ⟨sz, memory, hprepared⟩ := prepared_of_loaded hfree hready.kernel hlen hmagic
    hcreate hload (by rw [hlist]; omega)
  rw [hfile] at hprepared
  refine exec_succeeds hready [] hprepared (by decide) (by simp) ?_
  obtain ⟨-, pages, -, hsz, -⟩ := hprepared.stack hfree hready.kernel
  rw [hsz]
  simp only [arrayPointer, lowest, below, length_nil, PGSIZE_eq]
  omega

/-- The second file has no byte at the offset of its segment; `exec` loads the ELF magic
from its beginning. -/
theorem exec_truncates_the_offset : ∃ s final : State, Ready s KERNBASE (KERNBASE + 0x40000) ∧
    exec s KERNBASE (KERNBASE + 0x40000) [] (some (contentFile (oneSegment 1))) [] =
      .ok (0, final) ∧
    DisjointSegments (describedLoads (oneSegment 1)) ∧
    byteOfSpace final.memory final.proc.pagetable 0 = some 0x7f ∧
    ¬ImageCorrect final.memory final.proc.pagetable final.proc.sz (oneSegment 1) := by
  obtain ⟨s, hready, hroom⟩ := exists_ready_roomy
  obtain ⟨final, hexec⟩ := exec_oneSegment (Or.inr rfl) hready hroom
  obtain ⟨hloads, hheaders⟩ := @describedLoads_oneSegment 1 (Or.inr rfl)
  obtain ⟨hbytes, hchecked, -⟩ := exec_image hready (by decide) (by decide) (by simp) hexec
    (by decide)
  rw [hheaders, hloads] at hbytes hchecked
  have hinside := (hchecked _ mem_cons_self).inside
  refine ⟨s, final, hready, hexec, by rw [hloads]; exact pairwise_singleton _ _, ?_,
    fun hcorrect => ?_⟩
  · have hpages : (0 : ℕ) < PGSIZE := by decide
    rw [hbytes 0 (by dsimp only at hinside; omega)]
    decide +kernel
  · obtain ⟨byte, hbyte, -⟩ := hcorrect.bytes _ (by rw [hloads]; exact mem_cons_self) 0 (by decide)
    have hnone : (oneSegment 1)[(1 : Byte).toNat * 2 ^ 32 + 0]? = none :=
      List.getElem?_eq_none (by decide +kernel)
    rw [hnone] at hbyte
    cases hbyte

theorem exec_image_correct_iff_oneSegment :
    ∃ s final : State, Ready s KERNBASE (KERNBASE + 0x40000) ∧
      exec s KERNBASE (KERNBASE + 0x40000) [] (some (contentFile (oneSegment 0))) [] =
        .ok (0, final) ∧
      ImageCorrect final.memory final.proc.pagetable final.proc.sz (oneSegment 0) := by
  obtain ⟨s, hready, hroom⟩ := exists_ready_roomy
  obtain ⟨final, hexec⟩ := exec_oneSegment (Or.inl rfl) hready hroom
  obtain ⟨hloads, -⟩ := @describedLoads_oneSegment 0 (Or.inl rfl)
  refine ⟨s, final, hready, hexec, ?_⟩
  rw [exec_image_correct_iff hready (by decide) (by decide) (by simp) hexec (by decide)
    (by rw [hloads]; exact pairwise_singleton _ _), hloads]
  decide +kernel

/-- A file of 176 bytes with two segments, the second of which has more bytes than the file. -/
def shortFile : List Byte :=
  [0x7f, 0x45, 0x4c, 0x46] ++ List.replicate 28 0 ++ [64] ++ List.replicate 23 0 ++
    [2] ++ List.replicate 7 0 ++
    [1] ++ List.replicate 31 0 ++ [4] ++ List.replicate 7 0 ++ [4] ++ List.replicate 15 0 ++
    [1] ++ List.replicate 16 0 ++ [0x10] ++ List.replicate 14 0 ++
    [200] ++ List.replicate 7 0 ++ [200] ++ List.replicate 15 0

/-- `argv` of `a b`. -/
def twoArgs : ℕ → UserArg
  | 0 => .string [0x61]
  | 1 => .string [0x62]
  | _ => .null

/-- `exec` loads the first segment and fails in the second, and everything is as before. -/
theorem sysExec_all_or_nothing_shortFile :
    ∃ s final : State, Ready s KERNBASE (KERNBASE + 0x40000) ∧
      (fetchArgs twoArgs MAXARG s.memory [] []).2.1 = [[0x61], [0x62]] ∧
      sysExec s KERNBASE (KERNBASE + 0x40000) [] (some (contentFile shortFile)) twoArgs =
        .ok (-1, final) ∧ final.proc = s.proc ∧
      (final.memory.freelist : Multiset ℕ) = s.memory.freelist := by
  obtain ⟨s, hready, hroom⟩ := exists_ready_roomy
  obtain ⟨value, final, hcall, hfailed⟩ :=
    sysExec_all_or_nothing hready [] (some (contentFile shortFile)) twoArgs
  obtain ⟨first, second, rest, hlist⟩ : ∃ first second rest,
      s.memory.freelist = first :: second :: rest := by
    rcases hfree : s.memory.freelist with _ | ⟨first, _ | ⟨second, rest⟩⟩
    · simp [hfree] at hroom
    · simp [hfree] at hroom
    · exact ⟨first, second, rest, rfl⟩
  obtain ⟨pages, memory, hfetch⟩ : ∃ pages memory, fetchArgs twoArgs MAXARG s.memory [] [] =
      (true, [[0x61], [0x62]], pages, memory) := by
    simp [fetchArgs, MAXARG, twoArgs, kalloc, hlist, storeBytes]
  have hvalue : value = -1 := by
    by_contra hne
    obtain ⟨result, next, hexec, -⟩ := exec_spec (hready.fetched hfetch) []
      (some (contentFile shortFile)) [[0x61], [0x62]]
    have hresult : result = value := by
      rw [sysExec, hfetch] at hcall
      dsimp only at hcall
      rw [hexec, ok_bind] at hcall
      cases hfree : freeArgs pages next.memory with
      | error panic =>
        rw [hfree] at hcall
        cases hcall
      | ok freed =>
        rw [hfree] at hcall
        cases hcall
        rfl
    subst hresult
    have hlen : shortFile.length = 176 := by decide +kernel
    obtain ⟨-, hchecked, -⟩ := exec_image (hready.fetched hfetch) (by omega) (by decide)
      (by simp) hexec hne
    have hheaders : loadHeaders (contentFile shortFile) =
        [⟨1, 0, 0, 4, 4⟩, ⟨1, 0, 0x1000, 200, 200⟩] := by decide +kernel
    rw [hheaders] at hchecked
    have hpresent := (hchecked _ (mem_cons_of_mem _ mem_cons_self)).present (by decide)
    dsimp only at hpresent
    omega
  subst hvalue
  obtain ⟨hproc, -, -, -, hfree, -⟩ := hfailed rfl
  exact ⟨s, final, hready, by rw [hfetch], hcall, hproc, hfree⟩

end Xv6.ExecLoad
