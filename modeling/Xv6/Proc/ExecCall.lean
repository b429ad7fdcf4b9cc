import Xv6.Proc.ExecOwnership

/-!
# `exec` as a call

`exec` and `sys_exec` with what they hold while they run: the transaction, the
reference to the inode and its lock, the new page table and the pages of the arguments.
A call that fails gives all of it back and leaves the process alone.
-/

namespace Xv6.ExecCall

open LittleEndian Riscv Kalloc PageTable PageMap Mapping UserMemory Ownership ProcMemory Exec
open Multiset ExecOwnership Outcome

/-- The fields of `struct proc` and of its trap frame that `exec` writes. -/
structure Process where
  pagetable : ℕ
  sz : ℕ
  epc : ℕ
  sp : ℕ
  a1 : ℕ
  name : List Byte

/-- The memory and the process, `log.outstanding`, and `ref` and the lock of the inode
that the path names. -/
structure State where
  memory : Memory
  proc : Process
  outstanding : ℕ
  ref : ℕ
  locked : Bool

def beginOp (s : State) : State := { s with outstanding := s.outstanding + 1 }

def endOp (s : State) : State := { s with outstanding := s.outstanding - 1 }

def nameiIlock (s : State) : State := { s with ref := s.ref + 1, locked := true }

def iunlockput (s : State) : State := { s with ref := s.ref - 1, locked := false }

/-- `p->name`: the part of the path after the last slash, cut to 15 bytes. -/
def programName (path : List Byte) : List Byte :=
  ((path.reverse.takeWhile fun c => c != 0x2f).reverse).take 15

/-- `exec` after the program is loaded and the inode released. -/
def execStack (s : State) (pagetable sz entry : ℕ) (path : List Byte)
    (argv : List (List Byte)) : Except Panic (ℤ × State) := do
  let sz := PGROUNDUP sz
  let (sz1, memory) ← uvmalloc s.memory pagetable sz ((sz + 2 * PGSIZE) % 2 ^ 64)
  if sz1 = 0 then
    let memory ← procFreepagetable memory pagetable sz
    return (-1, { s with memory := memory })
  let memory ← uvmclear memory pagetable (sz1 - 2 * PGSIZE)
  match pushArguments memory pagetable sz1 argv with
  | (none, memory) =>
    let memory ← procFreepagetable memory pagetable sz1
    return (-1, { s with memory := memory })
  | (some (sp, argc), memory) =>
    -- Commit to the user image.
    let memory ← procFreepagetable memory s.proc.pagetable s.proc.sz
    return (argc, { s with
      memory := memory
      proc := ⟨pagetable, sz1, entry, sp, sp, programName path⟩ })

def exec (s : State) (trampoline trapframe : ℕ) (path : List Byte)
    (file : Option ProgramFile) (argv : List (List Byte)) :
    Except Panic (ℤ × State) :=
  let s := beginOp s
  match file with
  | none => return (-1, endOp s)
  | some file => do
    let s := nameiIlock s
    let bytes := file.read 0 sizeofElf
    if bytes.length ≠ sizeofElf then
      return (-1, endOp (iunlockput s))
    let elf := elfHeader bytes
    if elf.magic ≠ ELF_MAGIC then
      return (-1, endOp (iunlockput s))
    match ← procPagetable s.memory trampoline trapframe with
    | (none, memory) => return (-1, endOp (iunlockput { s with memory := memory }))
    | (some pagetable, memory) =>
      let (loaded, sz, memory) ← loadSegments file pagetable elf.phnum memory elf.phoff 0
      if loaded = false then
        let memory ← procFreepagetable memory pagetable sz
        return (-1, endOp (iunlockput { s with memory := memory }))
      let s := endOp (iunlockput { s with memory := memory })
      execStack s pagetable sz elf.entry path argv

/-- What is at `uargv[i]`: an address that cannot be read, null, or a string that
`fetchstr` cannot copy whole or can. -/
inductive UserArg where
  | unreadable
  | null
  | unterminated (copied : List Byte)
  | string (bytes : List Byte)

/-- The loop of `sys_exec` over `uargv`.  The result is whether it ran to its end, the
strings, and the pages that hold them. -/
def fetchArgs (uargv : ℕ → UserArg) :
    ℕ → Memory → List ℕ → List (List Byte) → Bool × List (List Byte) × List ℕ × Memory
  | 0, memory, pages, argv => (false, argv, pages, memory)
  | count + 1, memory, pages, argv =>
    match uargv pages.length with
    | .unreadable => (false, argv, pages, memory)
    | .null => (true, argv, pages, memory)
    | .unterminated copied =>
      match kalloc memory with
      | (none, memory) => (false, argv, pages, memory)
      | (some page, memory) => (false, argv, pages ++ [page], storeBytes memory page 0 copied)
    | .string bytes =>
      match kalloc memory with
      | (none, memory) => (false, argv, pages, memory)
      | (some page, memory) =>
        fetchArgs uargv count (storeBytes memory page 0 (bytes ++ [0]))
          (pages ++ [page]) (argv ++ [bytes])

/-- The loops of `sys_exec` that free the pages of `argv`. -/
def freeArgs (pages : List ℕ) (memory : Memory) : Except Panic Memory := pages.foldlM kfree memory

def sysExec (s : State) (trampoline trapframe : ℕ) (path : List Byte)
    (file : Option ProgramFile) (uargv : ℕ → UserArg) :
    Except Panic (ℤ × State) := do
  match fetchArgs uargv MAXARG s.memory [] [] with
  | (false, _, pages, memory) =>
    let memory ← freeArgs pages memory
    return (-1, { s with memory := memory })
  | (true, argv, pages, memory) =>
    let (ret, s) ← exec { s with memory := memory } trampoline trapframe path file argv
    let memory ← freeArgs pages s.memory
    return (ret, { s with memory := memory })

/-! ## `exec` and the image it builds -/

section
variable {s : State} {trampoline trapframe : ℕ} {path : List Byte}
  {file : Option ProgramFile} {argv : List (List Byte)} {after : Memory}

theorem release_hold (hlock : s.locked = false) (memory : Memory) :
    endOp (iunlockput { nameiIlock (beginOp s) with memory := memory }) =
        { s with memory := memory } := by
  rw [hlock]
  rfl

def commit (s : State) (path : List Byte) : Option Image × Memory → Except Panic (ℤ × State)
  | (none, memory) => return (-1, { s with memory := memory })
  | (some image, memory) => do
    let memory ← procFreepagetable memory s.proc.pagetable s.proc.sz
    return (image.argc, { s with
      memory := memory
      proc := ⟨image.pagetable, image.sz, image.entry, image.sp, image.sp, programName path⟩ })

/-- What `execImage` does with the outcome of `loadImage`. -/
def discard (pagetable : ℕ) : Option Image × ℕ × Memory → Except Panic (Option Image × Memory)
  | (none, sz, memory) => do
    let memory ← procFreepagetable memory pagetable sz
    return (none, memory)
  | (some image, _, memory) => return (some image, memory)

theorem execImage_some (memory : Memory) (file : ProgramFile) :
    execImage memory trampoline trapframe (some file) argv = (do
      let bytes := file.read 0 sizeofElf
      if bytes.length ≠ sizeofElf then
        return (none, memory)
      let elf := elfHeader bytes
      if elf.magic ≠ ELF_MAGIC then
        return (none, memory)
      match ← procPagetable memory trampoline trapframe with
      | (none, memory) => return (none, memory)
      | (some pagetable, memory) =>
        loadImage memory file elf pagetable argv >>= discard pagetable) := by
  unfold execImage
  dsimp only
  split
  · rfl
  split
  · rfl
  cases procPagetable memory trampoline trapframe with
  | error panic => rfl
  | ok result =>
    obtain ⟨_ | pagetable, memory⟩ := result
    · rfl
    simp only [ok_bind]
    cases loadImage memory file (elfHeader (file.read 0 sizeofElf)) pagetable argv with
    | error panic => rfl
    | ok result =>
      obtain ⟨_ | image, sz, memory⟩ := result
      · rfl
      · rfl

theorem execStack_eq (s : State) (file : ProgramFile) (elf : ElfHeader)
    {pagetable sz : ℕ} {start memory : Memory}
    (hload : loadSegments file pagetable elf.phnum start elf.phoff 0 = .ok (true, sz, memory)) :
    execStack { s with memory := memory } pagetable sz elf.entry path argv =
        loadImage start file elf pagetable argv >>= discard pagetable >>= commit s path := by
  unfold execStack loadImage
  rw [hload]
  simp only [ok_bind]
  cases uvmalloc memory pagetable (PGROUNDUP sz) ((PGROUNDUP sz + 2 * PGSIZE) % 2 ^ 64) with
  | error panic => rfl
  | ok result =>
    obtain ⟨sz1, memory⟩ := result
    simp only [ok_bind]
    by_cases hzero : sz1 = 0
    · rw [if_neg (by decide : ¬ true = false), if_pos hzero, if_pos hzero]
      simp only [pure_eq_ok, ok_bind, discard]
      cases procFreepagetable memory pagetable (PGROUNDUP sz) with
      | error panic => rfl
      | ok memory => rfl
    · rw [if_neg (by decide : ¬ true = false), if_neg hzero, if_neg hzero]
      cases uvmclear memory pagetable (sz1 - 2 * PGSIZE) with
      | error panic => rfl
      | ok memory =>
        simp only [ok_bind]
        cases pushArguments memory pagetable sz1 argv with
        | mk pushed memory =>
          cases pushed with
          | none =>
            simp only [pure_eq_ok, ok_bind, discard]
            cases procFreepagetable memory pagetable sz1 with
            | error panic => rfl
            | ok memory => rfl
          | some found => rfl

/-- `exec` builds the image and then commits to it; the transaction and the inode are
released on every way. -/
theorem exec_eq (hlock : s.locked = false) : exec s trampoline trapframe path file argv =
    execImage s.memory trampoline trapframe file argv >>= commit s path := by
  have hrelease := release_hold hlock
  cases file with
  | none => rfl
  | some file =>
    rw [execImage_some]
    unfold exec
    dsimp only
    by_cases hlen : (file.read 0 sizeofElf).length ≠ sizeofElf
    · rw [if_pos hlen, if_pos hlen]
      exact congrArg (fun s : State => Except.ok ((-1 : ℤ), s)) (hrelease s.memory)
    rw [if_neg hlen, if_neg hlen]
    by_cases hmagic : (elfHeader (file.read 0 sizeofElf)).magic ≠ ELF_MAGIC
    · rw [if_pos hmagic, if_pos hmagic]
      exact congrArg (fun s : State => Except.ok ((-1 : ℤ), s)) (hrelease s.memory)
    rw [if_neg hmagic, if_neg hmagic]
    have hmemory : (nameiIlock (beginOp s)).memory = s.memory := rfl
    rw [hmemory]
    cases procPagetable s.memory trampoline trapframe with
    | error panic => rfl
    | ok result =>
      obtain ⟨_ | pagetable, memory⟩ := result
      · exact congrArg (fun s : State => Except.ok ((-1 : ℤ), s)) (hrelease memory)
      · simp only [ok_bind]
        cases hload : loadSegments file pagetable (elfHeader (file.read 0 sizeofElf)).phnum memory
            (elfHeader (file.read 0 sizeofElf)).phoff 0 with
        | error panic =>
          unfold loadImage
          rw [hload]
          rfl
        | ok result =>
          obtain ⟨_ | _, sz, loaded⟩ := result
          · unfold loadImage
            rw [hload]
            simp only [ok_bind, if_true, pure_eq_ok, discard]
            cases procFreepagetable loaded pagetable sz with
            | error panic => rfl
            | ok final => exact congrArg (fun s : State => Except.ok ((-1 : ℤ), s)) (hrelease final)
          · simp only [ok_bind]
            rw [if_neg (by decide), hrelease, execStack_eq s file _ hload]

end

/-! ## Exchanges -/

section
variable {memory after : Memory} {given taken : Multiset ℕ} {pagetable : ℕ}

theorem exchange_add (hexch : Exchange memory after given taken)
    (more : Multiset ℕ) : Exchange memory after (more + given) (more + taken) := by
  refine ⟨hexch.kernelEnd, ?_, fun pa hpa => hexch.frame pa fun hmem => hpa ?_⟩
  · rw [add_assoc, add_assoc, hexch.pages]
  · rw [add_assoc, mem_add]
    exact Or.inr hmem

theorem exchange_kalloc {page : ℕ} (hkal : kalloc memory = (some page, after)) :
    Exchange memory after 0 {page} := by
  obtain ⟨hfree, hkernel, hkept⟩ := kalloc_some hkal
  refine ⟨hkernel, ?_, fun pa hpa => hkept pa ?_⟩
  · rw [hfree, zero_add]
    rfl
  · rintro rfl
    apply hpa
    rw [hfree, zero_add]
    exact List.mem_cons_self

theorem exchange_storeBytes (memory : Memory) (page offset : ℕ) (bytes : List Byte) :
    Exchange memory (storeBytes memory page offset bytes) {page} {page} := by
  refine ⟨rfl, rfl, fun pa hpa => Function.update_of_ne ?_ _ _⟩
  rintro rfl
  exact hpa (mem_add.mpr (Or.inl (mem_singleton_self pa)))

theorem exchange_kfree {page : ℕ} (hman : Managed memory page) :
    ∃ after, kfree memory page = .ok after ∧ Exchange memory after {page} 0 := by
  refine ⟨_, kfree_of_managed hman, rfl, ?_, fun pa hpa => fillPage_page_ne memory 1 ?_⟩
  · rw [zero_add]
    rfl
  · rintro rfl
    exact hpa (mem_add.mpr (Or.inl (mem_singleton_self pa)))

theorem exchange_tables (hexch : Exchange memory after 0 taken)
    (hsound : Sound memory pagetable 0) :
    ∀ table ∈ tablePages memory pagetable, after.page table = memory.page table := by
  intro table htable
  apply hexch.frame
  rw [zero_add]
  exact hsound.wellFormed.not_mem_freelist htable

/-- What was taken are pages that the address space and the free list held before. -/
theorem exchange_holdings (hexch : Exchange memory after 0 taken)
    (hsound : Sound memory pagetable 0) :
    taken + holdings after pagetable = holdings memory pagetable := by
  have hpages := hexch.pages
  rw [zero_add] at hpages
  have htables := exchange_tables hexch hsound
  have hlook := lookup_congr htables
  rw [holdings, holdings, tablePages_congr htables,
    userLeaves_congr fun page _ => hlook (page * PGSIZE), ← hpages]
  abel

theorem exchange_keeps_space (hexch : Exchange memory after 0 taken)
    (hsound : Sound memory pagetable 0) :
    Sound after pagetable 0 ∧ ∀ va, lookup after pagetable va = lookup memory pagetable va := by
  have htables := exchange_tables hexch hsound
  have hlook := lookup_congr htables
  have hholdings := exchange_holdings hexch hsound
  refine ⟨⟨?_, fun pa hpa => ?_, interiorPlain_congr htables hsound.interior,
    upperUnused_congr (htables pagetable (RadixTree.root_mem_nodes _ 2 pagetable))
      hsound.upper⟩, hlook⟩
  · have hdist := hsound.distinct
    rw [zero_add, ← hholdings] at hdist
    rw [zero_add]
    exact (nodup_add.mp hdist).2.1
  · rw [zero_add] at hpa
    have hman := hsound.managed pa (by
      rw [zero_add, ← hholdings, mem_add]
      exact Or.inr hpa)
    simpa only [Managed, hexch.kernelEnd] using hman

theorem freeSound_of_sound (hsound : Sound memory pagetable 0) : FreeSound memory := by
  have hdist := hsound.distinct
  rw [zero_add, holdings] at hdist
  refine ⟨coe_nodup.mp (nodup_add.mp hdist).2.1, fun pa hpa => ?_⟩
  apply hsound.managed
  rw [zero_add, holdings, mem_add]
  exact Or.inr (mem_coe.mpr hpa)

theorem exchange_processSpace (hexch : Exchange memory after 0 taken)
    (hsound : Sound memory pagetable 0) {trampoline trapframe sz : ℕ}
    (hspace : ProcessSpace memory trampoline pagetable trapframe sz) :
    ProcessSpace after trampoline pagetable trapframe sz := by
  obtain ⟨hsound', hlook⟩ := exchange_keeps_space hexch hsound
  exact ⟨hsound'.interior, hsound'.upper, hspace.filled.congr fun page _ => hlook (page * PGSIZE),
    (hlook TRAMPOLINE).trans hspace.trampoline,
    (hlook TRAPFRAME).trans hspace.trapframe⟩

end

/-! ## The pages of the arguments -/

theorem fetchArgs_exchange (uargv : ℕ → UserArg) (count : ℕ) :
    ∀ (memory : Memory) (pages : List ℕ) (argv : List (List Byte)) (fetched : Bool)
      (strings : List (List Byte)) (held : List ℕ) (after : Memory),
      fetchArgs uargv count memory pages argv = (fetched, strings, held, after) →
      Exchange memory after (pages : Multiset ℕ) (held : Multiset ℕ) := by
  induction count with
  | zero =>
    intro memory pages argv fetched strings held after hfetch
    cases hfetch
    exact Exchange.refl memory _
  | succ count ih =>
    intro memory pages argv fetched strings held after hfetch
    -- One more page, with the bytes that were copied.
    have hpage : ∀ {page : ℕ} {popped : Memory} (bytes : List Byte),
        kalloc memory = (some page, popped) →
        Exchange memory (storeBytes popped page 0 bytes) (pages : Multiset ℕ)
          ((pages ++ [page] : List ℕ) : Multiset ℕ) := by
      intro page popped bytes hkal
      have hboth := exchange_add ((exchange_kalloc hkal).trans
        (exchange_storeBytes popped page 0 bytes)) (pages : Multiset ℕ)
      rw [add_zero] at hboth
      rw [← coe_add]
      exact hboth
    unfold fetchArgs at hfetch
    split at hfetch
    · cases hfetch
      exact Exchange.refl memory _
    · cases hfetch
      exact Exchange.refl memory _
    case h_3 copied _ =>
      cases hkal : kalloc memory with
      | mk result popped =>
        rw [hkal] at hfetch
        cases result with
        | none =>
          obtain ⟨rfl, -⟩ := kalloc_none hkal
          cases hfetch
          exact Exchange.refl _ _
        | some page =>
          cases hfetch
          exact hpage copied hkal
    case h_4 bytes _ =>
      cases hkal : kalloc memory with
      | mk result popped =>
        rw [hkal] at hfetch
        cases result with
        | none =>
          obtain ⟨rfl, -⟩ := kalloc_none hkal
          cases hfetch
          exact Exchange.refl _ _
        | some page => exact (hpage (bytes ++ [0]) hkal).trans (ih _ _ _ _ _ _ _ hfetch)

theorem freeArgs_exchange (pages : List ℕ) : ∀ memory : Memory, (∀ pa ∈ pages, Managed memory pa) →
    ∃ after, freeArgs pages memory = .ok after ∧ Exchange memory after (pages : Multiset ℕ) 0 := by
  induction pages with
  | nil => exact fun memory _ => ⟨memory, rfl, Exchange.refl memory 0⟩
  | cons page pages ih =>
    intro memory hman
    obtain ⟨freed, hkfree, hexch⟩ := exchange_kfree (hman page List.mem_cons_self)
    obtain ⟨after, hrest, hexchange'⟩ := ih freed (by
      intro pa hpa
      simpa only [Managed, hexch.kernelEnd] using hman pa (List.mem_cons_of_mem page hpa))
    refine ⟨after, ?_, ?_⟩
    · rw [freeArgs, List.foldlM_cons, hkfree]
      exact hrest
    · have hfst := exchange_add hexch (pages : Multiset ℕ)
      rw [add_zero] at hfst
      have hcons : ((page :: pages : List ℕ) : Multiset ℕ) = (pages : Multiset ℕ) + {page} := by
        rw [add_comm]
        rfl
      rw [hcons]
      exact hfst.trans hexchange'

/-! ## The calls -/

/-- A running process without mappings: its address space is the image, the trap frame
and the trampoline, and it does not hold the lock of the inode. -/
structure Ready (s : State) (trampoline trapframe : ℕ) : Prop where
  kernel : 0 < s.memory.kernelEnd
  sound : Sound s.memory s.proc.pagetable 0
  space : ProcessSpace s.memory trampoline s.proc.pagetable trapframe s.proc.sz
  unlocked : s.locked = false

section
variable {s : State} {trampoline trapframe : ℕ}

theorem exec_spec (hready : Ready s trampoline trapframe) (path : List Byte)
    (file : Option ProgramFile) (argv : List (List Byte)) :
    ∃ value final, exec s trampoline trapframe path file argv = .ok (value, final) ∧
      final.memory.kernelEnd = s.memory.kernelEnd ∧
      (value = -1 → final = { s with memory := final.memory } ∧
          Exchange s.memory final.memory 0 0) := by
  obtain ⟨image, after, himage, hnone, hsome⟩ :=
    execImage_spec (freeSound_of_sound hready.sound) hready.kernel trampoline trapframe file argv
  rw [exec_eq hready.unlocked, himage, ok_bind]
  cases image with
  | none =>
    have hexch := hnone rfl
    exact ⟨-1, _, rfl, hexch.kernelEnd, fun _ => ⟨rfl, hexch⟩⟩
  | some image =>
    have hbuild := hsome image rfl
    have hexch := hbuild.exchange
    obtain ⟨hsound, -⟩ := exchange_keeps_space hexch hready.sound
    obtain ⟨final, hfree, hrel⟩ := procFreepagetable_spec hsound
      (exchange_processSpace hexch hready.sound hready.space)
    have hcommit : commit s path (some image, after) = .ok (image.argc, { s with
        memory := final
        proc := ⟨image.pagetable, image.sz, image.entry, image.sp, image.sp,
          programName path⟩ }) := by
      rw [commit, hfree]
      rfl
    exact ⟨image.argc, _, hcommit, hrel.kernelEnd.trans hexch.kernelEnd,
      fun hvalue => absurd hvalue (by omega)⟩

theorem Ready.fetched (hready : Ready s trampoline trapframe) {uargv : ℕ → UserArg}
    {fetched : Bool} {strings : List (List Byte)} {pages : List ℕ} {memory : Memory}
    (hfetch : fetchArgs uargv MAXARG s.memory [] [] = (fetched, strings, pages, memory)) :
    Ready { s with memory := memory } trampoline trapframe := by
  have hexchange := fetchArgs_exchange uargv MAXARG _ _ _ _ _ _ _ hfetch
  rw [coe_nil] at hexchange
  obtain ⟨hsound, -⟩ := exchange_keeps_space hexchange hready.sound
  exact ⟨by rw [hexchange.kernelEnd]; exact hready.kernel, hsound,
    exchange_processSpace hexchange hready.sound hready.space, hready.unlocked⟩

/-- `sys_exec` never panics, for any bytes of the file, any arguments and any number of
free pages.  When it returns -1, the process, the transaction and the inode are as
before, the same pages are free, and no other page was written. -/
theorem sysExec_all_or_nothing (hready : Ready s trampoline trapframe)
    (path : List Byte) (file : Option ProgramFile) (uargv : ℕ → UserArg) :
    ∃ value final, sysExec s trampoline trapframe path file uargv = .ok (value, final) ∧
      (value = -1 → final.proc = s.proc ∧ final.outstanding = s.outstanding ∧
        final.ref = s.ref ∧ final.locked = s.locked ∧
        (final.memory.freelist : Multiset ℕ) = (s.memory.freelist : Multiset ℕ) ∧
        ∀ pa, pa ∉ s.memory.freelist → final.memory.page pa = s.memory.page pa) := by
  obtain ⟨fetched, strings, pages, memory, hfetch⟩ :
      ∃ fetched strings pages memory, fetchArgs uargv MAXARG s.memory [] [] =
        (fetched, strings, pages, memory) := ⟨_, _, _, _, rfl⟩
  have hexchange := fetchArgs_exchange uargv MAXARG _ _ _ _ _ _ _ hfetch
  rw [coe_nil] at hexchange
  have hmanaged : ∀ pa ∈ pages, Managed memory pa := by
    intro pa hpa
    have hmem : pa ∈ (s.memory.freelist : Multiset ℕ) := by
      rw [← zero_add (s.memory.freelist : Multiset ℕ), ← hexchange.pages, mem_add]
      exact Or.inl (mem_coe.mpr hpa)
    simpa only [Managed, hexchange.kernelEnd] using
      (freeSound_of_sound hready.sound).managed pa (mem_coe.mp hmem)
  have hback : ∀ final : Memory, Exchange s.memory final 0 0 →
      (final.freelist : Multiset ℕ) = (s.memory.freelist : Multiset ℕ) ∧
      ∀ pa, pa ∉ s.memory.freelist → final.page pa = s.memory.page pa := by
    intro final hall
    refine ⟨by simpa using hall.pages, fun pa hpa => hall.frame pa ?_⟩
    rwa [zero_add, mem_coe]
  unfold sysExec
  rw [hfetch]
  cases fetched with
  | false =>
    obtain ⟨final, hfree, hexchange'⟩ := freeArgs_exchange pages memory hmanaged
    obtain ⟨hlist, hframe⟩ := hback final (hexchange.trans hexchange')
    dsimp only
    rw [hfree]
    exact ⟨-1, _, rfl, fun _ => ⟨rfl, rfl, rfl, rfl, hlist, hframe⟩⟩
  | true =>
    obtain ⟨value, next, hexec, hend, hfailed⟩ :=
      exec_spec (hready.fetched hfetch) path file strings
    obtain ⟨final, hfree, hexchange'⟩ := freeArgs_exchange pages next.memory (by
      intro pa hpa
      simpa only [Managed, hend] using hmanaged pa hpa)
    dsimp only
    rw [hexec, ok_bind]
    dsimp only
    rw [hfree]
    refine ⟨value, _, rfl, fun hvalue => ?_⟩
    obtain ⟨hnext, hkept⟩ := hfailed hvalue
    have hkept' := exchange_add hkept (pages : Multiset ℕ)
    rw [add_zero] at hkept'
    obtain ⟨hlist, hframe⟩ := hback final ((hexchange.trans hkept').trans hexchange')
    rw [hnext]
    exact ⟨rfl, rfl, rfl, rfl, hlist, hframe⟩

end

end Xv6.ExecCall
