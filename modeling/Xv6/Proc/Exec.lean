import Xv6.Proc.ProcMemory

/-!
# Building the image of a new program

The model of `kernel/exec.c` up to the point where the new image is committed:
reading the ELF headers, loading the segments and pushing the arguments, with
every exit to `bad`.  The file is read through `readi` into kernel memory, so
it appears as the bytes that such a call yields.
-/

namespace Xv6.Exec

open LittleEndian Riscv Kalloc PageTable UserMemory ProcMemory

/-- The file behind an inode: the bytes that `readi` returns from an offset,
at most as many as it is asked for. -/
structure ProgramFile where
  read : ℕ → ℕ → List Byte
  length_le : ∀ off n, (read off n).length ≤ n

def ELF_MAGIC : ℕ := 0x464C457F
def ELF_PROG_LOAD : ℕ := 1
def MAXARG : ℕ := 32

def field (bytes : List Byte) (offset width : ℕ) : ℕ :=
  ((bytes.drop offset).take width).foldr (fun byte rest => byte.toNat + 256 * rest) 0

/-- The fields of `struct elfhdr` that `exec` uses. -/
structure ElfHeader where
  magic : ℕ
  entry : ℕ
  phoff : ℕ
  phnum : ℕ

def sizeofElf : ℕ := 64

def elfHeader (bytes : List Byte) : ElfHeader where
  magic := field bytes 0 4
  entry := field bytes 24 8
  phoff := field bytes 32 8
  phnum := field bytes 56 2

/-- The fields of `struct proghdr` that `exec` uses. -/
structure ProgHeader where
  type : ℕ
  off : ℕ
  vaddr : ℕ
  filesz : ℕ
  memsz : ℕ
  deriving DecidableEq

def sizeofPh : ℕ := 56

def progHeader (bytes : List Byte) : ProgHeader where
  type := field bytes 0 4
  off := field bytes 8 8
  vaddr := field bytes 16 8
  filesz := field bytes 32 8
  memsz := field bytes 40 8

/-- The loop of `loadseg` for a number of pages from `i` on. -/
def loadsegLoop (file : ProgramFile) (pagetable va offset sz : ℕ) :
    ℕ → Memory → ℕ → Except Panic (Bool × Memory)
  | 0, memory, _ => return (true, memory)
  | count + 1, memory, i =>
    match walkaddr memory pagetable ((va + i) % 2 ^ 64) with
    | none => throw .loadseg
    | some pa =>
      let n := if sz - i < PGSIZE then sz - i else PGSIZE
      let bytes := file.read ((offset + i) % 2 ^ 32) n
      let memory := storeBytes memory pa 0 bytes
      if bytes.length ≠ n then return (false, memory)
      else loadsegLoop file pagetable va offset sz count memory (i + PGSIZE)

/-- `loadseg`: `true` for the result 0; `offset` and `sz` are `uint`. -/
def loadseg (memory : Memory) (file : ProgramFile)
    (pagetable va offset sz : ℕ) : Except Panic (Bool × Memory) :=
  loadsegLoop file pagetable va (offset % 2 ^ 32) (sz % 2 ^ 32) (pageSteps 0 (sz % 2 ^ 32)) memory 0

/-- The loop of `exec` over the program headers.  The result is whether it ran
to its end, and the size of the image so far. -/
def loadSegments (file : ProgramFile) (pagetable : ℕ) :
    ℕ → Memory → ℕ → ℕ → Except Panic (Bool × ℕ × Memory)
  | 0, memory, _, sz => return (true, sz, memory)
  | count + 1, memory, off, sz => do
    let bytes := file.read (off % 2 ^ 32) sizeofPh
    let ph := progHeader bytes
    if bytes.length ≠ sizeofPh then
      return (false, sz, memory)
    if ph.type ≠ ELF_PROG_LOAD then
      loadSegments file pagetable count memory (off + sizeofPh) sz
    else if ph.memsz < ph.filesz then
      return (false, sz, memory)
    else if (ph.vaddr + ph.memsz) % 2 ^ 64 < ph.vaddr then
      return (false, sz, memory)
    else
      let (sz1, memory) ← uvmalloc memory pagetable sz ((ph.vaddr + ph.memsz) % 2 ^ 64)
      if sz1 = 0 then
        return (false, sz, memory)
      else if ph.vaddr % PGSIZE ≠ 0 then
        return (false, sz1, memory)
      else
        let (loaded, memory) ← loadseg memory file pagetable ph.vaddr ph.off ph.filesz
        if loaded then
          loadSegments file pagetable count memory (off + sizeofPh) sz1
        else return (false, sz1, memory)

/-- Push argument strings; the result is the stack pointer and the array
`ustack`, or nothing on the way to `bad`. -/
def pushStrings (pagetable stackbase : ℕ) :
    List (List Byte) → Memory → ℕ → List ℕ → Option (ℕ × List ℕ) × Memory
  | [], memory, sp, ustack => (some (sp, ustack), memory)
  | string :: strings, memory, sp, ustack =>
    if MAXARG ≤ ustack.length then (none, memory)
    else
      let sp := u64 (sp - (string.length + 1))
      let sp := sp - sp % 16
      if sp < stackbase then (none, memory)
      else
        match copyout memory pagetable sp (string ++ [0]) with
        | (false, memory) => (none, memory)
        | (true, memory) => pushStrings pagetable stackbase strings memory sp (ustack ++ [sp])

def pointerBytes (pointers : List ℕ) : List Byte :=
  pointers.flatMap fun pointer =>
    (List.range 8).map fun index => BitVec.ofNat 8 (pointer / 256 ^ index)

/-- The stack pointer and `argc`, after the arguments are on the stack. -/
def pushArguments (memory : Memory) (pagetable sz : ℕ)
    (argv : List (List Byte)) : Option (ℕ × ℕ) × Memory :=
  let stackbase := sz - PGSIZE
  match pushStrings pagetable stackbase argv memory sz [] with
  | (none, memory) => (none, memory)
  | (some (sp, ustack), memory) =>
    let argc := ustack.length
    let sp := u64 (sp - (argc + 1) * 8)
    let sp := sp - sp % 16
    if sp < stackbase then (none, memory)
    else
      match copyout memory pagetable sp (pointerBytes (ustack ++ [0])) with
      | (false, memory) => (none, memory)
      | (true, memory) => (some (sp, argc), memory)

/-- What `exec` commits to. -/
structure Image where
  pagetable : ℕ
  sz : ℕ
  sp : ℕ
  argc : ℕ
  entry : ℕ

/-- From the page table on: load the program and set up its stack.  The size is
the one that `bad` passes to `proc_freepagetable`. -/
def loadImage (memory : Memory) (file : ProgramFile) (elf : ElfHeader)
    (pagetable : ℕ) (argv : List (List Byte)) :
    Except Panic (Option Image × ℕ × Memory) := do
  let (loaded, sz, memory) ← loadSegments file pagetable elf.phnum memory elf.phoff 0
  if loaded = false then
    return (none, sz, memory)
  -- Allocate two pages; the second is the user stack.
  let sz := PGROUNDUP sz
  let (sz1, memory) ← uvmalloc memory pagetable sz ((sz + 2 * PGSIZE) % 2 ^ 64)
  if sz1 = 0 then
    return (none, sz, memory)
  let memory ← uvmclear memory pagetable (sz1 - 2 * PGSIZE)
  match pushArguments memory pagetable sz1 argv with
  | (none, memory) => return (none, sz1, memory)
  | (some (sp, argc), memory) => return (some ⟨pagetable, sz1, sp, argc, elf.entry⟩, sz1, memory)

/-- `exec` up to the commit.  `file` is the result of `namei`. -/
def execImage (memory : Memory) (trampoline trapframe : ℕ)
    (file : Option ProgramFile) (argv : List (List Byte)) :
    Except Panic (Option Image × Memory) :=
  match file with
  | none => return (none, memory)
  | some file => do
    let bytes := file.read 0 sizeofElf
    if bytes.length ≠ sizeofElf then
      return (none, memory)
    let elf := elfHeader bytes
    if elf.magic ≠ ELF_MAGIC then
      return (none, memory)
    match ← procPagetable memory trampoline trapframe with
    | (none, memory) => return (none, memory)
    | (some pagetable, memory) =>
      let (image, sz, memory) ← loadImage memory file elf pagetable argv
      match image with
      | none =>
        let memory ← procFreepagetable memory pagetable sz
        return (none, memory)
      | some image => return (some image, memory)

end Xv6.Exec
