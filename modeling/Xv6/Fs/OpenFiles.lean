import Xv6.Core.Interleaving
import Xv6.Panic
import Xv6.Param

/-!
# Open files

The file table of `kernel/file.c`, the ends of pipes, and the system calls that
create, copy and drop references to open files.  A reference is a descriptor or a
valid mapped area of a process.  System calls run one after the other; what they
learn from other parts of the kernel (a path lookup, an allocation, a copy to user
memory) is an argument of the action.
-/

namespace Xv6.OpenFiles

open Function

/-- The `type` of `struct file`. -/
inductive FileType where
  | none
  | pipe
  | inode
  | device
  deriving DecidableEq

/-- `struct file`; the number of a pipe stands for the address of its page. -/
structure File where
  type : FileType
  ref : ℕ
  readable : Bool
  writable : Bool
  pipe : ℕ

structure Pipe where
  readopen : Bool
  writeopen : Bool

/-- The file table and the pipes. -/
structure Files (N : ℕ) where
  file : Fin N → File
  pipe : ℕ → Pipe
  /-- History: the number of pipes so far, and how often each page was freed. -/
  pipes : ℕ
  frees : ℕ → ℕ

/-- A word that is used as a `struct file *`. -/
inductive Pointer (N : ℕ) where
  | file (k : Fin N)
  /-- The address four bytes before an entry: there `ref` is the `type` of the
  entry, and `writable` is the second byte of its `ref`. -/
  | before (k : Fin N)
  deriving DecidableEq

/-- `struct vm_area_struct`. -/
structure Vma (N : ℕ) where
  valid : Bool
  addr : BitVec 64
  len : BitVec 32
  prot : BitVec 32
  flag : BitVec 32
  f : Pointer N

inductive ProcState where
  | unused
  | running
  | zombie
  deriving DecidableEq

structure Proc (N : ℕ) where
  state : ProcState
  ofile : Fin NOFILE → Option (Fin N)
  vma : Fin NVMA → Vma N
  sz : BitVec 64

structure State (N : ℕ) (P : Type) where
  files : Files N
  proc : P → Proc N
  /-- The words in memory below `p->ofile`, where they are pointers to files:
  saved registers, and the earlier entries of the process table. -/
  below : P → ℕ → Option (Pointer N)

section Files
variable {N : ℕ}

def setFile (fs : Files N) (k : Fin N) (file : File) : Files N :=
  { fs with file := update fs.file k file }

def filealloc (fs : Files N) : Option (Fin N × Files N) :=
  ((List.finRange N).find? fun k => decide ((fs.file k).ref = 0)).map fun k =>
    (k, setFile fs k { fs.file k with ref := 1 })

def filedup (fs : Files N) (k : Fin N) : Except Panic (Files N) :=
  if (fs.file k).ref < 1 then .error .filedup
  else .ok (setFile fs k { fs.file k with ref := (fs.file k).ref + 1 })

def pipeclose (fs : Files N) (pi : ℕ) (writable : Bool) : Files N :=
  let pipe := if writable then { fs.pipe pi with writeopen := false }
    else { fs.pipe pi with readopen := false }
  { fs with
    pipe := update fs.pipe pi pipe
    frees := if pipe.readopen = false ∧ pipe.writeopen = false then
        update fs.frees pi (fs.frees pi + 1)
      else fs.frees }

def fileclose (fs : Files N) (k : Fin N) : Except Panic (Files N) :=
  let ff := fs.file k
  if ff.ref < 1 then .error .fileclose
  else if 0 < ff.ref - 1 then .ok (setFile fs k { ff with ref := ff.ref - 1 })
  else
    let closed := setFile fs k { ff with ref := 0, type := .none }
    if ff.type = .pipe then .ok (pipeclose closed ff.pipe ff.writable)
    else .ok closed

/-- The two ends of a new pipe, when all allocations have succeeded. -/
def pipeinit (fs : Files N) (f0 f1 : Fin N) : Files N :=
  let pi := fs.pipes
  let fs := { fs with
    pipe := update fs.pipe pi ⟨true, true⟩
    pipes := pi + 1
    frees := update fs.frees pi 0 }
  let fs := setFile fs f0 { fs.file f0 with
    type := .pipe, readable := true, writable := false, pipe := pi }
  setFile fs f1 { fs.file f1 with
    type := .pipe, readable := false, writable := true, pipe := pi }

/-- `pipealloc`; `page` says whether `kalloc` has a page. -/
def pipealloc (fs : Files N) (page : Bool) : Except Panic (Option (Fin N × Fin N) × Files N) :=
  match filealloc fs with
  | none => .ok (none, fs)
  | some (f0, fs) =>
    match filealloc fs with
    | none => (fileclose fs f0).map fun fs => (none, fs)
    | some (f1, fs) =>
      if page then .ok (some (f0, f1), pipeinit fs f0 f1)
      else
        ((fileclose fs f0).bind fun fs => fileclose fs f1).map fun fs => (none, fs)

end Files

section
variable {N : ℕ} {P : Type} [DecidableEq P]

def setOfile (pr : Proc N) (fd : Fin NOFILE) (file : Option (Fin N)) : Proc N :=
  { pr with ofile := update pr.ofile fd file }

def setVma (pr : Proc N) (i : Fin NVMA) (vma : Vma N) : Proc N :=
  { pr with vma := update pr.vma i vma }

def setProc (t : State N P) (p : P) (pr : Proc N) : State N P :=
  { t with proc := update t.proc p pr }

def fdalloc (pr : Proc N) : Option (Fin NOFILE) :=
  (List.finRange NOFILE).find? fun fd => decide (pr.ofile fd = none)

def argfd (pr : Proc N) (fd : ℤ) : Option (Fin NOFILE × Fin N) :=
  if h : 0 ≤ fd ∧ fd < NOFILE then
    let slot : Fin NOFILE := ⟨fd.toNat, toNat_lt_NOFILE h⟩
    (pr.ofile slot).map fun k => (slot, k)
  else none

/-- What the lookup in `sys_open` gives: the type of the file, and its modes. -/
structure Opened where
  device : Bool
  readable : Bool
  writable : Bool

/-- `sys_open`, where `found` is `none` for a return before `filealloc`. -/
def sysOpen (t : State N P) (p : P) (found : Option Opened) : Except Panic (State N P) :=
  match found with
  | none => .ok t
  | some opened =>
    match filealloc t.files with
    | none => .ok t
    | some (k, fs) =>
      match fdalloc (t.proc p) with
      | none => (fileclose fs k).map fun fs => { t with files := fs }
      | some fd =>
        .ok (setProc { t with
          files := setFile fs k { fs.file k with
            type := if opened.device then .device else .inode
            readable := opened.readable
            writable := opened.writable } } p
          (setOfile (t.proc p) fd (some k)))

def sysDup (t : State N P) (p : P) (fd : ℤ) : Except Panic (State N P) :=
  match argfd (t.proc p) fd with
  | none => .ok t
  | some (_, k) =>
    match fdalloc (t.proc p) with
    | none => .ok t
    | some new =>
      (filedup t.files k).map fun fs =>
        setProc { t with files := fs } p (setOfile (t.proc p) new (some k))

def sysClose (t : State N P) (p : P) (fd : ℤ) : Except Panic (State N P) :=
  match argfd (t.proc p) fd with
  | none => .ok t
  | some (slot, k) =>
    (fileclose t.files k).map fun fs =>
      setProc { t with files := fs } p (setOfile (t.proc p) slot none)

/-- The two calls of `fileclose` with which `sys_pipe` fails. -/
def closeBoth (t : State N P) (fs : Files N) (rf wf : Fin N) : Except Panic (State N P) :=
  ((fileclose fs rf).bind fun fs => fileclose fs wf).map fun fs => { t with files := fs }

/-- `sys_pipe`; `copied` says whether both calls of `copyout` succeed. -/
def sysPipe (t : State N P) (p : P) (page copied : Bool) : Except Panic (State N P) :=
  match pipealloc t.files page with
  | .error panic => .error panic
  | .ok (none, fs) => .ok { t with files := fs }
  | .ok (some (rf, wf), fs) =>
    match fdalloc (t.proc p) with
    | none => closeBoth t fs rf wf
    | some fd0 =>
      let first := setOfile (t.proc p) fd0 (some rf)
      match fdalloc first with
      | none => closeBoth (setProc t p (setOfile first fd0 none)) fs rf wf
      | some fd1 =>
        let second := setOfile first fd1 (some wf)
        if copied then .ok (setProc { t with files := fs } p second)
        else
          closeBoth (setProc t p (setOfile (setOfile second fd0 none) fd1 none)) fs rf wf

/-- The word that `sys_mmap` takes from `p->ofile[fd]`; `none` is no pointer to a
file. -/
def mmapFile (t : State N P) (p : P) (fd : ℤ) : Option (Pointer N) :=
  if fd < 0 then t.below p (-fd).toNat
  else (argfd (t.proc p) fd).map fun found => .file found.2

def FileType.code : FileType → ℕ
  | .none => 0
  | .pipe => 1
  | .inode => 2
  | .device => 3

/-- The type with the next number; there are no files with type 4. -/
def FileType.next : FileType → FileType
  | .none => .pipe
  | .pipe => .inode
  | .inode => .device
  | .device => .device

def pointerWritable (fs : Files N) : Pointer N → Bool
  | .file k => (fs.file k).writable
  | .before k => decide ((fs.file k).ref / 256 % 256 ≠ 0)

def pointerDup (fs : Files N) : Pointer N → Except Panic (Files N)
  | .file k => filedup fs k
  | .before k =>
    if (fs.file k).type.code < 1 then .error .filedup
    else .ok (setFile fs k { fs.file k with type := (fs.file k).type.next })

def sysMmap (t : State N P) (p : P) (len prot flag : BitVec 32) (fd : ℤ) :
    Option (Except Panic (State N P)) :=
  if (NOFILE : ℤ) ≤ fd then none
  else
    match mmapFile t p fd with
    | none => some (.error .kerneltrap)
    | some f =>
      if pointerWritable t.files f = false ∧ prot &&& PROT_WRITE ≠ 0 ∧
          flag &&& MAP_PRIVATE = 0 then none
      else
        match (List.finRange NVMA).find? fun i =>
            decide (((t.proc p).vma i).valid = false) with
        | none => none
        | some i =>
          some ((pointerDup t.files f).map fun fs =>
            setProc { t with files := fs } p { setVma (t.proc p) i
                  ⟨true, (t.proc p).sz, len, prot, flag, f⟩ with
                sz := (t.proc p).sz + len.signExtend 64 })

def covers (vma : Vma N) (addr : BitVec 64) (len : BitVec 32) : Bool :=
  vma.valid && decide (vma.addr ≤ addr) &&
    decide (addr + len.signExtend 64 ≤ vma.addr + vma.len.signExtend 64)

/-- `sys_munmap`.  `filewrite` and `uvmunmap` do not change references. -/
def sysMunmap (t : State N P) (p : P) (addr : BitVec 64) (len : BitVec 32) :
    Option (Except Panic (State N P)) :=
  let pr := t.proc p
  match (List.finRange NVMA).find? fun i => covers (pr.vma i) addr len with
  | none => some (.ok t)
  | some i =>
    let vma := pr.vma i
    let rest : Vma N := { vma with
      addr := if addr = vma.addr then addr + len.signExtend 64 else vma.addr
      len := vma.len - len }
    if rest.len = 0 then
      match vma.f with
      | .file k =>
        some ((fileclose t.files k).map fun fs =>
          setProc { t with files := fs } p (setVma pr i { rest with valid := false }))
      -- What `fileclose` does at such an address is not modelled.
      | .before _ => none
    else some (.ok (setProc t p (setVma pr i rest)))

/-- One iteration of the loop of `fork` over the mapped areas. -/
def forkVma (p child : P) (t : State N P) (i : Fin NVMA) : Except Panic (State N P) :=
  let vma := (t.proc p).vma i
  if vma.valid then
    (pointerDup t.files vma.f).map fun fs =>
      setProc { t with files := fs } child (setVma (t.proc child) i vma)
  else .ok t

/-- One iteration of the loop of `fork` over the descriptors. -/
def forkFile (p child : P) (t : State N P) (fd : Fin NOFILE) : Except Panic (State N P) :=
  match (t.proc p).ofile fd with
  | none => .ok t
  | some k =>
    (filedup t.files k).map fun fs =>
      setProc { t with files := fs } child (setOfile (t.proc child) fd (some k))

def allocproc (pr : Proc N) : Proc N := { pr with vma := fun i => { pr.vma i with valid := false } }

/-- `fork`, after `allocproc` has found `child`; `copied` says whether `uvmcopy`
succeeds. -/
def fork (t : State N P) (p child : P) (copied : Bool) : Except Panic (State N P) :=
  let t := setProc t child (allocproc (t.proc child))
  if copied then
    let t := setProc t child { t.proc child with
      state := .running, sz := (t.proc p).sz }
    (List.finRange NVMA).foldlM (forkVma p child) t >>=
      (List.finRange NOFILE).foldlM (forkFile p child)
  else .ok t

/-- One iteration of the loop of `exit` over the descriptors. -/
def exitFile (p : P) (t : State N P) (fd : Fin NOFILE) : Except Panic (State N P) :=
  match (t.proc p).ofile fd with
  | none => .ok t
  | some k =>
    (fileclose t.files k).map fun fs =>
      setProc { t with files := fs } p (setOfile (t.proc p) fd none)

/-- One iteration of the loop of `exit` over the mapped areas. -/
def exitVma (p : P) (t : State N P) (i : Fin NVMA) : Except Panic (State N P) :=
  let vma := (t.proc p).vma i
  if vma.valid then
    match vma.f with
    | .file k =>
      (fileclose t.files k).map fun fs =>
        setProc { t with files := fs } p (setVma (t.proc p) i { vma with valid := false })
    | .before _ => .error .kerneltrap
  else .ok t

def exit (t : State N P) (p : P) : Except Panic (State N P) := do
  let t ← (List.finRange NOFILE).foldlM (exitFile p) t
  let t ← (List.finRange NVMA).foldlM (exitVma p) t
  .ok (setProc t p { t.proc p with state := .zombie })

inductive Call (P : Type) where
  | open (found : Option Opened)
  | dup (fd : ℤ)
  | close (fd : ℤ)
  | pipe (page copied : Bool)
  | mmap (len prot flag : BitVec 32) (fd : ℤ)
  | munmap (addr : BitVec 64) (len : BitVec 32)
  /-- `none`: `allocproc` fails. -/
  | fork (child : Option P) (copied : Bool)
  | exit
  /-- `wait` frees a zombie. -/
  | wait (child : P)

/-- A system call of a running process; `none` where it is not modelled. -/
def exec (initproc : P) (t : State N P) : P × Call P → Option (Except Panic (State N P))
  | (p, call) =>
    if (t.proc p).state = .running then
      match call with
      | .open found => some (sysOpen t p found)
      | .dup fd => some (sysDup t p fd)
      | .close fd => some (sysClose t p fd)
      | .pipe page copied => some (sysPipe t p page copied)
      | .mmap len prot flag fd => sysMmap t p len prot flag fd
      | .munmap addr len => sysMunmap t p addr len
      | .fork none _ => some (.ok t)
      | .fork (some child) copied =>
        if (t.proc child).state = .unused then some (fork t p child copied)
        else none
      | .exit => if p = initproc then some (.error .initExiting) else some (exit t p)
      | .wait child =>
        if (t.proc child).state = .zombie then
          some (.ok (setProc t child { t.proc child with state := .unused }))
        else none
    else none

end

end Xv6.OpenFiles
