import Xv6.Param
import Xv6.Proc.Scheduling

/-!
# Free slots of the process table

The system calls that change `proc[]`, one after the other: `fork`, `exit`, `wait`,
`exec`, `mmap`, `munmap`, `kill`, `open`, `close` and `chdir`, with the scheduler
between them.  The fields of a slot are those that `allocproc`, `freeproc`, `fork`
and `exit` clear or copy; `context`, `kstack` and `name` are left out.  Pointers are
numbers, and what allocations and copies do is an argument of the call.
-/

namespace Xv6.FreeSlots

open Interleaving Function
open Scheduling (ProcState)

def NPROC : ℕ := 64

abbrev Slot := Fin NPROC

instance : NeZero NPROC := ⟨by decide⟩

/-- `struct vm_area_struct`. -/
structure Vma where
  addr : BitVec 64
  len : BitVec 32
  prot : BitVec 32
  flag : BitVec 32
  f : ℕ
  offset : BitVec 32
  fd : ℤ
  valid : Bool
  deriving DecidableEq

/-- The fields of `struct proc`; null pointers are `none`. -/
structure Proc where
  state : ProcState
  pid : ℤ
  killed : Bool
  chan : Option Slot
  parent : Option Slot
  xstate : ℤ
  sz : BitVec 64
  pagetable : Option ℕ
  trapframe : Option ℕ
  ofile : Fin NOFILE → Option ℕ
  cwd : Option ℕ
  vma : Fin NVMA → Vma

structure State where
  proc : Slot → Proc
  nextpid : ℤ
  initproc : Slot

def setProc (t : State) (q : Slot) (pr : Proc) : State := { t with proc := update t.proc q pr }

@[simp]
theorem setProc_self (t : State) (q : Slot) (pr : Proc) : (setProc t q pr).proc q = pr :=
  update_self _ _ _

theorem setProc_ne (t : State) {q other : Slot} (ho : other ≠ q) (pr : Proc) :
    (setProc t q pr).proc other = t.proc other :=
  update_of_ne ho _ _

def clearVmas (pr : Proc) : Proc := { pr with vma := fun i => { pr.vma i with valid := false } }

def freeproc (pr : Proc) : Proc :=
  { pr with
    trapframe := none
    pagetable := none
    sz := 0
    pid := 0
    parent := none
    chan := none
    killed := false
    xstate := 0
    state := .unused }

/-- `allocproc`: the slot found, whether the allocations succeeded, and the state. -/
def allocproc (t : State) (trapframe pagetable : Option ℕ) : Option (Slot × Bool × State) :=
  ((List.finRange NPROC).find? fun q => decide ((t.proc q).state = .unused)).map fun q =>
      let t := { t with nextpid := t.nextpid + 1 }
      let pr := { t.proc q with pid := t.nextpid - 1, state := .used }
      match trapframe with
      | none => (q, false, setProc t q (freeproc { pr with trapframe := none }))
      | some frame =>
        match pagetable with
        | none =>
          (q, false, setProc t q (freeproc { pr with
            trapframe := some frame, pagetable := none }))
        | some table =>
          (q, true, setProc t q (clearVmas { pr with
            trapframe := some frame, pagetable := some table }))

/-- The loops of `fork` over `p->vma` and `p->ofile`, and the fields after them. -/
def copyProc (parent child : Proc) (p : Slot) : Proc :=
  { child with
    sz := parent.sz
    vma := fun i => if (parent.vma i).valid = true then parent.vma i else child.vma i
    ofile := fun fd => if parent.ofile fd = none then child.ofile fd
      else parent.ofile fd
    cwd := parent.cwd
    parent := some p
    state := .runnable }

/-- What the allocations in `fork` return. -/
structure ForkOutcome where
  trapframe : Option ℕ
  pagetable : Option ℕ
  /-- Whether `uvmcopy` succeeds. -/
  copied : Bool
  deriving DecidableEq

/-- `fork`: the slot of the child, or `none` for the result -1. -/
def fork (t : State) (p : Slot) (outcome : ForkOutcome) : Option Slot × State :=
  match allocproc t outcome.trapframe outcome.pagetable with
  | none => (none, t)
  | some (_, false, t) => (none, t)
  | some (np, true, t) =>
    if outcome.copied then
      (some np, setProc t np (copyProc (t.proc p) (t.proc np) p))
    else (none, setProc t np (freeproc (t.proc np)))

/-- The effect of `wakeup(chan)` on a slot other than that of the caller. -/
def wake (chan : Option Slot) (pr : Proc) : Proc :=
  if pr.state = .sleeping ∧ pr.chan = chan then { pr with state := .runnable }
  else pr

def wakeup (t : State) (p : Slot) (chan : Option Slot) : State :=
  { t with proc := fun q => if q = p then t.proc q else wake chan (t.proc q) }

def adopt (initproc p : Slot) (pr : Proc) : Proc :=
  if pr.parent = some p then { pr with parent := some initproc } else pr

/-- `reparent(p)`; the calls of `wakeup(initproc)` in the loop have the effect of
one. -/
def reparent (t : State) (p : Slot) : State :=
  let adopted := { t with proc := fun q => adopt t.initproc p (t.proc q) }
  if ∃ q, (t.proc q).parent = some p then wakeup adopted p (some t.initproc)
  else adopted

def exit (t : State) (p : Slot) (status : ℤ) : Except Panic State :=
  if p = t.initproc then .error .initExiting
  else
    let t := setProc t p { clearVmas { t.proc p with ofile := fun _ => none } with
      cwd := none }
    let t := reparent t p
    let t := wakeup t p (t.proc p).parent
    .ok (setProc t p { t.proc p with xstate := status, state := .zombie })

/-- One round of the loop of `wait`; `copied` says whether there is no address or
`copyout` succeeds. -/
def wait (t : State) (p : Slot) (copied : Bool) : State :=
  match (List.finRange NPROC).find? fun np =>
      decide ((t.proc np).parent = some p ∧ (t.proc np).state = .zombie) with
  | some np => if copied then setProc t np (freeproc (t.proc np)) else t
  | none =>
    if (¬ ∃ np, (t.proc np).parent = some p) ∨ (t.proc p).killed = true then t
    else setProc t p { t.proc p with chan := some p, state := .sleeping }

/-- `exec`; `image` is the new page table and size, or `none` for a failure. -/
def execImage (t : State) (p : Slot) (image : Option (ℕ × BitVec 64)) : State :=
  match image with
  | none => t
  | some (pagetable, sz) => setProc t p { t.proc p with pagetable := some pagetable, sz := sz }

/-- The arguments of `mmap`.  `f` is the pointer that `p->ofile[fd]` gives, also for
a negative `fd`, and `writable` is `f->writable`. -/
structure MmapArgs where
  len : BitVec 32
  prot : BitVec 32
  flag : BitVec 32
  fd : ℤ
  f : ℕ
  writable : Bool
  deriving DecidableEq

def mmap (t : State) (p : Slot) (args : MmapArgs) : State :=
  let pr := t.proc p
  if NOFILE ≤ args.fd then t
  else if args.writable = false ∧ args.prot &&& PROT_WRITE ≠ 0 ∧
      args.flag &&& MAP_PRIVATE = 0 then t
  else
    match (List.finRange NVMA).find? fun i => decide ((pr.vma i).valid = false) with
    | none => t
    | some i =>
      setProc t p { pr with
        vma := update pr.vma i ⟨pr.sz, args.len, args.prot, args.flag, args.f, 0, args.fd, true⟩
        sz := pr.sz + args.len.signExtend 64 }

/-- The end of a mapping, in the arithmetic of `uint64`. -/
def vmaEnd (addr : BitVec 64) (len : BitVec 32) : BitVec 64 := addr + len.signExtend 64

def munmap (t : State) (p : Slot) (addr : BitVec 64) (len : BitVec 32) : State :=
  let pr := t.proc p
  match (List.finRange NVMA).find? fun i => decide ((pr.vma i).valid = true ∧
      (pr.vma i).addr ≤ addr ∧
      vmaEnd addr len ≤ vmaEnd (pr.vma i).addr (pr.vma i).len) with
  | none => t
  | some i =>
    let vma := pr.vma i
    setProc t p { pr with vma := update pr.vma i { vma with
      addr := if addr = vma.addr then vmaEnd addr len else vma.addr
      len := vma.len - len
      valid := decide (vma.len - len ≠ 0) } }

/-- `kill(pid)`: the first slot with this `pid`, in whatever state it is. -/
def kill (t : State) (pid : ℤ) : State :=
  match (List.finRange NPROC).find? fun q => decide ((t.proc q).pid = pid) with
  | none => t
  | some q =>
    let pr := { t.proc q with killed := true }
    setProc t q (if pr.state = .sleeping then { pr with state := .runnable }
      else pr)

/-- `open`: `fdalloc` of a file, if the file was found. -/
def openFile (t : State) (p : Slot) (file : Option ℕ) : State :=
  match file with
  | none => t
  | some f =>
    match (List.finRange NOFILE).find? fun fd =>
        decide ((t.proc p).ofile fd = none) with
    | none => t
    | some fd =>
      setProc t p { t.proc p with
        ofile := update (t.proc p).ofile fd (some f) }

def close (t : State) (p : Slot) (fd : ℤ) : State :=
  if h : 0 ≤ fd ∧ fd < NOFILE then
    setProc t p { t.proc p with
      ofile := update (t.proc p).ofile ⟨fd.toNat, toNat_lt_NOFILE h⟩ none }
  else t

/-- `chdir`; `ip` is `none` when there is no such directory. -/
def chdir (t : State) (p : Slot) (ip : Option ℕ) : State :=
  match ip with
  | none => t
  | some ip => setProc t p { t.proc p with cwd := some ip }

inductive Call where
  | fork (outcome : ForkOutcome)
  | exit (status : ℤ)
  | wait (copied : Bool)
  | exec (image : Option (ℕ × BitVec 64))
  | mmap (args : MmapArgs)
  | munmap (addr : BitVec 64) (len : BitVec 32)
  | kill (pid : ℤ)
  | openFile (file : Option ℕ)
  | close (fd : ℤ)
  | chdir (ip : Option ℕ)
  deriving DecidableEq

inductive Action where
  /-- The scheduler switches to a process, which clears `p->chan` if it was in
  `sleep`. -/
  | schedule (q : Slot)
  /-- The process gives up the CPU. -/
  | yield (q : Slot)
  | call (p : Slot) (call : Call)
  deriving DecidableEq

def perform (t : State) (p : Slot) : Call → Except Panic State
  | .fork outcome => .ok (fork t p outcome).2
  | .exit status => exit t p status
  | .wait copied => .ok (wait t p copied)
  | .exec image => .ok (execImage t p image)
  | .mmap args => .ok (mmap t p args)
  | .munmap addr len => .ok (munmap t p addr len)
  | .kill pid => .ok (kill t pid)
  | .openFile file => .ok (openFile t p file)
  | .close fd => .ok (close t p fd)
  | .chdir ip => .ok (chdir t p ip)

def step (t : State) : Action → Option (Except Panic State)
  | .schedule q =>
    if (t.proc q).state = .runnable then
      some (.ok (setProc t q { t.proc q with state := .running, chan := none }))
    else none
  | .yield q =>
    if (t.proc q).state = .running then
      some (.ok (setProc t q { t.proc q with state := .runnable }))
    else none
  | .call p call => if (t.proc p).state = .running then some (perform t p call) else none

/-! ## Clean slots -/

/-- No descriptor, directory or mapping. -/
structure Emptied (pr : Proc) : Prop where
  ofile : ∀ fd, pr.ofile fd = none
  cwd : pr.cwd = none
  vma : ∀ i, (pr.vma i).valid = false

/-- A slot as `procinit` and `freeproc` leave it. -/
structure Clean (pr : Proc) : Prop extends Emptied pr where
  pid : pr.pid = 0
  killed : pr.killed = false
  chan : pr.chan = none
  parent : pr.parent = none
  xstate : pr.xstate = 0
  sz : pr.sz = 0
  pagetable : pr.pagetable = none
  trapframe : pr.trapframe = none

/-- What a slot must satisfy in its state. -/
structure Tidy (pr : Proc) : Prop where
  unused : pr.state = .unused → Clean pr
  zombie : pr.state = .zombie → Emptied pr

/-- Every slot but that of `init` is free. -/
structure Initial (t : State) : Prop where
  free : ∀ q, q ≠ t.initproc → (t.proc q).state = .unused ∧ Clean (t.proc q)
  init : (t.proc t.initproc).state = .runnable

def AllTidy (t : State) : Prop := ∀ q, Tidy (t.proc q)

section
variable {t after : State} {p q : Slot} {pr : Proc}

theorem tidy_busy (hunused : pr.state ≠ .unused) (hzombie : pr.state ≠ .zombie) : Tidy pr :=
  ⟨fun h => absurd h hunused, fun h => absurd h hzombie⟩

theorem tidy_state (hstate : pr.state = .running) : Tidy pr :=
  tidy_busy (by rw [hstate]; decide) (by rw [hstate]; decide)

theorem AllTidy.set (htidy : AllTidy t) (hpr : Tidy pr) : AllTidy (setProc t q pr) := by
  intro other
  by_cases ho : other = q
  · subst ho
    rw [setProc_self]
    exact hpr
  · rw [setProc_ne t ho]
    exact htidy other

theorem freeproc_clean (hnil : Emptied pr) : Clean (freeproc pr) :=
  ⟨⟨hnil.ofile, hnil.cwd, hnil.vma⟩, rfl, rfl, rfl, rfl, rfl, rfl, rfl, rfl⟩

theorem freeproc_tidy (hnil : Emptied pr) : Tidy (freeproc pr) :=
  ⟨fun _ => freeproc_clean hnil, fun h => by cases h⟩

theorem allocproc_spec (htidy : AllTidy t) {trapframe pagetable : Option ℕ}
    {done : Bool} (halloc : allocproc t trapframe pagetable = some (q, done, after)) :
    (t.proc q).state = .unused ∧ AllTidy after ∧ after.initproc = t.initproc ∧
      (∀ other, other ≠ q → after.proc other = t.proc other) ∧
      (done = true → Emptied (after.proc q) ∧ (after.proc q).killed = false ∧
        (after.proc q).state = .used) := by
  rw [allocproc, Option.map_eq_some_iff] at halloc
  obtain ⟨slot, hf, halloc⟩ := halloc
  have hunused : (t.proc slot).state = .unused := by simpa using List.find?_some hf
  have hclean := (htidy slot).unused hunused
  have htidy' : AllTidy { t with nextpid := t.nextpid + 1 } := htidy
  cases trapframe with
  | none =>
    simp only [Prod.mk.injEq] at halloc
    obtain ⟨rfl, rfl, rfl⟩ := halloc
    refine ⟨hunused, htidy'.set (freeproc_tidy ⟨hclean.ofile, hclean.cwd,
      hclean.vma⟩), rfl, fun other ho => ?_, fun h => by cases h⟩
    exact setProc_ne _ ho _
  | some frame =>
    cases pagetable with
    | none =>
      simp only [Prod.mk.injEq] at halloc
      obtain ⟨rfl, rfl, rfl⟩ := halloc
      refine ⟨hunused, htidy'.set (freeproc_tidy ⟨hclean.ofile, hclean.cwd,
        hclean.vma⟩), rfl, fun other ho => ?_, fun h => by cases h⟩
      exact setProc_ne _ ho _
    | some table =>
      simp only [Prod.mk.injEq] at halloc
      obtain ⟨rfl, rfl, rfl⟩ := halloc
      refine ⟨hunused, htidy'.set (tidy_busy ?_ ?_), rfl, fun other ho => ?_, fun _ => ?_⟩
      · simp [clearVmas]
      · simp [clearVmas]
      · exact setProc_ne _ ho _
      · rw [setProc_self]
        exact ⟨⟨hclean.ofile, hclean.cwd, fun _ => rfl⟩, hclean.killed, rfl⟩

theorem fork_tidy (htidy : AllTidy t) (outcome : ForkOutcome) : AllTidy (fork t p outcome).2 := by
  unfold fork
  split
  · exact htidy
  case h_2 halloc => exact (allocproc_spec htidy halloc).2.1
  case h_3 np after halloc =>
    obtain ⟨-, hafter, -, -, hdone⟩ := allocproc_spec htidy halloc
    split
    · exact hafter.set (tidy_busy (by simp [copyProc]) (by simp [copyProc]))
    · exact hafter.set (freeproc_tidy (hdone rfl).1)

/-- The child has the descriptors, the directory and the valid mappings of its
parent, and is not killed. -/
theorem fork_child (htidy : AllTidy t) (hrun : (t.proc p).state = .running)
    {outcome : ForkOutcome} {child : Slot} (hfork : fork t p outcome = (some child, after)) :
    (after.proc child).ofile = (t.proc p).ofile ∧ (after.proc child).killed = false ∧
      (after.proc child).cwd = (t.proc p).cwd ∧
      ∀ i, ((after.proc child).vma i).valid = ((t.proc p).vma i).valid := by
  unfold fork at hfork
  split at hfork
  · cases hfork
  · cases hfork
  case h_3 np middle halloc =>
    obtain ⟨hunused, -, -, ho, hdone⟩ := allocproc_spec htidy halloc
    obtain ⟨hnil, hkilled, -⟩ := hdone rfl
    split at hfork
    case isFalse => cases hfork
    case isTrue =>
      rw [Prod.mk.injEq, Option.some.injEq] at hfork
      obtain ⟨rfl, rfl⟩ := hfork
      -- the parent is running, so its slot is not the one that was free
      have hpar : middle.proc p = t.proc p := by
        refine ho p ?_
        rintro rfl
        rw [hunused] at hrun
        cases hrun
      rw [setProc_self, hpar]
      refine ⟨?_, hkilled, rfl, ?_⟩
      · funext fd
        simp only [copyProc, hnil.ofile]
        split
        case isTrue hnone => exact hnone.symm
        case isFalse => rfl
      · intro i
        simp only [copyProc]
        split
        · rfl
        case isFalse hval =>
          rw [Bool.not_eq_true] at hval
          rw [hnil.vma, hval]

/-- `wakeup` and `reparent` change nothing that a free slot or a zombie must
satisfy. -/
theorem wake_tidy (chan : Option Slot) (hpr : Tidy pr) : Tidy (wake chan pr) := by
  unfold wake
  split
  · exact tidy_busy (by simp) (by simp)
  · exact hpr

theorem adopt_tidy (initproc p : Slot) (hpr : Tidy pr) : Tidy (adopt initproc p pr) := by
  unfold adopt
  split
  case isFalse => exact hpr
  case isTrue hpar =>
    constructor
    · intro hunused
      rw [(hpr.unused hunused).parent] at hpar
      cases hpar
    · intro hzombie
      have hnil := hpr.zombie hzombie
      exact ⟨hnil.ofile, hnil.cwd, hnil.vma⟩

theorem wakeup_tidy (htidy : AllTidy t) (p : Slot) (chan : Option Slot) :
    AllTidy (wakeup t p chan) := by
  intro q
  simp only [wakeup]
  split
  · exact htidy q
  · exact wake_tidy chan (htidy q)

theorem reparent_tidy (htidy : AllTidy t) (p : Slot) : AllTidy (reparent t p) := by
  have hadopted : AllTidy { t with proc := fun q => adopt t.initproc p (t.proc q) } :=
    fun q => adopt_tidy t.initproc p (htidy q)
  unfold reparent
  simp only
  split
  · exact wakeup_tidy hadopted p _
  · exact hadopted

theorem reparent_emptied {p : Slot} (hnil : Emptied (t.proc p)) :
    Emptied ((reparent t p).proc p) := by
  have hadopted : Emptied (adopt t.initproc p (t.proc p)) := by
    unfold adopt
    split
    · exact ⟨hnil.ofile, hnil.cwd, hnil.vma⟩
    · exact hnil
  unfold reparent
  simp only
  split
  · simp only [wakeup, if_true]
    exact hadopted
  · exact hadopted

theorem exit_tidy (htidy : AllTidy t) (hrun : (t.proc p).state = .running)
    {status : ℤ} (hexit : exit t p status = .ok after) : AllTidy after := by
  unfold exit at hexit
  split at hexit
  · cases hexit
  · simp only [Except.ok.injEq] at hexit
    subst hexit
    set closed := setProc t p { clearVmas { t.proc p with ofile := fun _ => none } with
      cwd := none } with hclosed
    have hclosedTidy : AllTidy closed := htidy.set (tidy_state hrun)
    have hnil : Emptied (closed.proc p) := by
      rw [hclosed, setProc_self]
      exact ⟨fun _ => rfl, rfl, fun _ => rfl⟩
    refine (wakeup_tidy (reparent_tidy hclosedTidy p) p _).set ⟨fun h => ?_, fun _ => ?_⟩
    · cases h
    · have hsame := reparent_emptied hnil
      simp only [wakeup, if_true]
      exact ⟨hsame.ofile, hsame.cwd, hsame.vma⟩

theorem wait_tidy (htidy : AllTidy t) (p : Slot) (copied : Bool) : AllTidy (wait t p copied) := by
  unfold wait
  split
  case h_1 np hf =>
    have hzombie := List.find?_some hf
    rw [decide_eq_true_iff] at hzombie
    split
    · exact htidy.set (freeproc_tidy ((htidy np).zombie hzombie.2))
    · exact htidy
  case h_2 =>
    split
    · exact htidy
    · exact htidy.set (tidy_busy (by simp) (by simp))

theorem kill_tidy (htidy : AllTidy t) {pid : ℤ} (hpid : pid ≠ 0) : AllTidy (kill t pid) := by
  unfold kill
  split
  · exact htidy
  case h_2 q hf =>
    have hsame := List.find?_some hf
    rw [decide_eq_true_iff] at hsame
    simp only
    refine htidy.set ?_
    split
    · exact tidy_busy (by simp) (by simp)
    · constructor
      · intro hunused
        have hzero := ((htidy q).unused hunused).pid
        exact absurd (hsame.symm.trans hzero) hpid
      · intro hzombie
        have hnil := (htidy q).zombie hzombie
        exact ⟨hnil.ofile, hnil.cwd, hnil.vma⟩

theorem AllTidy.own (htidy : AllTidy t) (hstate : pr.state = .running) : AllTidy (setProc t p pr) :=
  htidy.set (tidy_state hstate)

theorem mmap_tidy (htidy : AllTidy t) (hrun : (t.proc p).state = .running)
    (args : MmapArgs) : AllTidy (mmap t p args) := by
  unfold mmap
  simp only
  split
  · exact htidy
  · split
    · exact htidy
    · split
      · exact htidy
      · exact htidy.own hrun

theorem munmap_tidy (htidy : AllTidy t) (hrun : (t.proc p).state = .running)
    (addr : BitVec 64) (len : BitVec 32) : AllTidy (munmap t p addr len) := by
  unfold munmap
  simp only
  split
  · exact htidy
  · exact htidy.own hrun

theorem openFile_tidy (htidy : AllTidy t) (hrun : (t.proc p).state = .running)
    (file : Option ℕ) : AllTidy (openFile t p file) := by
  unfold openFile
  split
  · exact htidy
  · split
    · exact htidy
    · exact htidy.own hrun

theorem close_tidy (htidy : AllTidy t) (hrun : (t.proc p).state = .running)
    (fd : ℤ) : AllTidy (close t p fd) := by
  unfold close
  split
  · exact htidy.own hrun
  · exact htidy

def NonzeroKill (_ : State) : Action → Prop
  | .call _ (.kill pid) => pid ≠ 0
  | _ => True

instance (t : State) (action : Action) : Decidable (NonzeroKill t action) := by
  unfold NonzeroKill
  split <;> infer_instance

theorem perform_tidy (htidy : AllTidy t) (hrun : (t.proc p).state = .running)
    {call : Call} (hkill : NonzeroKill t (.call p call))
    (hperf : perform t p call = .ok after) : AllTidy after := by
  cases call with
  | fork outcome =>
    cases hperf
    exact fork_tidy htidy outcome
  | exit status => exact exit_tidy htidy hrun hperf
  | wait copied =>
    cases hperf
    exact wait_tidy htidy p copied
  | exec image =>
    cases hperf
    cases image with
    | none => exact htidy
    | some image => exact htidy.own hrun
  | mmap args =>
    cases hperf
    exact mmap_tidy htidy hrun args
  | munmap addr len =>
    cases hperf
    exact munmap_tidy htidy hrun addr len
  | kill pid =>
    cases hperf
    exact kill_tidy htidy hkill
  | openFile file =>
    cases hperf
    exact openFile_tidy htidy hrun file
  | close fd =>
    cases hperf
    exact close_tidy htidy hrun fd
  | chdir ip =>
    cases hperf
    cases ip with
    | none => exact htidy
    | some ip => exact htidy.own hrun

theorem step_tidy (htidy : AllTidy t) {action : Action}
    (hkill : NonzeroKill t action) (hstep : step t action = some (.ok after)) : AllTidy after := by
  cases action with
  | schedule q =>
    simp only [step] at hstep
    split at hstep <;> cases hstep
    exact htidy.own rfl
  | yield q =>
    simp only [step] at hstep
    split at hstep <;> cases hstep
    exact htidy.set (tidy_busy (by simp) (by simp))
  | call p call =>
    simp only [step] at hstep
    split at hstep
    case isFalse => cases hstep
    case isTrue hrun => exact perform_tidy htidy hrun hkill (Option.some.inj hstep)

theorem runs_tidy (hruns : Reachable step NonzeroKill Initial t) : AllTidy t := by
  refine @Reachable.invariant _ _ _ _ _ _ AllTidy t hruns ?_ ?_
  · intro t hinit q
    by_cases hq : q = t.initproc
    · subst hq
      exact tidy_busy (by rw [hinit.init]; decide) (by rw [hinit.init]; decide)
    · obtain ⟨hunused, hclean⟩ := hinit.free q hq
      exact ⟨fun _ => hclean, fun hzombie => by rw [hunused] at hzombie; cases hzombie⟩
  · intro t action after htidy hkill hstep
    exact step_tidy htidy hkill hstep

/-- In every run in which no `kill` has the number 0, the free slots are clean, and
the child of a `fork` has the descriptors of its parent and is not killed. -/
theorem free_slots_clean (t : State) (hruns : Reachable step NonzeroKill Initial t) :
    (∀ q, (t.proc q).state = .unused → Clean (t.proc q)) ∧
    ∀ p outcome child after, (t.proc p).state = .running → fork t p outcome = (some child, after) →
      (after.proc child).ofile = (t.proc p).ofile ∧ (after.proc child).killed = false ∧
        (after.proc child).cwd = (t.proc p).cwd ∧
        ∀ i, ((after.proc child).vma i).valid = ((t.proc p).vma i).valid := by
  have htidy := runs_tidy hruns
  refine ⟨fun q => (htidy q).unused, ?_⟩
  intro p outcome child after hrunning hfork
  exact fork_child htidy hrunning hfork

end

/-! ## A killed slot -/

def blank : Proc where
  state := .unused
  pid := 0
  killed := false
  chan := none
  parent := none
  xstate := 0
  sz := 0
  pagetable := none
  trapframe := none
  ofile _ := none
  cwd := none
  vma _ := ⟨0, 0, 0, 0, 0, 0, 0, false⟩

def booted : State where
  proc q :=
    if q = 0 then
      { blank with
        state := .runnable
        pid := 1
        sz := 4096
        pagetable := some 1
        trapframe := some 2
        cwd := some 1 }
    else blank
  nextpid := 2
  initproc := 0

theorem booted_initial : Initial booted := by
  refine ⟨?_, rfl⟩
  intro q hq
  have hblank : booted.proc q = blank := if_neg hq
  rw [hblank]
  exact ⟨rfl, ⟨fun _ => rfl, rfl, fun _ => rfl⟩, rfl, rfl, rfl, rfl, rfl, rfl, rfl, rfl⟩

/-- The slot of the child of a `fork` by `init` that succeeds. -/
def forked (t : State) : Option Proc :=
  match fork t 0 ⟨some 3, some 4, true⟩ with
  | (some child, after) => some (after.proc child)
  | (none, _) => none

/-- `init` forks, the child exits and `init` waits for it; the slot is clean. -/
theorem free_slots_clean_reaped : ∃ t, Reachable step NonzeroKill Initial t ∧ t.nextpid = 3 ∧
      (t.proc 1).state = .unused ∧ Clean (t.proc 1) := by
  obtain ⟨t, hruns, htest⟩ := @exists_reachable State Action Panic step NonzeroKill
    Initial (fun t action => decide (NonzeroKill t action))
    (fun t => decide (t.nextpid = 3 ∧ (t.proc 1).state = .unused)) booted
    [.schedule 0, .call 0 (.openFile (some 7)), .call 0 (.fork ⟨some 3, some 4, true⟩),
      .schedule 1, .call 1 (.exit 5), .call 0 (.wait true)]
    booted_initial (fun _ _ hcheck => of_decide_eq_true hcheck) (by decide +kernel)
  obtain ⟨hpid, hunused⟩ := of_decide_eq_true htest
  exact ⟨t, hruns, hpid, hunused, (free_slots_clean t hruns).1 1 hunused⟩

/-- `kill(0)` kills a free slot, and the next child is killed from the start. -/
theorem kill_zero_marks_free_slot :
    ∃ t, Reachable step (fun _ _ => True) Initial t ∧ (t.proc 1).state = .unused ∧
      (t.proc 1).killed = true ∧ (forked t).map Proc.killed = some true := by
  obtain ⟨t, hruns, htest⟩ := @exists_reachable State Action Panic step
    (fun _ _ => True) Initial (fun _ _ => true)
    (fun t => decide ((t.proc 1).state = .unused ∧ (t.proc 1).killed = true ∧
      (forked t).map Proc.killed = some true)) booted
    [.schedule 0, .call 0 (.kill 0)]
    booted_initial (fun _ _ _ => trivial) (by decide +kernel)
  have hkilled := of_decide_eq_true htest
  exact ⟨t, hruns, hkilled⟩

end Xv6.FreeSlots
