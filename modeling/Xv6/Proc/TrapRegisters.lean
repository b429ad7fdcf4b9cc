import Mathlib

/-!
# Registers across traps and context switches

The assembly of `kernel/trampoline.S`, `kernel/kernelvec.S` and `kernel/swtch.S`, for a machine
with 31 registers, the control registers they use and memory in words, which `uservec` and
`userret` reach through the user page table.  `sfence.vma` does nothing here, and the
instructions that transfer control (`jr`, `call`, `ret`, `sret`, `mret`) end the programs.
-/

namespace Xv6.TrapRegisters

open Function

abbrev Word := BitVec 64

inductive Reg where
  | ra | sp | gp | tp | t0 | t1 | t2 | s0 | s1 | a0 | a1 | a2 | a3 | a4 | a5 | a6 | a7
  | s2 | s3 | s4 | s5 | s6 | s7 | s8 | s9 | s10 | s11 | t3 | t4 | t5 | t6
  deriving DecidableEq

inductive Csr where
  | sscratch | satp | mscratch | sip
  deriving DecidableEq

inductive Instr where
  | sd (rs : Reg) (off : Word) (base : Reg)
  | ld (rd : Reg) (off : Word) (base : Reg)
  | addi (rd rs : Reg) (imm : Word)
  | add (rd rs rt : Reg)
  | li (rd : Reg) (imm : Word)
  /-- `csrrw r, csr, r` -/
  | swap (r : Reg) (csr : Csr)
  | csrr (rd : Reg) (csr : Csr)
  | csrw (csr : Csr) (rs : Reg)

@[ext]
structure Machine where
  reg : Reg → Word
  csr : Csr → Word
  mem : Word → Word

def step (m : Machine) : Instr → Machine
  | .sd rs off base => { m with mem := update m.mem (m.reg base + off) (m.reg rs) }
  | .ld rd off base => { m with reg := update m.reg rd (m.mem (m.reg base + off)) }
  | .addi rd rs imm => { m with reg := update m.reg rd (m.reg rs + imm) }
  | .add rd rs rt => { m with reg := update m.reg rd (m.reg rs + m.reg rt) }
  | .li rd imm => { m with reg := update m.reg rd imm }
  | .swap r csr => { m with
      reg := update m.reg r (m.csr csr)
      csr := update m.csr csr (m.reg r) }
  | .csrr rd csr => { m with reg := update m.reg rd (m.csr csr) }
  | .csrw csr rs => { m with csr := update m.csr csr (m.reg rs) }

def exec (program : List Instr) (m : Machine) : Machine := program.foldl step m

theorem exec_nil (m : Machine) : exec [] m = m := rfl

theorem exec_cons (i : Instr) (program : List Instr) (m : Machine) :
    exec (i :: program) m = exec program (step m i) := rfl

theorem exec_append (first second : List Instr) (m : Machine) :
    exec (first ++ second) m = exec second (exec first m) := List.foldl_append

/-! ## Saving and loading -/

def saves (base : Reg) (slot : Reg → Word) (regs : List Reg) : List Instr :=
  regs.map fun r => .sd r (slot r) base

def loads (base : Reg) (slot : Reg → Word) (regs : List Reg) : List Instr :=
  regs.map fun r => .ld r (slot r) base

theorem exec_saves (base : Reg) {slot : Reg → Word} {regs : List Reg}
    (hslot : ∀ r ∈ regs, ∀ q ∈ regs, slot r = slot q → r = q) (m : Machine) :
    ∃ mem, exec (saves base slot regs) m = { m with mem := mem } ∧
        (∀ r ∈ regs, mem (m.reg base + slot r) = m.reg r) ∧
        ∀ addr, (∀ r ∈ regs, addr ≠ m.reg base + slot r) → mem addr = m.mem addr := by
  induction regs generalizing m with
  | nil => exact ⟨m.mem, rfl, by simp, fun _ _ => rfl⟩
  | cons head regs ih =>
    obtain ⟨mem, hrun, hsaved, hothers⟩ := ih (fun r hr q hq => hslot r (.tail _ hr) q (.tail _ hq))
      (step m (.sd head (slot head) base))
    refine ⟨mem, hrun, fun r hr => ?_, fun addr haddr => ?_⟩
    · by_cases hmem : r ∈ regs
      · exact hsaved r hmem
      · obtain rfl := (List.mem_cons.mp hr).resolve_right hmem
        refine (hothers _ fun q hq hsame => hmem ?_).trans (update_self ..)
        rwa [hslot r hr q (.tail _ hq) ((BitVec.add_right_inj _).mp hsame)]
    · exact (hothers addr fun r hr => haddr r (.tail _ hr)).trans
        (update_of_ne (haddr head (.head _)) _ _)

/-- The base register may be loaded as well, if its word holds its value. -/
theorem exec_loads (base : Reg) (slot : Reg → Word) (regs : List Reg) (m : Machine)
    (hbase : base ∈ regs → m.mem (m.reg base + slot base) = m.reg base) :
    exec (loads base slot regs) m =
      { m with reg := fun r => if r ∈ regs then m.mem (m.reg base + slot r) else m.reg r } := by
  induction regs generalizing m with
  | nil => simp [loads, exec_nil]
  | cons head regs ih =>
    have hkept : (step m (.ld head (slot head) base)).reg base = m.reg base := by
      by_cases hsame : base = head
      · subst hsame
        exact (update_self ..).trans (hbase (.head _))
      · exact update_of_ne hsame _ _
    have hrest := ih (step m (.ld head (slot head) base)) fun hmem => by
      rw [hkept]
      exact hbase (.tail _ hmem)
    rw [hkept] at hrest
    refine hrest.trans (Machine.ext (funext fun r => ?_) rfl rfl)
    by_cases hsame : r = head <;> simp [step, hsame]

/-- Registers are kept one after another, from an offset on. -/
def place (start : ℕ) (regs : List Reg) (r : Reg) : Word :=
  BitVec.ofNat 64 (start + 8 * regs.idxOf r)

theorem place_inj {start : ℕ} {regs : List Reg} (hsmall : start + 8 * regs.length < 2 ^ 64) :
    ∀ r ∈ regs, ∀ q ∈ regs, place start regs r = place start regs q → r = q := by
  intro r hr q hq hsame
  have hfst := List.idxOf_lt_length_of_mem hr
  have hsnd := List.idxOf_lt_length_of_mem hq
  have heq := congrArg BitVec.toNat hsame
  simp only [place, BitVec.toNat_ofNat] at heq
  rw [Nat.mod_eq_of_lt (by omega), Nat.mod_eq_of_lt (by omega)] at heq
  exact (List.idxOf_inj hr).mp (by omega)

/-- The registers `x1` to `x31`. -/
def registers : List Reg :=
  [.ra, .sp, .gp, .tp, .t0, .t1, .t2, .s0, .s1, .a0, .a1, .a2, .a3, .a4, .a5, .a6, .a7,
    .s2, .s3, .s4, .s5, .s6, .s7, .s8, .s9, .s10, .s11, .t3, .t4, .t5, .t6]

theorem mem_registers (r : Reg) : r ∈ registers := by cases r <;> decide

theorem mem_erase {q r : Reg} : r ∈ registers.erase q ↔ r ≠ q := by
  rw [List.Nodup.mem_erase_iff (by decide), and_iff_left (mem_registers r)]

/-! ## Traps from user space -/

/-- The offset of a register in `struct trapframe`. -/
def slot (r : Reg) : Word := place 40 registers r

def uservec : List Instr :=
  .swap .a0 .sscratch :: saves .a0 slot (registers.erase .a0) ++
    [.csrr .t0 .sscratch, .sd .t0 (slot .a0) .a0, .ld .sp 8 .a0, .ld .tp 32 .a0, .ld .t0 16 .a0,
      .ld .t1 0 .a0, .csrw .satp .t1]

def userret : List Instr :=
  [.csrw .satp .a1, .ld .t0 (slot .a0) .a0, .csrw .sscratch .t0] ++
    loads .a0 slot (registers.erase .a0) ++ [.swap .a0 .sscratch]

theorem slot_inj (r q : Reg) : slot r = slot q → r = q :=
  place_inj (by decide) r (mem_registers r) q (mem_registers q)

example : slot .a0 = 112 ∧ slot .t6 = 280 := ⟨rfl, rfl⟩

/-- `uservec` saves every register in its field of the trapframe at `sscratch`. -/
theorem uservec_saves {m : Machine} {frame : Word} (hframe : m.csr .sscratch = frame) (r : Reg) :
    (exec uservec m).mem (frame + slot r) = m.reg r := by
  obtain ⟨mem, hrun, hsaved, -⟩ := @exec_saves .a0 slot (registers.erase .a0)
    (fun r _ q _ => slot_inj r q) (step m (.swap .a0 .sscratch))
  have hmem : (exec uservec m).mem = update mem (frame + slot .a0) (m.reg .a0) := by
    rw [uservec, exec_append, exec_cons (.swap ..), hrun]
    simp [exec, step, hframe]
  by_cases hr : r = .a0
  · rw [hmem, hr, update_self]
  · rw [hmem, update_of_ne fun hsame => hr (slot_inj r .a0 ((BitVec.add_right_inj frame).mp hsame))]
    simpa [step, hframe, hr] using hsaved r (mem_erase.mpr hr)

/-- `userret` loads every register from the trapframe at `a0`, and leaves its address in
`sscratch` for the next trap. -/
theorem userret_spec (m : Machine) :
    (exec userret m).reg = (fun r => m.mem (m.reg .a0 + slot r)) ∧
      (exec userret m).csr = update (update m.csr .satp (m.reg .a1)) .sscratch (m.reg .a0) := by
  rw [userret, exec_append, exec_append,
    exec_loads .a0 slot _ _ fun ha0 => absurd rfl (mem_erase.mp ha0)]
  refine ⟨funext fun r => ?_, funext fun c => ?_⟩
  · by_cases hr : r = .a0 <;> simp [exec, step, mem_erase, hr]
  · cases c <;> simp [exec, step, mem_erase]

/-- A user program up to a trap, as what it does to the registers, and the kernel up to
`userret`, which edits the saved registers (a system call's `a0`, a new program's `sp`). -/
structure Visit where
  code : (Reg → Word) → Reg → Word
  kernel : Machine → Machine
  edit : (Reg → Word) → Reg → Word

def Visit.Edits (frame : Word) (visit : Visit) : Prop :=
  ∀ s, (visit.kernel s).reg .a0 = frame ∧
    ∀ r, (visit.kernel s).mem (frame + slot r) = visit.edit (fun r => s.mem (frame + slot r)) r

def Visit.run (m : Machine) (visit : Visit) : Machine :=
  exec userret (visit.kernel (exec uservec { m with reg := visit.code m.reg }))

theorem Visit.run_spec {frame : Word} {visit : Visit} (hvisit : visit.Edits frame) {m : Machine}
    (hm : m.csr .sscratch = frame) : (visit.run m).reg = visit.edit (visit.code m.reg) ∧
      (visit.run m).csr .sscratch = frame := by
  have hsaved := @uservec_saves { m with reg := visit.code m.reg } frame hm
  obtain ⟨ha0, hedit⟩ := hvisit (exec uservec { m with reg := visit.code m.reg })
  obtain ⟨hreg, hcsr⟩ :=
    userret_spec (visit.kernel (exec uservec { m with reg := visit.code m.reg }))
  refine ⟨hreg.trans (funext fun r => ?_), by rw [Visit.run, hcsr, update_self, ha0]⟩
  rw [ha0, hedit, funext hsaved]

/-- Through any number of traps the program sees what the kernel did to the saved registers. -/
theorem registers_survive_traps {frame : Word} {trace : List Visit}
    (htrace : ∀ visit ∈ trace, visit.Edits frame) {m : Machine} (hm : m.csr .sscratch = frame) :
    (trace.foldl Visit.run m).reg =
        trace.foldl (fun regs visit => visit.edit (visit.code regs)) m.reg ∧
      (trace.foldl Visit.run m).csr .sscratch = frame := by
  induction trace generalizing m with
  | nil => exact ⟨rfl, hm⟩
  | cons visit trace ih =>
    obtain ⟨hreg, hscratch⟩ := Visit.run_spec (htrace visit (.head _)) hm
    rw [List.foldl_cons, List.foldl_cons, ← hreg]
    exact ih (fun other ho => htrace other (.tail _ ho)) hscratch

/-- A machine with the trapframe at its place. -/
def userMachine : Machine := ⟨fun _ => 0, fun _ => 0x3fffffe000, fun _ => 0⟩

/-- `getpid` returns 7. -/
def getpid : Visit where
  code regs := update regs .a7 11
  kernel s := ⟨fun _ => 0x3fffffe000, s.csr, update s.mem (0x3fffffe000 + slot .a0) 7⟩
  edit regs := update regs .a0 7

theorem registers_survive_traps_getpid :
    ([getpid].foldl Visit.run userMachine).reg = update (update (fun _ => 0) .a7 11) .a0 7 :=
  (@registers_survive_traps 0x3fffffe000 [getpid] (List.forall_mem_singleton.mpr fun s =>
    ⟨rfl, congrFun (update_comp_eq_of_injective s.mem (fun r q hsame =>
      slot_inj r q ((BitVec.add_right_inj _).mp hsame)) .a0 7)⟩) userMachine rfl).1

/-! ## Traps from the kernel -/

def kernelvecEntry : List Instr := .addi .sp .sp (-256) :: saves .sp (place 0 registers) registers

/-- All registers but `tp`: the thread may have moved to another hart. -/
def kernelvecReturn : List Instr :=
  loads .sp (place 0 registers) (registers.erase .tp) ++ [.addi .sp .sp 256]

/-- `kerneltrap` returns in `k` with the stack pointer and the saved words as they were. -/
theorem kernel_registers_survive_traps {m k : Machine}
    (hsp : k.reg .sp = (exec kernelvecEntry m).reg .sp)
    (hkept : ∀ r, k.mem (k.reg .sp + place 0 registers r) =
      (exec kernelvecEntry m).mem (k.reg .sp + place 0 registers r)) :
    (exec kernelvecReturn k).reg = update m.reg .tp (k.reg .tp) ∧
      ∀ addr, (∀ r, addr ≠ m.reg .sp + -256 + place 0 registers r) →
        (exec kernelvecEntry m).mem addr = m.mem addr := by
  obtain ⟨mem, hrun, hsaved, hothers⟩ := @exec_saves .sp (place 0 registers) registers
    (place_inj (by decide)) (step m (.addi .sp .sp (-256)))
  rw [kernelvecEntry, exec_cons, hrun] at hsp hkept ⊢
  simp only [step, update_self] at hsp hsaved hothers
  have hword : ∀ r, k.mem (k.reg .sp + place 0 registers r) =
      update m.reg .sp (m.reg .sp + -256) r := by
    intro r
    rw [hkept r, hsp]
    exact hsaved r (mem_registers r)
  refine ⟨funext fun r => ?_, fun addr haddr => hothers addr fun r _ => haddr r⟩
  rw [kernelvecReturn, exec_append, exec_loads .sp _ _ _ fun _ => by rw [hword, hsp, update_self]]
  simp only [hword, mem_erase, exec_cons, exec_nil, step]
  by_cases hr : r = .sp
  · subst hr
    simp [BitVec.add_assoc]
  · by_cases htp : r = .tp <;> simp [hr, htp]

/-- Registers with distinct values; the words for `timervec` are at `0x80009000`. -/
def kernelMachine : Machine where
  reg r := 0x80200000 + place 0 registers r
  csr _ := 0x80009000
  mem addr := if addr = 0x80009018 then 0x2004000 else 1000000

/-- A `kerneltrap` that uses the other registers and the stack below its own. -/
def clobber (m : Machine) : Machine where
  reg := update (fun _ => 99) .sp (m.reg .sp)
  csr := m.csr
  mem := update m.mem (m.reg .sp + -8) 99

theorem kernel_registers_survive_traps_clobbered :
    (exec kernelvecReturn (clobber (exec kernelvecEntry kernelMachine))).reg =
      update kernelMachine.reg .tp 99 :=
  (@kernel_registers_survive_traps kernelMachine (clobber (exec kernelvecEntry kernelMachine)) rfl
    fun r => update_of_ne (fun hsame =>
      absurd ((BitVec.add_right_inj _).mp hsame) (by cases r <;> decide)) _ _).1

/-! ## Context switches -/

/-- The fields of `struct context`, in order. -/
def calleeSaved : List Reg :=
  [.ra, .sp, .s0, .s1, .s2, .s3, .s4, .s5, .s6, .s7, .s8, .s9, .s10, .s11]

def field (r : Reg) : Word := place 0 calleeSaved r

def swtch : List Instr := saves .a0 field calleeSaved ++ loads .a1 field calleeSaved

section Threads

variable {T : Type} [DecidableEq T] {context : T → Word}

/-- Threads with their own callee-saved registers, of which one runs. -/
structure Threads (T : Type) where
  running : T
  regs : T → Reg → Word

/-- What the running thread does until it calls `swtch` for another one. -/
structure Turn (T : Type) where
  code : T → Machine → Machine
  next : T

def turn (context : T → Word) (state : Machine × Threads T) (t : Turn T) : Machine × Threads T :=
  let old := state.2.running
  let m := t.code old state.1
  (exec swtch { m with reg := update (update m.reg .a0 (context old)) .a1 (context t.next) },
    ⟨t.next, update state.2.regs old m.reg⟩)

/-- The running thread's registers are in the machine, the others' in their contexts. -/
structure Refines (context : T → Word) (state : Machine × Threads T) : Prop where
  current : ∀ r ∈ calleeSaved, state.1.reg r = state.2.regs state.2.running r
  parked : ∀ t ≠ state.2.running, ∀ r ∈ calleeSaved,
    state.1.mem (context t + field r) = state.2.regs t r

/-- A thread does not write to the contexts of the others. -/
def Turn.Keeps (context : T → Word) (t : Turn T) : Prop :=
  ∀ old m, ∀ u ≠ old, ∀ r ∈ calleeSaved,
    (t.code old m).mem (context u + field r) = m.mem (context u + field r)

/-- The contexts do not overlap. -/
def Apart (context : T → Word) : Prop :=
  ∀ t u, t ≠ u → ∀ r ∈ calleeSaved, ∀ q ∈ calleeSaved, context t + field r ≠ context u + field q

theorem refines_turn (hapart : Apart context) {state : Machine × Threads T}
    (hstate : Refines context state) {t : Turn T} (ht : t.Keeps context) :
    Refines context (turn context state t) := by
  have hargument : ∀ r ∈ calleeSaved, r ≠ .a0 ∧ r ≠ .a1 := by decide
  obtain ⟨m, old, regs⟩ := state
  simp only [turn]
  generalize hk : t.code old m = k
  obtain ⟨mem, hrun, hsaved, hothers⟩ := @exec_saves .a0 field calleeSaved (place_inj (by decide))
    { k with reg := update (update k.reg .a0 (context old)) .a1 (context t.next) }
  have hcontexts : ∀ u, ∀ r ∈ calleeSaved,
      mem (context u + field r) = update regs old k.reg u r := by
    intro u r hr
    obtain ⟨ha0, ha1⟩ := hargument r hr
    by_cases hu : u = old
    · subst hu
      simpa [ha0, ha1] using hsaved r hr
    · have hparked : m.mem (context u + field r) = regs u r := hstate.parked u hu r hr
      rw [update_of_ne hu, ← hparked, ← ht old m u hu r hr, hk]
      exact hothers _ fun q hq => hapart u old hu r hr q hq
  rw [swtch, exec_append, hrun, exec_loads .a1 _ _ _ fun ha1 => absurd rfl (hargument _ ha1).2]
  exact ⟨fun r hr => by simpa [hr] using hcontexts t.next r hr, fun u _ => hcontexts u⟩

/-- Through any sequence of turns every thread finds its callee-saved registers as it left them:
`swtch` implements threads that have their own. -/
theorem swtch_refines_threads (hapart : Apart context) {turns : List (Turn T)}
    (hturns : ∀ t ∈ turns, t.Keeps context) {state : Machine × Threads T}
    (hstate : Refines context state) : Refines context (turns.foldl (turn context) state) := by
  induction turns generalizing state with
  | nil => exact hstate
  | cons t turns ih =>
    exact ih (fun u hu => hturns u (.tail _ hu)) (refines_turn hapart hstate (hturns t (.head _)))

end Threads

/-- Thread `false` sets `s1` to 5 and gives way to `true`, which gives way to it. -/
def bothTurns : List (Turn Bool) :=
  [⟨fun _ m => { m with reg := update m.reg .s1 5 }, true⟩, ⟨fun _ m => m, false⟩]

theorem swtch_refines_threads_both : Refines (fun t => if t then 4096 else 0)
    (bothTurns.foldl (turn fun t => if t then 4096 else 0) (userMachine, ⟨false, fun _ _ => 0⟩)) :=
  swtch_refines_threads
    (fun t u htu => by cases t <;> cases u <;> first | exact absurd rfl htu | decide +kernel)
    (by simp [bothTurns, Turn.Keeps]) ⟨fun _ _ => rfl, fun _ _ _ _ => rfl⟩

/-! ## Timer interrupts -/

def timervec : List Instr :=
  [.swap .a0 .mscratch, .sd .a1 0 .a0, .sd .a2 8 .a0, .sd .a3 16 .a0, .ld .a1 24 .a0,
    .ld .a2 32 .a0, .ld .a3 0 .a1, .add .a3 .a3 .a2, .sd .a3 0 .a1, .li .a1 2, .csrw .sip .a1,
    .ld .a3 16 .a0, .ld .a2 8 .a0, .ld .a1 0 .a0, .swap .a0 .mscratch]

/-- A timer interrupt advances `mtimecmp` by the interval and raises a software interrupt; the
interrupted code notices nothing. -/
theorem timervec_spec {m : Machine} {scratch mtimecmp : Word} (hscratch : m.csr .mscratch = scratch)
    (hclint : m.mem (scratch + 24#64) = mtimecmp)
    (hapart : mtimecmp ≠ scratch ∧ mtimecmp ≠ scratch + 8#64 ∧ mtimecmp ≠ scratch + 16#64) :
    (exec timervec m).reg = m.reg ∧ (exec timervec m).csr = update m.csr .sip 2 ∧
      (exec timervec m).mem mtimecmp = m.mem mtimecmp + m.mem (scratch + 32#64) ∧
      ∀ addr, addr ≠ scratch ∧ addr ≠ scratch + 8#64 ∧ addr ≠ scratch + 16#64 ∧ addr ≠ mtimecmp →
        (exec timervec m).mem addr = m.mem addr := by
  obtain ⟨h0, h8, h16⟩ := hapart
  refine ⟨funext fun r => ?_, funext fun c => ?_, ?_, fun addr haddr => ?_⟩
  · by_cases hr : r ∈ [Reg.a0, .a1, .a2, .a3]
    · fin_cases hr <;> simp [exec, timervec, step, hscratch, hclint, h0.symm, h8.symm, h16.symm]
    · simp only [List.mem_cons, List.not_mem_nil, or_false, not_or] at hr
      simp [exec, timervec, step, hr]
  · cases c <;> simp [exec, timervec, step, hscratch]
  · simp [exec, timervec, step, hscratch, hclint, h0, h8, h16]
  · simp [exec, timervec, step, hscratch, hclint, haddr]

theorem timervec_spec_interval : (exec timervec kernelMachine).reg = kernelMachine.reg ∧
    (exec timervec kernelMachine).mem 0x2004000 = 2000000 := by
  obtain ⟨hreg, -, htime, -⟩ :=
    @timervec_spec kernelMachine 0x80009000 0x2004000 rfl rfl (by decide)
  exact ⟨hreg, htime.trans (by decide)⟩

end Xv6.TrapRegisters
