import Xv6.Fs.FileReferences
import Xv6.Vm.PageTable

/-!
# `sys_mmap` and `sys_munmap` as calls

The two calls with every return, over the open files and the mapped areas of a process
of `Fs/OpenFiles`: what `sys_mmap` leaves when it fails, and which addresses
`sys_munmap` removes.
-/

namespace Xv6.MappingCalls

open OpenFiles Kalloc PageTable Function BitVec List Nat Option
open Riscv (PGSIZE KERNBASE PA2PTE leafPte PTE_V PTE_R PTE_U)
open LittleEndian (writeU64)

variable {N : ℕ} {P : Type} [DecidableEq P]
variable {k : Fin N} {fs : Files N} {rest : Vma N}

/-! ## `sys_mmap` -/

def freeVma (pr : Proc N) : Option (Fin NVMA) :=
  (List.finRange NVMA).find? fun i => decide ((pr.vma i).valid = false)

/-- The test of `sys_mmap` for a shared writable mapping of a file that is not
writable. -/
def Forbidden (fs : Files N) (f : Pointer N) (prot flag : BitVec 32) : Prop :=
  pointerWritable fs f = false ∧ prot &&& PROT_WRITE ≠ 0 ∧ flag &&& MAP_PRIVATE = 0

instance (fs : Files N) (f : Pointer N) (prot flag : BitVec 32) :
    Decidable (Forbidden fs f prot flag) :=
  inferInstanceAs (Decidable (_ ∧ _ ∧ _))

/-- `sys_mmap`: the value it returns and the state it leaves.  `filedup` comes before
the search for an entry of `p->vma`. -/
def mmap (t : State N P) (p : P) (len prot flag fd : BitVec 32) :
    Except Panic (BitVec 64 × State N P) :=
  if (NOFILE : ℤ) ≤ fd.toInt then .ok (-1, t)
  else
    match mmapFile t p fd.toInt with
    | none => .error .kerneltrap
    | some f =>
      if Forbidden t.files f prot flag then .ok (-1, t)
      else do
        let fs ← pointerDup t.files f
        match freeVma (t.proc p) with
        | none => return (-1, { t with files := fs })
        | some i =>
          return ((t.proc p).sz, setProc { t with files := fs } p
            { setVma (t.proc p) i ⟨true, (t.proc p).sz, len, prot, flag, f⟩ with
              sz := (t.proc p).sz + len.signExtend 64 })

theorem mmap_of_sysMmap {t : State N P} {p : P} {len prot flag fd : BitVec 32}
    {outcome : Except Panic (State N P)}
    (hcall : sysMmap t p len prot flag fd.toInt = some outcome) :
    (mmap t p len prot flag fd).map Prod.snd = outcome := by
  unfold sysMmap at hcall
  unfold mmap
  split at hcall
  · cases hcall
  case isFalse hfd =>
    rw [if_neg hfd]
    cases hfile : mmapFile t p fd.toInt with
    | none =>
      rw [hfile] at hcall
      exact Option.some.inj hcall
    | some f =>
      rw [hfile] at hcall
      dsimp only at hcall ⊢
      split at hcall
      · cases hcall
      case isFalse hallow =>
        have hallowed' : ¬ Forbidden t.files f prot flag := hallow
        rw [if_neg hallowed']
        cases hfree : freeVma (t.proc p) with
        | none =>
          rw [freeVma] at hfree
          rw [hfree] at hcall
          cases hcall
        | some i =>
          rw [freeVma] at hfree
          rw [hfree] at hcall
          rw [← Option.some.inj hcall]
          cases pointerDup t.files f with
          | error panic => rfl
          | ok fs => rfl

/-- What `sys_mmap` reads `writable` from: nothing, or what it found at
`p->ofile[fd]`. -/
def dereferenced (t : State N P) (p : P) (fd : BitVec 32) : Option (Option (Pointer N)) :=
  if (NOFILE : ℤ) ≤ fd.toInt then none else some (mmapFile t p fd.toInt)

/-- A failed call: everything that the call may change is as before. -/
def Unchanged (t after : State N P) (p : P) : Prop :=
  (after.proc p).sz = (t.proc p).sz ∧ (after.proc p).vma = (t.proc p).vma ∧
    ∀ k, (after.files.file k).ref = (t.files.file k).ref

/-- A successful call: one entry that was not valid holds the range of `len` bytes from
the old size on, the file has one reference more, and the size covers the range. -/
structure Mapped (t after : State N P) (p : P) (len prot flag fd : BitVec 32)
    (value : BitVec 64) : Prop where
  filled : ∃ i slot k, ((t.proc p).vma i).valid = false ∧
    argfd (t.proc p) fd.toInt = some (slot, k) ∧
    (after.proc p).vma = update (t.proc p).vma i ⟨true, (t.proc p).sz, len, prot, flag, .file k⟩ ∧
    ∀ other, (after.files.file other).ref = (t.files.file other).ref + if other = k then 1 else 0
  size : ((after.proc p).sz.toNat : ℤ) = (t.proc p).sz.toNat + len.toInt
  covers : (t.proc p).sz.toNat ≤ (after.proc p).sz.toNat
  start : value = (t.proc p).sz

/-- What is asked of a call: it reads no file but an open one of the process, it does
not panic, and it fails without a trace or maps the range. -/
structure Clean (t : State N P) (p : P) (len prot flag fd : BitVec 32) : Prop where
  present : ∀ f, dereferenced t p fd = some f →
    ∃ slot k, argfd (t.proc p) fd.toInt = some (slot, k) ∧ f = some (.file k)
  result : ∃ value after, mmap t p len prot flag fd = .ok (value, after) ∧
    (value = -1 ∧ Unchanged t after p ∨ Mapped t after p len prot flag fd value)

def CleanCall (t : State N P) (p : P) (len prot flag fd : BitVec 32) : Prop :=
  (NOFILE : ℤ) ≤ fd.toInt ∨ ∃ slot k, argfd (t.proc p) fd.toInt = some (slot, k) ∧
      (Forbidden t.files (.file k) prot flag ∨
        1 ≤ (t.files.file k).ref ∧ (freeVma (t.proc p)).isSome ∧ 0 ≤ len.toInt ∧
          (t.proc p).sz.toNat + len.toInt.toNat < 2 ^ 64)

section Mmap
variable {t : State N P} {p : P} {len prot flag fd : BitVec 32}

theorem freeVma_invalid {pr : Proc N} {i : Fin NVMA} (hfree : freeVma pr = some i) :
    (pr.vma i).valid = false := by
  have hinvalid := List.find?_some hfree
  rwa [decide_eq_true_eq] at hinvalid

omit [DecidableEq P] in
theorem mmapFile_argfd {slot : Fin NOFILE} (harg : argfd (t.proc p) fd.toInt = some (slot, k)) :
    ¬ (NOFILE : ℤ) ≤ fd.toInt ∧ mmapFile t p fd.toInt = some (.file k) := by
  have hrange : 0 ≤ fd.toInt ∧ fd.toInt < NOFILE := by
    by_contra hout
    rw [argfd, dif_neg hout] at harg
    cases harg
  refine ⟨not_le.mpr hrange.2, ?_⟩
  rw [mmapFile, if_neg (not_lt.mpr hrange.1), harg]
  rfl

theorem filedup_ref {after : Files N} (hdup : filedup fs k = .ok after)
    (other : Fin N) :
    (after.file other).ref = (fs.file other).ref + if other = k then 1 else 0 := by
  unfold filedup at hdup
  split at hdup
  · cases hdup
  · cases hdup
    by_cases ho : other = k
    · subst ho
      simp [setFile]
    · simp [setFile, ho]

theorem filedup_ok (href : 1 ≤ (fs.file k).ref) :
    ∃ after, filedup fs k = .ok after := by
  refine ⟨_, if_neg ?_⟩
  omega

theorem toNat_add_len (sz : BitVec 64) (len : BitVec 32) (hlen : 0 ≤ len.toInt)
    (hfits : sz.toNat + len.toInt.toNat < 2 ^ 64) :
    (sz + len.signExtend 64).toNat = sz.toNat + len.toInt.toNat := by
  have hsign : (len.signExtend 64).toNat = len.toInt.toNat := by
    rw [toNat_signExtend]
    have hmsb : len.msb = false := by
      rw [← Bool.not_eq_true, msb_eq_toInt]
      simp [hlen]
    rw [hmsb, toInt_eq_toNat_of_msb hmsb]
    simpa using lt_trans len.isLt (by decide : 2 ^ 32 < 2 ^ 64)
  rw [toNat_add, hsign, mod_eq_of_lt hfits]

theorem clean_of_cleanCall (hcall : CleanCall t p len prot flag fd) :
    Clean t p len prot flag fd := by
  rcases hcall with hfd | ⟨slot, k, harg, hcase⟩
  · refine ⟨fun f hread => ?_, -1, t, if_pos hfd, Or.inl ⟨rfl, rfl, rfl, fun _ => rfl⟩⟩
    rw [dereferenced, if_pos hfd] at hread
    cases hread
  · obtain ⟨hfd, hfile⟩ := mmapFile_argfd harg
    refine ⟨fun f hread => ⟨slot, k, harg, ?_⟩, ?_⟩
    · rw [dereferenced, if_neg hfd, hfile] at hread
      exact (Option.some.inj hread).symm
    rw [mmap, if_neg hfd, hfile]
    dsimp only
    rcases hcase with hforbidden | ⟨href, hfree, hlen, hfits⟩
    · exact ⟨-1, t, if_pos hforbidden, Or.inl ⟨rfl, rfl, rfl, fun _ => rfl⟩⟩
    by_cases hforbidden : Forbidden t.files (.file k) prot flag
    · exact ⟨-1, t, if_pos hforbidden, Or.inl ⟨rfl, rfl, rfl, fun _ => rfl⟩⟩
    obtain ⟨fs, hdup⟩ := filedup_ok href
    obtain ⟨i, hi⟩ := isSome_iff_exists.mp hfree
    have hsize := toNat_add_len (t.proc p).sz len hlen hfits
    rw [if_neg hforbidden, pointerDup, hdup, hi]
    refine ⟨_, _, rfl, Or.inr ⟨⟨i, slot, k, freeVma_invalid hi, harg, ?_, ?_⟩, ?_, ?_, rfl⟩⟩
    · simp [setProc, setVma]
    · exact filedup_ref hdup
    · simp only [setProc, update_self, hsize]
      omega
    · simp only [setProc, update_self, hsize]
      omega

/-- A call whose file was duplicated before the table turned out to be full has left a
reference. -/
theorem cleanCall_of_clean (hclean : Clean t p len prot flag fd) :
    CleanCall t p len prot flag fd := by
  by_cases hfd : (NOFILE : ℤ) ≤ fd.toInt
  · exact Or.inl hfd
  obtain ⟨slot, k, harg, hread⟩ := hclean.present _ (if_neg hfd)
  refine Or.inr ⟨slot, k, harg, ?_⟩
  by_cases hforbidden : Forbidden t.files (.file k) prot flag
  · exact Or.inl hforbidden
  obtain ⟨value, after, hmmap, hres⟩ := hclean.result
  rw [mmap, if_neg hfd, hread] at hmmap
  dsimp only at hmmap
  rw [if_neg hforbidden, pointerDup] at hmmap
  have href : 1 ≤ (t.files.file k).ref := by
    by_contra hzero
    rw [filedup, if_pos (by omega)] at hmmap
    cases hmmap
  obtain ⟨fs, hdup⟩ := filedup_ok href
  have hsame := filedup_ref hdup k
  rw [if_pos rfl] at hsame
  rw [hdup] at hmmap
  cases hfree : freeVma (t.proc p) with
  | none =>
    rw [hfree] at hmmap
    cases hmmap
    exfalso
    rcases hres with ⟨-, -, -, hrefs⟩ | hmapped
    · have hkept := hrefs k
      dsimp only at hkept
      omega
    · obtain ⟨i, -, -, hinvalid, -⟩ := hmapped.filled
      have hnone := List.find?_eq_none.mp hfree i (mem_finRange i)
      rw [decide_eq_true_eq] at hnone
      exact hnone hinvalid
  | some i =>
    rw [hfree] at hmmap
    cases hmmap
    refine Or.inr ⟨href, rfl, ?_⟩
    rcases hres with ⟨-, -, -, hrefs⟩ | hmapped
    · have hkept := hrefs k
      dsimp only [setProc] at hkept
      omega
    · have hsize := hmapped.size
      have hcovers := hmapped.covers
      have hbound := (setProc { t with files := fs } p
        { setVma (t.proc p) i ⟨true, (t.proc p).sz, len, prot, flag, .file k⟩ with
          sz := (t.proc p).sz + len.signExtend 64 }).proc p |>.sz.isLt
      omega

end Mmap

/-- A call of `sys_mmap` is clean exactly when the descriptor is too large, or it names
an open file and the call is forbidden or finds a free entry for a range that fits. -/
theorem mmap_clean_iff (t : State N P) (p : P) (len prot flag fd : BitVec 32) :
    Clean t p len prot flag fd ↔ CleanCall t p len prot flag fd :=
  ⟨cleanCall_of_clean, clean_of_cleanCall⟩

/-- A process without open files, and one with an open file whose mapped areas are all
in use. -/
def noFiles : State 1 Unit where
  files := ⟨fun _ => ⟨.inode, 1, true, true, 0⟩, fun _ => ⟨false, false⟩, 0, fun _ => 0⟩
  proc _ := ⟨.running, fun _ => none, fun _ => ⟨false, 0, 0, 0, 0, .file 0⟩, 0x4000⟩
  below _ _ := none

def fullTable : State 1 Unit where
  files := noFiles.files
  proc _ := ⟨.running, fun _ => some 0, fun _ => ⟨true, 0x4000, 0x1000, 1, 2, .file 0⟩, 0x14000⟩
  below _ _ := none

/-- A descriptor that is not open makes the kernel read through a null pointer, and a
full table leaves the file with one reference too many. -/
theorem mmap_fails_with_a_trace : mmap noFiles () 0x1000 1 2 3 = .error .kerneltrap ∧
      ¬ Clean noFiles () 0x1000 1 2 3 ∧
      ((mmap fullTable () 0x1000 1 2 3).map fun result =>
        (result.1, (result.2.files.file 0).ref)) = .ok (-1, 2) ∧
      ¬ Clean fullTable () 0x1000 1 2 3 := by
  have hunopened : ¬ CleanCall noFiles () 0x1000 1 2 3 := by
    rintro (hfd | ⟨slot, k, harg, -⟩)
    · exact absurd hfd (by decide)
    · exact absurd harg (by simp [argfd, noFiles])
  have hfull : ¬ CleanCall fullTable () 0x1000 1 2 3 := by
    rintro (hfd | ⟨slot, k, -, hforbidden | ⟨-, hfree, -⟩⟩)
    · exact absurd hfd (by decide)
    · exact absurd hforbidden.2.1 (by decide)
    · exact absurd hfree (by decide)
  exact ⟨rfl, fun hclean => hunopened (cleanCall_of_clean hclean), by decide,
    fun hclean => hfull (cleanCall_of_clean hclean)⟩

/-! ## `sys_munmap` -/

/-- The entry of `p->vma` after `sys_munmap` of a part of it. -/
def trimmed (vma : Vma N) (addr : BitVec 64) (len : BitVec 32) : Vma N :=
  { vma with
    addr := if addr = vma.addr then addr + len.signExtend 64 else vma.addr
    len := vma.len - len
    valid := vma.valid && decide (vma.len - len ≠ 0) }

/-- What `sys_munmap` does with the entry that it found; an entry that becomes empty
drops its file. -/
def trim (t : State N P) (p : P) (i : Fin NVMA) (addr : BitVec 64)
    (len : BitVec 32) : Except Panic (State N P) :=
  let vma := (t.proc p).vma i
  if vma.len - len = 0 then
    match vma.f with
    | .file k => (fileclose t.files k).map fun fs =>
      setProc { t with files := fs } p (setVma (t.proc p) i (trimmed vma addr len))
    | .before _ => .error .kerneltrap
  else .ok (setProc t p (setVma (t.proc p) i (trimmed vma addr len)))

/-- `sys_munmap`: the value it returns, and the state and memory it leaves.
`filewrite` writes neither. -/
def munmap (t : State N P) (memory : Memory) (pagetable : ℕ) (p : P)
    (addr : BitVec 64) (len : BitVec 32) :
    Except Panic (BitVec 64 × State N P × Memory) :=
  match (List.finRange NVMA).find? fun i => covers ((t.proc p).vma i) addr len with
  | none => .ok (-1, t, memory)
  | some i => do
    let t ← trim t p i addr len
    let memory ← uvmunmap memory pagetable addr.toNat (Riscv.u64 (len.toInt.tdiv PGSIZE)) false
    return (0, t, memory)

def InRange (vma : Vma N) (a : ℕ) : Prop :=
  vma.addr.toNat ≤ a ∧ a < vma.addr.toNat + vma.len.toInt.toNat

/-- Mapped areas that are ranges of addresses and have no address in common. -/
structure Ranges (pr : Proc N) : Prop where
  fits : ∀ i, (pr.vma i).valid = true → 0 ≤ (pr.vma i).len.toInt ∧
    (pr.vma i).addr.toNat + (pr.vma i).len.toInt.toNat < 2 ^ 64
  disjoint : ∀ i j a, (pr.vma i).valid = true → (pr.vma j).valid = true →
    InRange (pr.vma i) a → InRange (pr.vma j) a → i = j

/-- An address is mapped to a position of a file: the page fault at `a` reads the file
from `a - addr` on. -/
def CoveredAt (pr : Proc N) (a : ℕ) (f : Pointer N) (position : ℕ) : Prop :=
  ∃ i, (pr.vma i).valid = true ∧ InRange (pr.vma i) a ∧ (pr.vma i).f = f ∧
    position = a - (pr.vma i).addr.toNat

def Removed (addr : BitVec 64) (len : BitVec 32) (a : ℕ) : Prop :=
  addr.toNat ≤ a ∧ a < addr.toNat + len.toInt.toNat

/-- What is asked of `sys_munmap` of a part of the area `i` of file `k`. -/
structure RemovesExactly (t after : State N P) (p : P) (i : Fin NVMA) (k : Fin N)
    (addr : BitVec 64) (len : BitVec 32) : Prop where
  coverage : ∀ a f position, CoveredAt (after.proc p) a f position ↔
    CoveredAt (t.proc p) a f position ∧ ¬ Removed addr len a
  dropped : ∀ other, (after.files.file other).ref +
    (if other = k ∧ ((after.proc p).vma i).valid = false then 1 else 0) = (t.files.file other).ref
  closed : ((after.proc p).vma i).valid = false ↔
    ∀ a, InRange ((t.proc p).vma i) a → Removed addr len a

section Munmap
variable {t after : State N P} {memory final : Memory} {pagetable : ℕ} {p : P}
  {i : Fin NVMA} {k : Fin N} {addr : BitVec 64} {len : BitVec 32}

/-- The removed range lies in the area. -/
structure Inside (vma : Vma N) (addr : BitVec 64) (len : BitVec 32) : Prop where
  valid : vma.valid = true
  positive : 0 < len.toInt
  low : vma.addr.toNat ≤ addr.toNat
  high : addr.toNat + len.toInt.toNat ≤ vma.addr.toNat + vma.len.toInt.toNat

omit [DecidableEq P] in
theorem covers_iff (hranges : Ranges (t.proc p)) (hlen : 0 < len.toInt)
    (hfits : addr.toNat + len.toInt.toNat < 2 ^ 64) (j : Fin NVMA) :
    covers ((t.proc p).vma j) addr len = true ↔ Inside ((t.proc p).vma j) addr len := by
  have hend := toNat_add_len addr len hlen.le hfits
  rw [covers, Bool.and_eq_true, Bool.and_eq_true, decide_eq_true_eq, decide_eq_true_eq]
  constructor
  · rintro ⟨⟨hval, hlow⟩, hhigh⟩
    obtain ⟨hpos, hroom⟩ := hranges.fits j hval
    rw [le_def, hend, toNat_add_len _ _ hpos hroom] at hhigh
    exact ⟨hval, hlen, hlow, hhigh⟩
  · intro hin
    obtain ⟨hpos, hroom⟩ := hranges.fits j hin.valid
    refine ⟨⟨hin.valid, hin.low⟩, ?_⟩
    rw [le_def, hend, toNat_add_len _ _ hpos hroom]
    exact hin.high

omit [DecidableEq P] in
theorem find_covers (hranges : Ranges (t.proc p)) (hin : Inside ((t.proc p).vma i) addr len) :
    ((List.finRange NVMA).find? fun j => covers ((t.proc p).vma j) addr len) =
      some i := by
  obtain ⟨-, hroom⟩ := hranges.fits i hin.valid
  have hfits : addr.toNat + len.toInt.toNat < 2 ^ 64 := hin.high.trans_lt hroom
  have hiff := covers_iff hranges hin.positive hfits
  have hstart : ∀ j, Inside ((t.proc p).vma j) addr len →
      InRange ((t.proc p).vma j) addr.toNat := by
    intro j hj
    have hpos := hj.positive
    have hhigh := hj.high
    exact ⟨hj.low, by omega⟩
  cases hfind : (List.finRange NVMA).find? fun j =>
      covers ((t.proc p).vma j) addr len with
  | none =>
    have hnone := List.find?_eq_none.mp hfind i (mem_finRange i)
    exact absurd ((hiff i).mpr hin) hnone
  | some j =>
    have hf := List.find?_some hfind
    have hj := (hiff j).mp hf
    rw [hranges.disjoint j i addr.toNat hj.valid hin.valid (hstart j hj) (hstart i hin)]

theorem toInt_sub_len {vlen len : BitVec 32} (hlen : 0 ≤ len.toInt)
    (hle : len.toInt ≤ vlen.toInt) : (vlen - len).toInt = vlen.toInt - len.toInt := by
  have hbound := vlen.isLt
  have hhigh := @toInt_lt 32 vlen
  rw [toInt_sub, Int.bmod_eq_of_le]
  · omega
  · omega

theorem fileclose_ref {closed : Files N} (hclose : fileclose fs k = .ok closed) (other : Fin N) :
    (closed.file other).ref + (if other = k then 1 else 0) = (fs.file other).ref := by
  unfold fileclose at hclose
  dsimp only at hclose
  by_cases ho : other = k
  · subst ho
    split at hclose
    · cases hclose
    · split at hclose
      · cases hclose
        simp only [setFile, update_self, if_true]
        omega
      · split at hclose <;> cases hclose <;>
          simp only [setFile, pipeclose, update_self, if_true] <;> omega
  · rw [if_neg ho, add_zero]
    split at hclose
    · cases hclose
    · split at hclose
      · cases hclose
        simp [setFile, ho]
      · split at hclose <;> cases hclose <;> simp [setFile, pipeclose, ho]

/-- What `sys_munmap` does to the area when it returns. -/
structure Trimmed (t after : State N P) (p : P) (i : Fin NVMA) (k : Fin N)
    (addr : BitVec 64) (len : BitVec 32) (rest : Vma N) : Prop where
  vma : (after.proc p).vma = update (t.proc p).vma i rest
  file : rest.f = ((t.proc p).vma i).f
  start : rest.addr.toNat = if addr = ((t.proc p).vma i).addr then
    addr.toNat + len.toInt.toNat else ((t.proc p).vma i).addr.toNat
  length : rest.len.toInt = ((t.proc p).vma i).len.toInt - len.toInt
  valid : rest.valid = false ↔ ((t.proc p).vma i).len.toInt = len.toInt
  refs : ∀ other, (after.files.file other).ref +
    (if other = k ∧ rest.valid = false then 1 else 0) = (t.files.file other).ref

theorem trim_files (hfile : ((t.proc p).vma i).f = .file k)
    (hval : ((t.proc p).vma i).valid = true)
    (htrim : trim t p i addr len = .ok after) :
    (after.proc p).vma = update (t.proc p).vma i (trimmed ((t.proc p).vma i) addr len) ∧
      ∀ other, (after.files.file other).ref + (if other = k ∧
        (trimmed ((t.proc p).vma i) addr len).valid = false then 1 else 0) =
          (t.files.file other).ref := by
  unfold trim at htrim
  dsimp only at htrim
  rw [hfile] at htrim
  by_cases hnil : ((t.proc p).vma i).len - len = 0
  · rw [if_pos hnil] at htrim
    dsimp only at htrim
    cases hclose : fileclose t.files k with
    | error panic =>
      rw [hclose] at htrim
      cases htrim
    | ok closed =>
      rw [hclose] at htrim
      cases htrim
      refine ⟨by simp [setProc, setVma], ?_⟩
      simpa [trimmed, hnil, setProc] using fileclose_ref hclose
  · rw [if_neg hnil] at htrim
    cases htrim
    refine ⟨by simp [setProc, setVma], ?_⟩
    simp only [trimmed, hval, hnil, setProc, Bool.true_and, decide_not,
      decide_false, Bool.not_false, Bool.true_eq_false, and_false, if_false,
      add_zero, implies_true]

theorem munmap_trims (hranges : Ranges (t.proc p)) (hin : Inside ((t.proc p).vma i) addr len)
    (hfile : ((t.proc p).vma i).f = .file k)
    (hcall : munmap t memory pagetable p addr len = .ok (0, after, final)) :
    Trimmed t after p i k addr len (trimmed ((t.proc p).vma i) addr len) := by
  obtain ⟨hpos, hroom⟩ := hranges.fits i hin.valid
  have hfits : addr.toNat + len.toInt.toNat < 2 ^ 64 := hin.high.trans_lt hroom
  have hlen := hin.positive
  have hlow := hin.low
  have hhigh := hin.high
  have hlength := @toInt_sub_len ((t.proc p).vma i).len len hlen.le (by omega)
  have hzero : ((t.proc p).vma i).len - len = 0 ↔ ((t.proc p).vma i).len.toInt = len.toInt := by
    have htoInt : (0 : BitVec 32).toInt = 0 := rfl
    rw [← toInt_inj, hlength, htoInt]
    omega
  have htrim : trim t p i addr len = .ok after := by
    unfold munmap at hcall
    rw [find_covers hranges hin] at hcall
    dsimp only at hcall
    cases htrim : trim t p i addr len with
    | error panic =>
      rw [htrim] at hcall
      cases hcall
    | ok next =>
      rw [htrim] at hcall
      cases hunmap : uvmunmap memory pagetable addr.toNat
          (Riscv.u64 (len.toInt.tdiv PGSIZE)) false with
      | error panic =>
        rw [hunmap] at hcall
        cases hcall
      | ok unmapped =>
        rw [hunmap] at hcall
        cases hcall
        rfl
  obtain ⟨hvma, hrefs⟩ := trim_files hfile hin.valid htrim
  refine ⟨hvma, rfl, ?_, hlength, ?_, hrefs⟩
  · rw [trimmed]
    split
    · exact toNat_add_len addr len hlen.le hfits
    · rfl
  · rw [trimmed, hin.valid, ← hzero]
    simp

omit [DecidableEq P] in
/-- The end of the removed range is the end of the area: the rest starts where the area
started, or nothing is left. -/
theorem removesExactly_of_suffix (hranges : Ranges (t.proc p))
    (hinside : Inside ((t.proc p).vma i) addr len)
    (htrimmed : Trimmed t after p i k addr len rest) (hsuffix : addr.toNat + len.toInt.toNat =
      ((t.proc p).vma i).addr.toNat + ((t.proc p).vma i).len.toInt.toNat) :
    RemovesExactly t after p i k addr len := by
  obtain ⟨hpositive, hroom⟩ := hranges.fits i hinside.valid
  have hlen := hinside.positive
  have hlow := hinside.low
  have hself : (after.proc p).vma i = rest := by rw [htrimmed.vma, update_self]
  have hothers : ∀ j, j ≠ i → (after.proc p).vma j = (t.proc p).vma j := by
    intro j hj
    rw [htrimmed.vma, update_of_ne hj]
  have hval := htrimmed.valid
  have hstart := htrimmed.start
  have hlength := htrimmed.length
  have heq : addr = ((t.proc p).vma i).addr ↔
      addr.toNat = ((t.proc p).vma i).addr.toNat := toNat_inj.symm
  -- The rest of the area is what lies below the removed range.
  have hrest : ∀ a, rest.valid = true ∧ InRange rest a ↔
      InRange ((t.proc p).vma i) a ∧ ¬ Removed addr len a := by
    intro a
    rw [← Bool.not_eq_false, hval]
    simp only [InRange, Removed, hstart, hlength, heq]
    split <;> omega
  have hsame : ∀ a, rest.valid = true → InRange rest a →
      rest.addr.toNat = ((t.proc p).vma i).addr.toNat := by
    intro a hrestValid hrange
    rw [hstart, if_neg]
    rw [heq]
    intro hwhole
    rw [← Bool.not_eq_false, hval] at hrestValid
    omega
  refine ⟨fun a f position => ⟨?_, ?_⟩, fun other => ?_, ?_⟩
  · rintro ⟨j, hj, hrange, hf, hpos⟩
    by_cases hji : j = i
    · subst hji
      rw [hself] at hj hrange hf hpos
      obtain ⟨hin, hout⟩ := (hrest a).mp ⟨hj, hrange⟩
      rw [hsame a hj hrange] at hpos
      exact ⟨⟨j, hinside.valid, hin, htrimmed.file ▸ hf, hpos⟩, hout⟩
    · rw [hothers j hji] at hj hrange hf hpos
      refine ⟨⟨j, hj, hrange, hf, hpos⟩, fun hremoved => hji ?_⟩
      refine hranges.disjoint j i a hj hinside.valid hrange ?_
      obtain ⟨hfst, hlast⟩ := hremoved
      exact ⟨by omega, by omega⟩
  · rintro ⟨⟨j, hj, hrange, hf, hpos⟩, hout⟩
    by_cases hji : j = i
    · subst hji
      obtain ⟨hrestValid, hin⟩ := (hrest a).mpr ⟨hrange, hout⟩
      refine ⟨j, ?_, ?_, ?_, ?_⟩
      · rw [hself]
        exact hrestValid
      · rw [hself]
        exact hin
      · rw [hself, htrimmed.file]
        exact hf
      · rw [hself, hsame a hrestValid hin]
        exact hpos
    · refine ⟨j, ?_⟩
      rw [hothers j hji]
      exact ⟨hj, hrange, hf, hpos⟩
  · rw [hself]
    exact htrimmed.refs other
  · rw [hself, hval]
    simp only [InRange, Removed]
    constructor
    · intro hwhole a ha
      omega
    · intro hall
      have hfst := hall ((t.proc p).vma i).addr.toNat (by omega)
      omega

omit [DecidableEq P] in
/-- If something of the area is left above the removed range, its last byte is not
mapped any more, or to another position of the file. -/
theorem suffix_of_removesExactly (hranges : Ranges (t.proc p))
    (hin : Inside ((t.proc p).vma i) addr len) (htrimmed : Trimmed t after p i k addr len rest)
    (hexact : RemovesExactly t after p i k addr len) : addr.toNat + len.toInt.toNat =
      ((t.proc p).vma i).addr.toNat + ((t.proc p).vma i).len.toInt.toNat := by
  by_contra hsuffix
  obtain ⟨hpositive, hroom⟩ := hranges.fits i hin.valid
  have hlen := hin.positive
  have hlow := hin.low
  have hhigh := hin.high
  have hstart := htrimmed.start
  have hlength := htrimmed.length
  let last := ((t.proc p).vma i).addr.toNat + ((t.proc p).vma i).len.toInt.toNat - 1
  have hlast : InRange ((t.proc p).vma i) last := ⟨by omega, by omega⟩
  have hkept : ¬ Removed addr len last := fun hremoved => by
    have hbelow := hremoved.2
    omega
  obtain ⟨j, hj, hrange, -, hpos⟩ := (hexact.coverage last _ _).mpr
    ⟨⟨i, hin.valid, hlast, rfl, rfl⟩, hkept⟩
  rw [htrimmed.vma] at hj hrange hpos
  by_cases hji : j = i
  · subst hji
    rw [update_self] at hrange hpos
    obtain ⟨hfst, hbound⟩ := hrange
    rw [hstart] at hfst hbound hpos
    rw [hlength] at hbound
    by_cases hfront : addr = ((t.proc p).vma j).addr
    · have heq := toNat_inj.mpr hfront
      rw [if_pos hfront] at hfst hbound hpos
      omega
    · rw [if_neg hfront] at hfst hbound
      omega
  · rw [update_of_ne hji] at hj hrange
    exact hji (hranges.disjoint j i last hj hin.valid hrange hlast)

/-- When `sys_munmap` returns 0 it has removed exactly the range if and only if the
range is the end of the mapped area. -/
theorem munmap_exact_iff (hranges : Ranges (t.proc p))
    (hinside : Inside ((t.proc p).vma i) addr len)
    (hfile : ((t.proc p).vma i).f = .file k)
    (hcall : munmap t memory pagetable p addr len = .ok (0, after, final)) :
    RemovesExactly t after p i k addr len ↔ addr.toNat + len.toInt.toNat =
        ((t.proc p).vma i).addr.toNat + ((t.proc p).vma i).len.toInt.toNat := by
  have htrimmed := munmap_trims hranges hinside hfile hcall
  exact ⟨suffix_of_removesExactly hranges hinside htrimmed,
    removesExactly_of_suffix hranges hinside htrimmed⟩

end Munmap

instance : NeZero NVMA := ⟨by decide⟩

/-- A process with one mapped area of two pages, both of them touched. -/
def twoPages : State 1 Unit where
  files := noFiles.files
  proc _ := ⟨.running, fun _ => none, fun i =>
    ⟨decide (i = 0), 0x4000, 0x2000, 1, 2, .file 0⟩, 0x6000⟩
  below _ _ := none

def twoPagesMemory : Memory where
  kernelEnd := KERNBASE
  page pa :=
    if pa = KERNBASE then
      writeU64 (fun _ => 0) 0 (PA2PTE (KERNBASE + 0x1000) ||| PTE_V)
    else if pa = KERNBASE + 0x1000 then
      writeU64 (fun _ => 0) 0 (PA2PTE (KERNBASE + 0x2000) ||| PTE_V)
    else if pa = KERNBASE + 0x2000 then
      writeU64 (writeU64 (fun _ => 0) 32 (leafPte (KERNBASE + 0x3000) (PTE_R ||| PTE_U))) 40
          (leafPte (KERNBASE + 0x4000) (PTE_R ||| PTE_U))
    else fun _ => 0
  freelist := []

theorem ranges_twoPages : Ranges (twoPages.proc ()) := by
  refine ⟨fun i _ => ⟨by decide +revert, by decide +revert⟩, fun i j a hi hj _ _ => ?_⟩
  have hi' : i = 0 := of_decide_eq_true hi
  have hj' : j = 0 := of_decide_eq_true hj
  rw [hi', hj']

theorem munmap_returns {t : State N P} {memory : Memory} {pagetable : ℕ} {p : P}
    {addr : BitVec 64} {len : BitVec 32}
    (hvalue : (munmap t memory pagetable p addr len).map Prod.fst = .ok 0) :
    ∃ after final, munmap t memory pagetable p addr len = .ok (0, after, final) := by
  cases hcall : munmap t memory pagetable p addr len with
  | error panic =>
    rw [hcall] at hvalue
    cases hvalue
  | ok result =>
    obtain ⟨value, after, final⟩ := result
    rw [hcall] at hvalue
    have hzero : value = 0 := Except.ok.inj hvalue
    exact ⟨after, final, by rw [hzero]⟩

theorem munmap_exact_iff_lastPage :
    ∃ after final, munmap twoPages twoPagesMemory KERNBASE () 0x5000 0x1000 =
        .ok (0, after, final) ∧
      RemovesExactly twoPages after () 0 0 0x5000 0x1000 := by
  obtain ⟨after, final, hcall⟩ := @munmap_returns 1 Unit _ twoPages twoPagesMemory
    KERNBASE () 0x5000 0x1000 (by decide +kernel)
  refine ⟨after, final, hcall, (munmap_exact_iff ranges_twoPages
    ⟨by decide, by decide, by decide, by decide⟩ rfl hcall).mpr (by decide)⟩

/-- After `sys_munmap` of the first of two pages, the second is no longer mapped to the
second page of the file. -/
theorem munmap_front_shifts_the_file :
    ∃ after final, munmap twoPages twoPagesMemory KERNBASE () 0x4000 0x1000 =
        .ok (0, after, final) ∧
      ¬ RemovesExactly twoPages after () 0 0 0x4000 0x1000 := by
  obtain ⟨after, final, hcall⟩ := @munmap_returns 1 Unit _ twoPages twoPagesMemory
    KERNBASE () 0x4000 0x1000 (by decide +kernel)
  have hinside : Inside ((twoPages.proc ()).vma 0) 0x4000 0x1000 :=
    ⟨by decide, by decide, by decide, by decide⟩
  have htrimmed := munmap_trims (k := 0) ranges_twoPages hinside rfl hcall
  refine ⟨after, final, hcall, fun hexact => ?_⟩
  have hsuffix := suffix_of_removesExactly ranges_twoPages hinside htrimmed hexact
  exact absurd hsuffix (by decide)

end Xv6.MappingCalls
