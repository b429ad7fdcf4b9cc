import Xv6.Core.Outcome
import Xv6.Fs.FileTable

/-!
# References to open files

Every reference count of the file table is the number of descriptors and valid
mapped areas, in all processes, that point to the entry.  Each system call returns
with this balance restored; in particular it does not panic in `filedup` or
`fileclose`.
-/

namespace Xv6.FileReferences

open OpenFiles FileTable Interleaving Function Finset List Nat Option
open Outcome (foldlM_returns)

section
variable {N : ℕ}

/-! ## The references of one process -/

def vmaHeld (vma : Vma N) (k : Fin N) : ℕ := if vma.valid = true ∧ vma.f = .file k then 1 else 0

def slotHeld (slot : Option (Fin N)) (k : Fin N) : ℕ := if slot = some k then 1 else 0

/-- The references to an entry in `p->ofile` and `p->vma`. -/
def held (pr : Proc N) (k : Fin N) : ℕ :=
  (∑ fd, slotHeld (pr.ofile fd) k) + ∑ i, vmaHeld (pr.vma i) k

variable {pr : Proc N} {fd : Fin NOFILE} {i : Fin NVMA} {k : Fin N} {vma : Vma N}

theorem held_setOfile (file : Option (Fin N)) (l : Fin N) :
    held (setOfile pr fd file) l + slotHeld (pr.ofile fd) l = held pr l + slotHeld file l := by
  have hsum := sum_update (fun slot : Option (Fin N) => slotHeld slot l) pr.ofile fd file
  simp only [held, setOfile]
  omega

theorem held_setVma (vma : Vma N) (l : Fin N) : held (setVma pr i vma) l + vmaHeld (pr.vma i) l =
    held pr l + vmaHeld vma l := by
  have hsum := sum_update (fun vma : Vma N => vmaHeld vma l) pr.vma i vma
  simp only [held, setVma]
  omega

theorem slotHeld_none (l : Fin N) : slotHeld none l = 0 := rfl

theorem slotHeld_some (k l : Fin N) : slotHeld (some k) l = if l = k then 1 else 0 := by
  simp only [slotHeld, some.injEq, @eq_comm _ k l]

theorem vmaHeld_invalid (hval : vma.valid = false) (l : Fin N) : vmaHeld vma l = 0 := by
  simp [vmaHeld, hval]

theorem vmaHeld_valid (hval : vma.valid = true) (hf : vma.f = .file k)
    (l : Fin N) : vmaHeld vma l = if l = k then 1 else 0 := by
  simp only [vmaHeld, hval, hf, true_and, Pointer.file.injEq, @eq_comm _ k l]

theorem held_gain_ofile (hfree : pr.ofile fd = none) (l : Fin N) :
    held (setOfile pr fd (some k)) l = held pr l + if l = k then 1 else 0 := by
  have hheld := @held_setOfile N pr fd (some k) l
  rw [hfree, slotHeld_none, slotHeld_some, add_zero] at hheld
  exact hheld

theorem held_lose_ofile (hslot : pr.ofile fd = some k) (l : Fin N) :
    held (setOfile pr fd none) l + (if l = k then 1 else 0) = held pr l := by
  have hheld := @held_setOfile N pr fd none l
  rw [hslot, slotHeld_none, slotHeld_some, add_zero] at hheld
  exact hheld

theorem held_gain_vma (hfree : (pr.vma i).valid = false)
    (hval : vma.valid = true) (hf : vma.f = .file k) (l : Fin N) :
    held (setVma pr i vma) l = held pr l + if l = k then 1 else 0 := by
  have hheld := @held_setVma N pr i vma l
  rw [vmaHeld_invalid hfree, vmaHeld_valid hval hf, add_zero] at hheld
  exact hheld

theorem held_lose_vma (hval : (pr.vma i).valid = true)
    (hf : (pr.vma i).f = .file k) (hinvalid : vma.valid = false) (l : Fin N) :
    held (setVma pr i vma) l + (if l = k then 1 else 0) = held pr l := by
  have hheld := @held_setVma N pr i vma l
  rw [vmaHeld_invalid hinvalid, vmaHeld_valid hval hf, add_zero] at hheld
  exact hheld

theorem held_keep_vma (hval : vma.valid = (pr.vma i).valid)
    (hf : vma.f = (pr.vma i).f) (l : Fin N) : held (setVma pr i vma) l = held pr l := by
  have hheld := @held_setVma N pr i vma l
  have hsame : vmaHeld vma l = vmaHeld (pr.vma i) l := by simp [vmaHeld, hval, hf]
  omega

theorem fdalloc_free (hfd : fdalloc pr = some fd) : pr.ofile fd = none := by
  have hfree := List.find?_some hfd
  rwa [decide_eq_true_iff] at hfree

theorem argfd_slot {number : ℤ} (harg : argfd pr number = some (fd, k)) : pr.ofile fd = some k := by
  unfold argfd at harg
  split at harg
  case isTrue =>
    simp only [map_eq_some_iff, Prod.mk.injEq] at harg
    obtain ⟨_, hslot, rfl, rfl⟩ := harg
    exact hslot
  case isFalse => cases harg

/-! ## The references of all processes -/

variable {P : Type} [Fintype P] [DecidableEq P] {t after : State N P} {p : P}

def total (t : State N P) (k : Fin N) : ℕ := ∑ p, held (t.proc p) k

theorem total_setProc (pr : Proc N) (l : Fin N) :
    total (setProc t p pr) l + held (t.proc p) l = total t l + held pr l :=
  sum_update (fun pr => held pr l) t.proc p pr

theorem total_gain (hheld : ∀ l, held pr l = held (t.proc p) l + if l = k then 1 else 0) :
    total (setProc t p pr) = update (total t) k (total t k + 1) := by
  funext l
  have htotal := @total_setProc N P _ _ t p pr l
  have hl := hheld l
  by_cases hsame : l = k
  · subst hsame
    rw [update_self]
    simp only [if_true] at hl
    omega
  · rw [update_of_ne hsame]
    simp only [hsame, if_false] at hl
    omega

theorem total_gain_two {first : Proc N} {m : Fin N} (hne : k ≠ m)
    (hfst : ∀ l, held first l = held (t.proc p) l + if l = k then 1 else 0)
    (hsnd : ∀ l, held pr l = held first l + if l = m then 1 else 0) :
    total (setProc t p pr) = update (update (total t) k (total t k + 1)) m (total t m + 1) := by
  have hgain := total_gain hfst
  funext l
  have hbefore := @total_setProc N P _ _ t p first l
  have hafter := @total_setProc N P _ _ t p pr l
  have hl := hsnd l
  rw [hgain] at hbefore
  by_cases hsame : l = m
  · subst hsame
    rw [update_of_ne hne.symm] at hbefore
    rw [update_self]
    simp only [if_true] at hl
    omega
  · rw [update_of_ne hsame]
    simp only [hsame, if_false] at hl
    omega

theorem total_lose (hheld : ∀ l, held pr l + (if l = k then 1 else 0) = held (t.proc p) l) :
    total (setProc t p pr) = update (total t) k (total t k - 1) := by
  funext l
  have htotal := @total_setProc N P _ _ t p pr l
  have hl := hheld l
  by_cases hsame : l = k
  · subst hsame
    rw [update_self]
    simp only [if_true] at hl
    omega
  · rw [update_of_ne hsame]
    simp only [hsame, if_false] at hl
    omega

theorem total_keep (hheld : ∀ l, held pr l = held (t.proc p) l) :
    total (setProc t p pr) = total t := by
  funext l
  have htotal := @total_setProc N P _ _ t p pr l
  have hl := hheld l
  omega

omit [DecidableEq P] in
theorem total_pos (hheld : 0 < held (t.proc p) k) : 0 < total t k :=
  lt_of_lt_of_le hheld (single_le_sum (f := fun p => held (t.proc p) k)
      (fun _ _ => zero_le _) (mem_univ p))

omit [DecidableEq P] in
theorem total_pos_ofile (hslot : (t.proc p).ofile fd = some k) : 0 < total t k := by
  refine total_pos (p := p) ?_
  have hheld := held_lose_ofile hslot k
  simp only [if_true] at hheld
  omega

omit [DecidableEq P] in
theorem total_pos_vma (hval : ((t.proc p).vma i).valid = true)
    (hf : ((t.proc p).vma i).f = .file k) : 0 < total t k := by
  refine total_pos (p := p) ?_
  have hheld := @held_lose_vma N (t.proc p) i k
    { (t.proc p).vma i with valid := false } hval hf rfl k
  simp only [if_true] at hheld
  omega

/-- The reference counts are exact; mapped areas point to entries of the table; a
process that is not running holds nothing. -/
structure Balanced (t : State N P) : Prop where
  exact : Exact (total t) t.files
  mapped : ∀ p i, ((t.proc p).vma i).valid = true → ∃ k, ((t.proc p).vma i).f = .file k
  idle : ∀ p, (t.proc p).state ≠ .running →
    (∀ fd, (t.proc p).ofile fd = none) ∧ ∀ i, ((t.proc p).vma i).valid = false

theorem Balanced.setProc (hbal : Balanced t) (fs : Files N) (pr : Proc N)
    (hidle : pr.state ≠ .running → (∀ fd, pr.ofile fd = none) ∧ ∀ i, (pr.vma i).valid = false)
    (hmapped : ∀ i, (pr.vma i).valid = true → ∃ k, (pr.vma i).f = .file k)
    (hexact : Exact (total (setProc t p pr)) fs) :
    Balanced (setProc { t with files := fs } p pr) := by
  refine ⟨hexact, ?_, ?_⟩
  · intro q i
    by_cases hq : q = p
    · subst hq
      simpa [OpenFiles.setProc] using hmapped i
    · simpa [OpenFiles.setProc, hq] using hbal.mapped q i
  · intro q
    by_cases hq : q = p
    · subst hq
      simpa [OpenFiles.setProc] using hidle
    · simpa [OpenFiles.setProc, hq] using hbal.idle q

/-! ## The system calls -/

theorem map_returns {α β : Type} {program : Except Panic α} {value : α}
    (hprogram : program = .ok value) (f : α → β) : program.map f = .ok (f value) := by
  rw [hprogram]
  rfl

theorem sysOpen_balanced (hbal : Balanced t)
    (hrun : (t.proc p).state = .running) (found : Option Opened) :
    ∃ after, sysOpen t p found = .ok after ∧ Balanced after := by
  unfold sysOpen
  split
  · exact ⟨t, rfl, hbal⟩
  case h_2 opened =>
    split
    · exact ⟨t, rfl, hbal⟩
    case h_2 k fs halloc =>
      obtain ⟨hzero, htype, hexact⟩ := filealloc_exact hbal.exact halloc
      split
      case h_1 =>
        obtain ⟨closed, hclose, hclosed⟩ := @fileclose_exact _ _ _ k hexact (by simp)
        refine ⟨_, map_returns hclose _, ?_, hbal.mapped, hbal.idle⟩
        change Exact (total t) closed
        simpa using hclosed
      case h_2 fd hfd =>
        refine ⟨_, rfl, hbal.setProc _ _ (absurd hrun) (hbal.mapped p) ?_⟩
        rw [total_gain (held_gain_ofile (fdalloc_free hfd))]
        have hset := @Exact.setFile _ _ _ k hexact { fs.file k with
          type := if opened.device then .device else .inode
          readable := opened.readable
          writable := opened.writable } (by simp [htype])
          (by dsimp only; split <;> simp)
          (by simp [hexact.ref])
        rwa [show ({ fs.file k with
          type := if opened.device then FileType.device else .inode
          readable := opened.readable
          writable := opened.writable } : File).ref = total t k + 1 by
            simp [hexact.ref], update_idem] at hset

theorem sysDup_balanced (hbal : Balanced t) (hrun : (t.proc p).state = .running) (number : ℤ) :
    ∃ after, sysDup t p number = .ok after ∧ Balanced after := by
  unfold sysDup
  split
  · exact ⟨t, rfl, hbal⟩
  case h_2 fd k harg =>
    split
    · exact ⟨t, rfl, hbal⟩
    case h_2 new hnew =>
      obtain ⟨fs, hdup, hexact⟩ := filedup_exact hbal.exact (total_pos_ofile (argfd_slot harg))
      refine ⟨_, map_returns hdup _, hbal.setProc _ _ (absurd hrun) (hbal.mapped p) ?_⟩
      rwa [total_gain (held_gain_ofile (fdalloc_free hnew))]

theorem close_balanced (hbal : Balanced t) (hrun : (t.proc p).state = .running)
    (hslot : (t.proc p).ofile fd = some k) : ∃ fs, fileclose t.files k = .ok fs ∧ Balanced
      (setProc { t with files := fs } p (setOfile (t.proc p) fd none)) := by
  obtain ⟨fs, hclose, hexact⟩ := fileclose_exact hbal.exact (total_pos_ofile hslot)
  refine ⟨fs, hclose, hbal.setProc _ _ (absurd hrun) (hbal.mapped p) ?_⟩
  rwa [total_lose (held_lose_ofile hslot)]

theorem sysClose_balanced (hbal : Balanced t) (hrun : (t.proc p).state = .running) (number : ℤ) :
    ∃ after, sysClose t p number = .ok after ∧ Balanced after := by
  unfold sysClose
  split
  · exact ⟨t, rfl, hbal⟩
  case h_2 fd k harg =>
    obtain ⟨fs, hclose, hafter⟩ := close_balanced hbal hrun (argfd_slot harg)
    exact ⟨_, map_returns hclose _, hafter⟩

theorem fileclose_both {count : Fin N → ℕ} {fs : Files N} {f0 f1 : Fin N}
    (hexact : Exact (update (update count f0 1) f1 1) fs)
    (hne : f0 ≠ f1) (hzero0 : count f0 = 0) (hzero1 : count f1 = 0) :
    ∃ final, ((fileclose fs f0).bind fun fs => fileclose fs f1) = .ok final ∧
      Exact count final := by
  obtain ⟨closed, hclose, hclosed⟩ := @fileclose_exact _ _ _ f0 hexact (by simp [hne])
  obtain ⟨final, hfinal, hend⟩ := @fileclose_exact _ _ _ f1 hclosed (by simp [hne.symm])
  have hback : update (update (update (update count f0 1) f1 1) f0 0) f1 0 = count := by
    funext l
    by_cases h1 : l = f1
    · simp [h1, hzero1]
    · by_cases h0 : l = f0
      · simp [h0, hne, hzero0]
      · simp [h0, h1]
  refine ⟨final, ?_, ?_⟩
  · rw [hclose]
    exact hfinal
  · simpa [hne, hne.symm, hback] using hend

theorem pipealloc_exact {count : Fin N → ℕ} {fs : Files N} (hexact : Exact count fs) (page : Bool) :
    ∃ found after, pipealloc fs page = .ok (found, after) ∧
      match found with
      | none => Exact count after
      | some (f0, f1) => f0 ≠ f1 ∧ count f0 = 0 ∧ count f1 = 0 ∧
          Exact (update (update count f0 1) f1 1) after := by
  unfold pipealloc
  split
  · exact ⟨none, fs, rfl, hexact⟩
  case h_2 f0 one hfst =>
    obtain ⟨hzero0, htype0, hexact0⟩ := filealloc_exact hexact hfst
    rw [hzero0] at hexact0
    split
    case h_1 =>
      obtain ⟨closed, hclose, hclosed⟩ := @fileclose_exact _ _ _ f0 hexact0 (by simp)
      refine ⟨none, closed, map_returns hclose _, ?_⟩
      simpa [← hzero0] using hclosed
    case h_2 f1 two hsnd =>
      obtain ⟨hzero1, htype1, hexact1⟩ := filealloc_exact hexact0 hsnd
      rw [hzero1] at hexact1
      have hne : f0 ≠ f1 := by
        rintro rfl
        simp at hzero1
      rw [update_of_ne hne.symm] at hzero1
      have htype : (two.file f0).type = .none := by
        simp only [filealloc, map_eq_some_iff, Prod.mk.injEq] at hsnd
        obtain ⟨_, _, rfl, rfl⟩ := hsnd
        simpa [setFile, hne] using htype0
      split
      case isTrue =>
        refine ⟨some (f0, f1), _, rfl, hne, hzero0, hzero1, ?_⟩
        exact pipeinit_exact hexact1 hne htype htype1 (by simp [hne])
      case isFalse =>
        obtain ⟨final, hfinal, hend⟩ := fileclose_both hexact1 hne hzero0 hzero1
        exact ⟨none, final, map_returns hfinal _, hend⟩

theorem setOfile_undo (hfree : pr.ofile fd = none) (file : Option (Fin N)) :
    setOfile (setOfile pr fd file) fd none = pr := by
  rw [← hfree]
  simp [setOfile]

theorem setOfile_comm {other : Fin NOFILE} (hne : fd ≠ other) (first second : Option (Fin N)) :
    setOfile (setOfile pr fd first) other second =
      setOfile (setOfile pr other second) fd first := by
  simp only [setOfile, update_comm hne]

omit [Fintype P] in
theorem setProc_self (t : State N P) (p : P) : setProc t p (t.proc p) = t := by simp [setProc]

omit [DecidableEq P] in
theorem closeBoth_balanced {f0 f1 : Fin N} {fs : Files N}
    (hbal : Balanced t) (hne : f0 ≠ f1) (hzero0 : total t f0 = 0) (hzero1 : total t f1 = 0)
    (hexact : Exact (update (update (total t) f0 1) f1 1) fs) :
    ∃ after, closeBoth t fs f0 f1 = .ok after ∧ Balanced after := by
  obtain ⟨final, hfinal, hend⟩ := fileclose_both hexact hne hzero0 hzero1
  exact ⟨_, map_returns hfinal _, hend, hbal.mapped, hbal.idle⟩

theorem sysPipe_balanced (hbal : Balanced t)
    (hrun : (t.proc p).state = .running) (page copied : Bool) :
    ∃ after, sysPipe t p page copied = .ok after ∧ Balanced after := by
  obtain ⟨found, fs, halloc, hf⟩ := pipealloc_exact hbal.exact page
  unfold sysPipe
  rw [halloc]
  cases found with
  | none => exact ⟨_, rfl, hf, hbal.mapped, hbal.idle⟩
  | some ends =>
    obtain ⟨rf, wf⟩ := ends
    obtain ⟨hne, hzero0, hzero1, hexact⟩ := hf
    have hfail := closeBoth_balanced hbal hne hzero0 hzero1 hexact
    dsimp only
    split
    case h_1 => exact hfail
    case h_2 fd0 hfd0 =>
      have hfree0 := fdalloc_free hfd0
      split
      case h_1 =>
        rw [setOfile_undo hfree0, setProc_self]
        exact hfail
      case h_2 fd1 hfd1 =>
        have hfree1 := fdalloc_free hfd1
        have hslots : fd0 ≠ fd1 := by
          rintro rfl
          simp [setOfile] at hfree1
        split
        case isTrue =>
          refine ⟨_, rfl, hbal.setProc _ _ (absurd hrun) (hbal.mapped p) ?_⟩
          rw [total_gain_two hne (held_gain_ofile hfree0) (held_gain_ofile hfree1), hzero0, hzero1]
          exact hexact
        case isFalse =>
          rw [setOfile_comm hslots, setOfile_undo (by
            simpa [setOfile, hslots.symm] using hfree1), setOfile_undo hfree0,
            setProc_self]
          exact hfail

theorem sysMmap_balanced (hbal : Balanced t)
    (hrun : (t.proc p).state = .running) {len prot flag : BitVec 32}
    {number : ℤ} (hnumber : 0 ≤ number) {result : Except Panic (State N P)}
    (hmmap : sysMmap t p len prot flag number = some result) :
    (∃ after, result = .ok after ∧ Balanced after) ∨ result = .error .kerneltrap := by
  unfold sysMmap at hmmap
  split at hmmap
  · cases hmmap
  · split at hmmap
    · cases hmmap
      exact .inr rfl
    case h_2 f hf =>
      split at hmmap
      · cases hmmap
      · split at hmmap
        · cases hmmap
        case h_2 i hfound =>
          cases hmmap
          have hfree := List.find?_some hfound
          rw [decide_eq_true_iff] at hfree
          rw [mmapFile, if_neg (by omega), map_eq_some_iff] at hf
          obtain ⟨⟨fd, k⟩, harg, rfl⟩ := hf
          obtain ⟨fs, hdup, hexact⟩ := filedup_exact hbal.exact (total_pos_ofile (argfd_slot harg))
          refine .inl ⟨_, map_returns hdup _, hbal.setProc _ _ (absurd hrun) ?_ ?_⟩
          · intro j hval
            by_cases hj : j = i
            · subst hj
              exact ⟨k, by simp [setVma]⟩
            · simp only [setVma, update_of_ne hj] at hval ⊢
              exact hbal.mapped p j hval
          · rw [total_gain (k := k) fun l => ?_]
            · exact hexact
            · exact held_gain_vma hfree rfl rfl l

theorem unmap_balanced (hbal : Balanced t) (hrun : (t.proc p).state = .running)
    (hval : ((t.proc p).vma i).valid = true) (hf : ((t.proc p).vma i).f = .file k) :
    ∃ fs, fileclose t.files k = .ok fs ∧ ∀ vma : Vma N, vma.valid = false →
      Balanced (setProc { t with files := fs } p (setVma (t.proc p) i vma)) := by
  obtain ⟨fs, hclose, hexact⟩ := fileclose_exact hbal.exact (total_pos_vma hval hf)
  refine ⟨fs, hclose, fun vma hinvalid => hbal.setProc _ _ (absurd hrun) ?_ ?_⟩
  · intro j hj
    by_cases hsame : j = i
    · subst hsame
      simp [setVma, hinvalid] at hj
    · simp only [setVma, update_of_ne hsame] at hj ⊢
      exact hbal.mapped p j hj
  · rwa [total_lose (held_lose_vma hval hf hinvalid)]

theorem sysMunmap_balanced (hbal : Balanced t)
    (hrun : (t.proc p).state = .running) {addr : BitVec 64} {len : BitVec 32}
    {result : Except Panic (State N P)} (hmunmap : sysMunmap t p addr len = some result) :
    ∃ after, result = .ok after ∧ Balanced after := by
  unfold sysMunmap at hmunmap
  dsimp only at hmunmap
  split at hmunmap
  · cases hmunmap
    exact ⟨t, rfl, hbal⟩
  case h_2 i hfound =>
    have hcovers := List.find?_some hfound
    have hval : ((t.proc p).vma i).valid = true := by
      simp only [covers, Bool.and_eq_true] at hcovers
      exact hcovers.1.1
    obtain ⟨k, hf⟩ := hbal.mapped p i hval
    split at hmunmap
    case isTrue =>
      rw [hf] at hmunmap
      cases hmunmap
      obtain ⟨fs, hclose, hafter⟩ := unmap_balanced hbal hrun hval hf
      exact ⟨_, map_returns hclose _, hafter _ rfl⟩
    case isFalse =>
      cases hmunmap
      refine ⟨_, rfl, hbal.setProc t.files _ (absurd hrun) ?_ ?_⟩
      · intro j hj
        by_cases hsame : j = i
        · subst hsame
          exact ⟨k, by simp [setVma, hf]⟩
        · simp only [setVma, update_of_ne hsame] at hj ⊢
          exact hbal.mapped p j hj
      · rw [total_keep (held_keep_vma (by rfl) (by rfl))]
        exact hbal.exact

/-! ## `fork` and `exit` -/

/-- The state of the child before the mapped areas `items` are copied. -/
def CopiesVmas (child : P) (items : List (Fin NVMA)) (t : State N P) : Prop :=
  Balanced t ∧ (t.proc child).state = .running ∧
    (∀ fd, (t.proc child).ofile fd = none) ∧ items.Nodup ∧
    ∀ i ∈ items, ((t.proc child).vma i).valid = false

theorem forkVma_copies {child : P} {rest : List (Fin NVMA)}
    (hcopies : CopiesVmas child (i :: rest) t) :
    ∃ after, forkVma p child t i = .ok after ∧ CopiesVmas child rest after := by
  obtain ⟨hbal, hrun, hofile, hnd, hvma⟩ := hcopies
  obtain ⟨hnew, hrest⟩ := nodup_cons.mp hnd
  unfold forkVma
  dsimp only
  split
  case isTrue hval =>
    obtain ⟨k, hf⟩ := hbal.mapped p i hval
    obtain ⟨fs, hdup, hexact⟩ := filedup_exact hbal.exact (total_pos_vma hval hf)
    rw [hf]
    refine ⟨_, map_returns hdup _, hbal.setProc _ _ (absurd hrun) ?_ ?_, ?_, ?_, hrest, ?_⟩
    · intro j hj
      by_cases hsame : j = i
      · subst hsame
        exact ⟨k, by simp [setVma, hf]⟩
      · simp only [setVma, update_of_ne hsame] at hj ⊢
        exact hbal.mapped child j hj
    · rwa [total_gain (held_gain_vma (hvma i mem_cons_self) hval hf)]
    · simpa [setProc, setVma] using hrun
    · simpa [setProc, setVma] using hofile
    · intro j hj
      have hne : j ≠ i := fun heq => hnew (heq ▸ hj)
      simpa [setProc, setVma, hne] using hvma j (mem_cons_of_mem _ hj)
  case isFalse =>
    exact ⟨t, rfl, hbal, hrun, hofile, hrest, fun j hj => hvma j (mem_cons_of_mem _ hj)⟩

/-- The state of the child before the descriptors `items` are copied. -/
def CopiesFiles (child : P) (items : List (Fin NOFILE)) (t : State N P) : Prop :=
  Balanced t ∧ (t.proc child).state = .running ∧ items.Nodup ∧
    ∀ fd ∈ items, (t.proc child).ofile fd = none

theorem forkFile_copies {child : P} {rest : List (Fin NOFILE)}
    (hcopies : CopiesFiles child (fd :: rest) t) :
    ∃ after, forkFile p child t fd = .ok after ∧ CopiesFiles child rest after := by
  obtain ⟨hbal, hrun, hnd, hofile⟩ := hcopies
  obtain ⟨hnew, hrest⟩ := nodup_cons.mp hnd
  unfold forkFile
  split
  case h_1 => exact ⟨t, rfl, hbal, hrun, hrest, fun other ho => hofile other (mem_cons_of_mem _ ho)⟩
  case h_2 k hslot =>
    obtain ⟨fs, hdup, hexact⟩ := filedup_exact hbal.exact (total_pos_ofile hslot)
    refine ⟨_, map_returns hdup _, hbal.setProc _ _ (absurd hrun)
      (hbal.mapped child) ?_, ?_, hrest, ?_⟩
    · rwa [total_gain (held_gain_ofile (hofile fd mem_cons_self))]
    · simpa [setProc, setOfile] using hrun
    · intro other ho
      have hne : other ≠ fd := fun heq => hnew (heq ▸ ho)
      simpa [setProc, setOfile, hne] using hofile other (mem_cons_of_mem _ ho)

theorem fork_balanced {child : P} (hbal : Balanced t)
    (hunused : (t.proc child).state = .unused) (copied : Bool) :
    ∃ after, fork t p child copied = .ok after ∧ Balanced after := by
  obtain ⟨hofile, hvma⟩ := hbal.idle child (by simp [hunused])
  have hheld : ∀ l, held (allocproc (t.proc child)) l = held (t.proc child) l := by
    intro l
    simp [held, allocproc, vmaHeld, hvma]
  unfold fork
  dsimp only
  split
  case isTrue =>
    have hstart : Balanced (setProc t child { allocproc (t.proc child) with
        state := .running, sz := (t.proc p).sz }) := by
      refine hbal.setProc t.files _ (absurd rfl) (by simp [allocproc]) ?_
      rw [total_keep (by exact hheld)]
      exact hbal.exact
    have hsame : setProc (setProc t child (allocproc (t.proc child))) child
        { (setProc t child (allocproc (t.proc child))).proc child with
          state := .running
          sz := ((setProc t child (allocproc (t.proc child))).proc p).sz } =
        setProc t child { allocproc (t.proc child) with
          state := .running, sz := (t.proc p).sz } := by
      by_cases hp : p = child
      · subst hp
        simp [setProc, allocproc]
      · simp [setProc, hp]
    rw [hsame]
    have hcopies : CopiesVmas child (List.finRange NVMA) (setProc t child
        { allocproc (t.proc child) with
          state := .running, sz := (t.proc p).sz }) :=
      ⟨hstart, by simp [setProc], by simpa [setProc, allocproc] using hofile,
        nodup_finRange _, by simp [setProc, allocproc]⟩
    obtain ⟨middle, hmiddle, hbetween, hrun, hnone, _⟩ := foldlM_returns
      (fun i rest t => @forkVma_copies _ i _ _ _ t p child rest) hcopies
    have hslots : CopiesFiles child (List.finRange NOFILE) middle :=
      ⟨hbetween, hrun, nodup_finRange _, fun fd _ => hnone fd⟩
    obtain ⟨after, hafter, hend, _⟩ := foldlM_returns
      (fun fd rest t => @forkFile_copies _ fd _ _ _ t p child rest) hslots
    exact ⟨after, by rw [hmiddle]; exact hafter, hend⟩
  case isFalse =>
    refine ⟨_, rfl, hbal.setProc t.files _ ?_ (by simp [allocproc]) ?_⟩
    · intro _
      exact ⟨hofile, fun _ => rfl⟩
    · rw [total_keep hheld]
      exact hbal.exact

/-- The state of the process before `exit` closes the descriptors `items`. -/
def ClosesFiles (p : P) (items : List (Fin NOFILE)) (t : State N P) : Prop :=
  Balanced t ∧ (t.proc p).state = .running ∧ ∀ fd, fd ∉ items → (t.proc p).ofile fd = none

theorem exitFile_closes {rest : List (Fin NOFILE)} (hcloses : ClosesFiles p (fd :: rest) t) :
    ∃ after, exitFile p t fd = .ok after ∧ ClosesFiles p rest after := by
  obtain ⟨hbal, hrun, hfiles⟩ := hcloses
  unfold exitFile
  split
  case h_1 hslot =>
    refine ⟨t, rfl, hbal, hrun, fun other ho => ?_⟩
    by_cases hsame : other = fd
    · rw [hsame]
      exact hslot
    · exact hfiles other (by simp [hsame, ho])
  case h_2 k hslot =>
    obtain ⟨fs, hclose, hafter⟩ := close_balanced hbal hrun hslot
    refine ⟨_, map_returns hclose _, hafter, ?_, ?_⟩
    · simpa [setProc, setOfile] using hrun
    · intro other ho
      by_cases hsame : other = fd
      · simp [setProc, setOfile, hsame]
      · simpa [setProc, setOfile, hsame] using hfiles other (by simp [hsame, ho])

/-- The state of the process before `exit` closes the mapped areas `items`. -/
def ClosesVmas (p : P) (items : List (Fin NVMA)) (t : State N P) : Prop :=
  Balanced t ∧ (t.proc p).state = .running ∧ (∀ fd, (t.proc p).ofile fd = none) ∧
    ∀ i, i ∉ items → ((t.proc p).vma i).valid = false

theorem exitVma_closes {rest : List (Fin NVMA)} (hcloses : ClosesVmas p (i :: rest) t) :
    ∃ after, exitVma p t i = .ok after ∧ ClosesVmas p rest after := by
  obtain ⟨hbal, hrun, hfiles, hareas⟩ := hcloses
  unfold exitVma
  dsimp only
  split
  case isTrue hval =>
    obtain ⟨k, hf⟩ := hbal.mapped p i hval
    obtain ⟨fs, hclose, hafter⟩ := unmap_balanced hbal hrun hval hf
    rw [hf]
    refine ⟨_, map_returns hclose _, hafter _ rfl, ?_, ?_, ?_⟩
    · simpa [setProc, setVma] using hrun
    · simpa [setProc, setVma] using hfiles
    · intro j hj
      by_cases hsame : j = i
      · simp [setProc, setVma, hsame]
      · simpa [setProc, setVma, hsame] using hareas j (by simp [hsame, hj])
  case isFalse hinvalid =>
    refine ⟨t, rfl, hbal, hrun, hfiles, fun j hj => ?_⟩
    by_cases hsame : j = i
    · rw [hsame]
      exact Bool.eq_false_iff.mpr hinvalid
    · exact hareas j (by simp [hsame, hj])

theorem exit_balanced (hbal : Balanced t) (hrun : (t.proc p).state = .running) :
    ∃ after, exit t p = .ok after ∧ Balanced after := by
  have hfst : ClosesFiles p (List.finRange NOFILE) t :=
    ⟨hbal, hrun, fun fd hfd => absurd (mem_finRange fd) hfd⟩
  obtain ⟨middle, hmiddle, hbetween, hstate, hnone⟩ := foldlM_returns
    (fun fd rest t => @exitFile_closes _ fd _ _ _ t p rest) hfst
  have hsnd : ClosesVmas p (List.finRange NVMA) middle :=
    ⟨hbetween, hstate, fun fd => hnone fd not_mem_nil, fun i hi => absurd (mem_finRange i) hi⟩
  obtain ⟨after, hafter, hend, _, hfiles, hareas⟩ := foldlM_returns
    (fun i rest t => @exitVma_closes _ i _ _ _ t p rest) hsnd
  refine ⟨setProc after p { after.proc p with state := .zombie }, ?_, ?_⟩
  · simp only [exit, hmiddle, Outcome.ok_bind, hafter]
  · have hkeep : total (setProc after p { after.proc p with state := .zombie }) =
        total after := total_keep fun _ => rfl
    refine hend.setProc after.files _
      (fun _ => ⟨hfiles, fun i => hareas i not_mem_nil⟩) (hend.mapped p) ?_
    rw [hkeep]
    exact hend.exact

/-! ## Every run -/

/-- `sys_mmap` is not called with a negative descriptor. -/
def Nonnegative : P × Call P → Prop
  | (_, .mmap _ _ _ number) => 0 ≤ number
  | _ => True

/-- A system call returns with exact counts, faults in `sys_mmap` on a descriptor
that is not open, or is the exit of the first process. -/
theorem exec_balanced {initproc : P} {action : P × Call P}
    {result : Except Panic (State N P)} (hbal : Balanced t) (hnumber : Nonnegative action)
    (hexec : exec initproc t action = some result) :
    (∃ after, result = .ok after ∧ Balanced after) ∨
      result = .error .kerneltrap ∨ result = .error .initExiting := by
  obtain ⟨p, call⟩ := action
  simp only [exec] at hexec
  split at hexec
  case isFalse => cases hexec
  case isTrue hrun =>
    cases call with
    | «open» found =>
      cases hexec
      exact .inl (sysOpen_balanced hbal hrun found)
    | dup number =>
      cases hexec
      exact .inl (sysDup_balanced hbal hrun number)
    | close number =>
      cases hexec
      exact .inl (sysClose_balanced hbal hrun number)
    | pipe page copied =>
      cases hexec
      exact .inl (sysPipe_balanced hbal hrun page copied)
    | mmap len prot flag number => exact (sysMmap_balanced hbal hrun hnumber hexec).imp_right .inl
    | munmap addr len => exact .inl (sysMunmap_balanced hbal hrun hexec)
    | fork child copied =>
      cases child with
      | none =>
        cases hexec
        exact .inl ⟨t, rfl, hbal⟩
      | some child =>
        dsimp only at hexec
        split at hexec
        case isTrue hunused =>
          cases hexec
          exact .inl (fork_balanced hbal hunused copied)
        case isFalse => cases hexec
    | exit =>
      dsimp only at hexec
      split at hexec <;> cases hexec
      · exact .inr (.inr rfl)
      · exact .inl (exit_balanced hbal hrun)
    | wait child =>
      dsimp only at hexec
      split at hexec
      case isTrue hzombie =>
        cases hexec
        have hidle := hbal.idle child (by simp [hzombie])
        have hkeep : total (setProc t child { t.proc child with state := .unused }) = total t :=
          total_keep fun _ => rfl
        refine .inl ⟨_, rfl, hbal.setProc t.files _ (fun _ => hidle) (hbal.mapped child) ?_⟩
        rw [hkeep]
        exact hbal.exact
      case isFalse => cases hexec

/-- No file is open and no area is mapped. -/
structure Initial (t : State N P) : Prop where
  file : ∀ k, (t.files.file k).ref = 0 ∧ (t.files.file k).type = .none
  pipes : t.files.pipes = 0
  ofile : ∀ p fd, (t.proc p).ofile fd = none
  vma : ∀ p i, ((t.proc p).vma i).valid = false

omit [DecidableEq P] in
theorem initial_balanced (hinit : Initial t) : Balanced t := by
  have hnone : ∀ k, total t k = 0 := by
    intro k
    simp [total, held, slotHeld, vmaHeld, hinit.ofile, hinit.vma]
  refine ⟨⟨?_, ?_, ?_, ?_, ?_, ?_⟩, ?_, ?_⟩
  · intro k
    rw [hnone, (hinit.file k).1]
  · intro k _
    exact (hinit.file k).2
  · intro k hpipe
    simp [(hinit.file k).2] at hpipe
  · intro k l pi writable hk
    simp [IsEnd, (hinit.file k).2] at hk
  · intro pi writable hpi
    simp [hinit.pipes] at hpi
  · intro pi hpi
    simp [hinit.pipes] at hpi
  · intro p i hval
    simp [hinit.vma] at hval
  · intro p _
    exact ⟨hinit.ofile p, hinit.vma p⟩

/-- The states in the runs in which `sys_mmap` has no negative descriptor. -/
abbrev Runs (initproc : P) (t : State N P) : Prop :=
  Reachable (exec initproc) (fun _ action => Nonnegative action) Initial t

theorem runs_balanced {initproc : P} (hruns : Runs initproc t) : Balanced t := by
  refine @Reachable.invariant _ _ _ _ _ _ Balanced t hruns
    (fun _ hinit => initial_balanced hinit) ?_
  intro t action after hbal hnumber hexec
  rcases exec_balanced hbal hnumber hexec with
    ⟨result, hres, hafter⟩ | hpanic | hpanic
  · cases hres
    exact hafter
  · cases hpanic
  · cases hpanic

/-- In every run without a negative descriptor in `sys_mmap`: each count is the
number of descriptors and valid mapped areas that point to the entry; an unused
entry has no type; an end of a pipe is open exactly when an entry in use stands for
it; the page of a pipe is freed once, when both ends are closed; and `filedup` and
`fileclose` do not panic. -/
theorem file_references_exact (initproc : P) (t : State N P) (hruns : Runs initproc t) :
    (∀ k, (t.files.file k).ref = total t k) ∧
    (∀ k, (t.files.file k).ref = 0 → (t.files.file k).type = .none) ∧
    (∀ pi writable, pi < t.files.pipes → (isOpen (t.files.pipe pi) writable = true ↔
        ∃ k, 0 < (t.files.file k).ref ∧ IsEnd t.files k pi writable)) ∧
    (∀ pi, pi < t.files.pipes → t.files.frees pi =
      if (t.files.pipe pi).readopen = false ∧ (t.files.pipe pi).writeopen = false then 1 else 0) ∧
    ∀ action, Nonnegative action → exec initproc t action ≠ some (.error .filedup) ∧
        exec initproc t action ≠ some (.error .fileclose) := by
  have hbalanced := runs_balanced hruns
  have hexact := hbalanced.exact
  refine ⟨hexact.ref, ?_, ?_, hexact.freed, ?_⟩
  · intro k hzero
    exact hexact.untyped k (hexact.ref k ▸ hzero)
  · intro pi writable hpi
    rw [hexact.opened pi writable hpi]
    refine exists_congr fun k => ⟨fun hend => ⟨?_, hend⟩, And.right⟩
    refine pos_of_ne_zero fun hzero => ?_
    have huntyped := hexact.untyped k (hexact.ref k ▸ hzero)
    rw [hend.1] at huntyped
    cases huntyped
  · intro action hnumber
    constructor
    · intro hexec
      have hresult := exec_balanced hbalanced hnumber hexec
      simp at hresult
    · intro hexec
      have hresult := exec_balanced hbalanced hnumber hexec
      simp at hresult

end

/-! ## Runs -/

/-- No file is open; `below` is what lies in memory before `p->ofile`. -/
def closed (P : Type) [DecidableEq P] (init : P)
    (below : P → ℕ → Option (Pointer 2)) : State 2 P where
  files := ⟨fun _ => ⟨.none, 0, false, false, 0⟩, fun _ => ⟨false, false⟩, 0, fun _ => 0⟩
  proc p := ⟨if p = init then .running else .unused, fun _ => none,
    fun _ => ⟨false, 0, 0, 0, 0, .file 0⟩, 0⟩
  below := below

theorem closed_initial (P : Type) [DecidableEq P] (init : P)
    (below : P → ℕ → Option (Pointer 2)) : Initial (closed P init below) :=
  ⟨fun _ => ⟨rfl, rfl⟩, rfl, fun _ _ => rfl, fun _ _ => rfl⟩

instance {P : Type} : DecidablePred (@Nonnegative P)
  | (_, .open _) => inferInstanceAs (Decidable True)
  | (_, .dup _) => inferInstanceAs (Decidable True)
  | (_, .close _) => inferInstanceAs (Decidable True)
  | (_, .pipe _ _) => inferInstanceAs (Decidable True)
  | (_, .mmap _ _ _ number) => inferInstanceAs (Decidable (0 ≤ number))
  | (_, .munmap _ _) => inferInstanceAs (Decidable True)
  | (_, .fork _ _) => inferInstanceAs (Decidable True)
  | (_, .exit) => inferInstanceAs (Decidable True)
  | (_, .wait _) => inferInstanceAs (Decidable True)

/-- A file is opened and mapped, and the process forks. -/
theorem file_references_exact_fork : ∃ t : State 2 Bool, Runs true t ∧ (t.files.file 0).ref = 4 ∧
      total t 0 = 4 := by
  obtain ⟨t, hruns, htest⟩ := @exists_reachable (State 2 Bool) (Bool × Call Bool)
    Panic (exec true) (fun _ action => Nonnegative action) Initial
    (fun _ action => decide (Nonnegative action))
    (fun t => decide ((t.files.file 0).ref = 4)) (closed Bool true fun _ _ => none)
    [(true, .open (some ⟨false, true, true⟩)), (true, .mmap 4096 1 2 0),
      (true, .fork (some false) true)]
    (closed_initial _ _ _) (fun _ _ hcheck => of_decide_eq_true hcheck)
    (by decide +kernel)
  have href := of_decide_eq_true htest
  exact ⟨t, hruns, href, ((file_references_exact true t hruns).1 0) ▸ href⟩

/-- With descriptor -1 `sys_mmap` takes the word before `p->ofile` for a file.  If
it is the address four bytes before an entry, `filedup` increments the type of the
entry: the read end of a pipe becomes an inode. -/
theorem negative_descriptor_breaks_pipe :
    ∃ t : State 2 Unit, Reachable (exec ()) (fun _ _ => True) Initial t ∧
      0 < t.files.pipes ∧ (t.files.pipe 0).readopen = true ∧
      ∀ k, ¬ IsEnd t.files k 0 false := by
  obtain ⟨t, hruns, htest⟩ := @exists_reachable (State 2 Unit) (Unit × Call Unit)
    Panic (exec ()) (fun _ _ => True) Initial (fun _ _ => true)
    (fun t => decide (0 < t.files.pipes ∧ (t.files.pipe 0).readopen = true ∧
      ∀ k, ¬ ((t.files.file k).type = .pipe ∧ (t.files.file k).pipe = 0 ∧
        (t.files.file k).writable = false)))
    (closed Unit () fun _ _ => some (.before 0))
    [((), .pipe true true), ((), .mmap 4096 1 2 (-1))]
    (closed_initial _ _ _) (fun _ _ _ => trivial) (by decide +kernel)
  have hbroken := of_decide_eq_true htest
  exact ⟨t, hruns, hbroken⟩

end Xv6.FileReferences
