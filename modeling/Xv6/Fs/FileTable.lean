import Xv6.Fs.OpenFiles

/-!
# The file table counts its references

`Exact count fs` says that the entries of the file table have the reference counts
`count`, and what this means for the pipes: an end of a pipe is open exactly when
an entry stands for it, and the page is freed when both ends are closed.  Each
function of `kernel/file.c` changes one count.
-/

namespace Xv6.FileTable

open OpenFiles Function

variable {N : ℕ}

def isOpen (pipe : Pipe) (writable : Bool) : Bool :=
  if writable then pipe.writeopen else pipe.readopen

/-- An entry is the read end or the write end of a pipe. -/
def IsEnd (fs : Files N) (k : Fin N) (pi : ℕ) (writable : Bool) : Prop :=
  (fs.file k).type = .pipe ∧ (fs.file k).pipe = pi ∧ (fs.file k).writable = writable

structure Exact (count : Fin N → ℕ) (fs : Files N) : Prop where
  ref : ∀ k, (fs.file k).ref = count k
  untyped : ∀ k, count k = 0 → (fs.file k).type = .none
  number : ∀ k, (fs.file k).type = .pipe → (fs.file k).pipe < fs.pipes
  distinct : ∀ k l pi writable, IsEnd fs k pi writable → IsEnd fs l pi writable → k = l
  opened : ∀ pi writable, pi < fs.pipes →
    (isOpen (fs.pipe pi) writable = true ↔ ∃ k, IsEnd fs k pi writable)
  freed : ∀ pi, pi < fs.pipes → fs.frees pi =
    if (fs.pipe pi).readopen = false ∧ (fs.pipe pi).writeopen = false then 1 else 0

variable {count : Fin N → ℕ} {fs after : Files N} {k : Fin N}

theorem Exact.setFile (hexact : Exact count fs) (file : File)
    (hbefore : (fs.file k).type ≠ .pipe) (hafter : file.type ≠ .pipe)
    (hnone : file.ref = 0 → file.type = .none) :
    Exact (update count k file.ref) (setFile fs k file) := by
  have hend : ∀ l pi writable, IsEnd (OpenFiles.setFile fs k file) l pi writable ↔
        IsEnd fs l pi writable := by
    intro l pi writable
    by_cases hl : l = k
    · subst hl
      simp [IsEnd, OpenFiles.setFile, hbefore, hafter]
    · simp [IsEnd, OpenFiles.setFile, hl]
  refine ⟨?_, ?_, ?_, ?_, ?_, hexact.freed⟩
  · intro l
    by_cases hl : l = k
    · subst hl
      simp [OpenFiles.setFile]
    · simpa [OpenFiles.setFile, hl] using hexact.ref l
  · intro l
    by_cases hl : l = k
    · subst hl
      simpa [OpenFiles.setFile] using hnone
    · simpa [OpenFiles.setFile, hl] using hexact.untyped l
  · intro l
    by_cases hl : l = k
    · subst hl
      simp [OpenFiles.setFile, hafter]
    · simpa [OpenFiles.setFile, hl] using hexact.number l
  · intro l m pi writable
    rw [hend, hend]
    exact hexact.distinct l m pi writable
  · intro pi writable hpi
    simp only [hend]
    exact hexact.opened pi writable hpi

theorem Exact.setRef (hexact : Exact count fs) (ref : ℕ) (href : 0 < ref) :
    Exact (update count k ref) (OpenFiles.setFile fs k { fs.file k with ref := ref }) := by
  have hfile : ∀ l, (OpenFiles.setFile fs k { fs.file k with ref := ref }).file l =
      { fs.file l with ref := if l = k then ref else (fs.file l).ref } := by
    intro l
    by_cases hl : l = k
    · subst hl
      simp [OpenFiles.setFile]
    · simp [OpenFiles.setFile, hl]
  refine ⟨?_, ?_, ?_, ?_, ?_, hexact.freed⟩
  · intro l
    rw [hfile l]
    by_cases hl : l = k
    · subst hl
      simp
    · simpa [hl] using hexact.ref l
  · intro l
    rw [hfile l]
    by_cases hl : l = k
    · subst hl
      intro hzero
      rw [update_self] at hzero
      omega
    · simpa [hl] using hexact.untyped l
  · intro l
    rw [hfile l]
    exact hexact.number l
  · intro l m pi writable
    simp only [IsEnd, hfile]
    exact hexact.distinct l m pi writable
  · intro pi writable hpi
    simp only [IsEnd, hfile]
    exact hexact.opened pi writable hpi

theorem filealloc_exact (hexact : Exact count fs) (halloc : filealloc fs = some (k, after)) :
    count k = 0 ∧ (after.file k).type = .none ∧ Exact (update count k (count k + 1)) after := by
  simp only [filealloc, Option.map_eq_some_iff, Prod.mk.injEq] at halloc
  obtain ⟨found, hf, rfl, rfl⟩ := halloc
  have hfree := List.find?_some hf
  rw [decide_eq_true_iff, hexact.ref] at hfree
  refine ⟨hfree, ?_, ?_⟩
  · simpa [OpenFiles.setFile] using hexact.untyped found hfree
  · rw [hfree]
    exact hexact.setRef 1 Nat.one_pos

theorem filedup_exact (hexact : Exact count fs) (hcount : 0 < count k) :
    ∃ after, filedup fs k = .ok after ∧ Exact (update count k (count k + 1)) after := by
  have href := hexact.ref k
  refine ⟨_, if_neg (by omega), ?_⟩
  rw [href]
  exact hexact.setRef _ (Nat.succ_pos _)

theorem pipeclose_exact (hexact : Exact count fs) (hpipe : (fs.file k).type = .pipe) :
    Exact (update count k 0) (pipeclose (setFile fs k { fs.file k with ref := 0, type := .none })
          (fs.file k).pipe (fs.file k).writable) := by
  generalize hfs : pipeclose (setFile fs k { fs.file k with
    ref := 0, type := .none }) (fs.file k).pipe (fs.file k).writable = after
  generalize hpi : (fs.file k).pipe = pi at hfs
  generalize hw : (fs.file k).writable = w at hfs
  have hself : IsEnd fs k pi w := ⟨hpipe, hpi, hw⟩
  have hlt : pi < fs.pipes := hpi ▸ hexact.number k hpipe
  have hwasOpen : isOpen (fs.pipe pi) w = true := (hexact.opened pi w hlt).mpr ⟨k, hself⟩
  have hfile : ∀ l, l ≠ k → after.file l = fs.file l := by
    intro l hl
    rw [← hfs]
    simp [pipeclose, OpenFiles.setFile, hl]
  have hclosed : (after.file k).ref = 0 ∧ (after.file k).type = .none := by
    rw [← hfs]
    simp [pipeclose, OpenFiles.setFile]
  have hpipes : after.pipes = fs.pipes := by rw [← hfs]; rfl
  have hopen : ∀ other writable, isOpen (after.pipe other) writable =
      if other = pi ∧ writable = w then false
      else isOpen (fs.pipe other) writable := by
    intro other writable
    rw [← hfs]
    by_cases ho : other = pi
    · subst ho
      cases writable <;> cases w <;> simp [pipeclose, OpenFiles.setFile, isOpen]
    · simp [pipeclose, OpenFiles.setFile, ho]
  have hfrees : ∀ other, after.frees other =
      if other = pi ∧ (after.pipe pi).readopen = false ∧
        (after.pipe pi).writeopen = false then fs.frees other + 1
      else fs.frees other := by
    intro other
    rw [← hfs]
    by_cases ho : other = pi
    · subst ho
      cases w <;> simp [pipeclose, OpenFiles.setFile, ite_apply]
    · cases w <;> simp [pipeclose, OpenFiles.setFile, ite_apply, ho]
  have hend : ∀ l other writable, IsEnd after l other writable ↔
      l ≠ k ∧ IsEnd fs l other writable := by
    intro l other writable
    by_cases hl : l = k
    · subst hl
      simp [IsEnd, hclosed.2]
    · simp [IsEnd, hfile l hl, hl]
  refine ⟨?_, ?_, ?_, ?_, ?_, ?_⟩
  · intro l
    by_cases hl : l = k
    · subst hl
      simpa using hclosed.1
    · simpa [hl, hfile l hl] using hexact.ref l
  · intro l
    by_cases hl : l = k
    · subst hl
      simpa using hclosed.2
    · simpa [hl, hfile l hl] using hexact.untyped l
  · intro l
    by_cases hl : l = k
    · subst hl
      simp [hclosed.2]
    · rw [hfile l hl, hpipes]
      exact hexact.number l
  · intro l m other writable hl hm
    exact hexact.distinct l m other writable ((hend _ _ _).mp hl).2 ((hend _ _ _).mp hm).2
  · intro other writable ho
    rw [hpipes] at ho
    rw [hopen]
    split
    case isTrue hsame =>
      obtain ⟨rfl, rfl⟩ := hsame
      simp only [Bool.false_eq_true, false_iff, not_exists]
      intro l hl
      obtain ⟨hne, hold⟩ := (hend l _ _).mp hl
      exact hne (hexact.distinct l k _ _ hold hself)
    case isFalse hdifferent =>
      rw [hexact.opened other writable ho]
      refine exists_congr fun l => ⟨fun hl => (hend l _ _).mpr ⟨?_, hl⟩,
        fun hl => ((hend l _ _).mp hl).2⟩
      rintro rfl
      exact hdifferent ⟨hl.2.1.symm.trans hpi, hl.2.2.symm.trans hw⟩
  · intro other ho
    rw [hpipes] at ho
    have hold := hexact.freed other ho
    rw [hfrees]
    by_cases hsame : other = pi
    · subst hsame
      have hzero : fs.frees other = 0 := by
        rw [hold, if_neg]
        rintro ⟨hread, hwrite⟩
        cases w <;> simp_all [isOpen]
      simp only [true_and, hzero]
    · have hkeep : after.pipe other = fs.pipe other := by
        rw [← hfs]
        simp [pipeclose, OpenFiles.setFile, hsame]
      rw [hkeep, hold]
      simp [hsame]

theorem fileclose_exact (hexact : Exact count fs) (hcount : 0 < count k) :
    ∃ after, fileclose fs k = .ok after ∧ Exact (update count k (count k - 1)) after := by
  have href := hexact.ref k
  unfold fileclose
  dsimp only
  rw [if_neg (by omega)]
  split
  case isTrue hmore =>
    refine ⟨_, rfl, ?_⟩
    rw [href] at hmore ⊢
    exact hexact.setRef _ hmore
  case isFalse hlast =>
    have hzero : count k - 1 = 0 := by omega
    rw [hzero]
    split
    case isTrue hpipe => exact ⟨_, rfl, pipeclose_exact hexact hpipe⟩
    case isFalse ho =>
      exact ⟨_, rfl, hexact.setFile { fs.file k with ref := 0, type := .none }
        ho (by simp) (fun _ => rfl)⟩

theorem pipeinit_exact (hexact : Exact count fs) {f0 f1 : Fin N} (hne : f0 ≠ f1)
    (hfst : (fs.file f0).type = .none) (hsnd : (fs.file f1).type = .none)
    (hused : 0 < count f0 ∧ 0 < count f1) : Exact count (pipeinit fs f0 f1) := by
  generalize hfs : pipeinit fs f0 f1 = after
  have hfile0 : after.file f0 = { fs.file f0 with
      type := .pipe, readable := true, writable := false, pipe := fs.pipes } := by
    rw [← hfs]
    simp [pipeinit, OpenFiles.setFile, hne]
  have hfile1 : after.file f1 = { fs.file f1 with
      type := .pipe, readable := false, writable := true, pipe := fs.pipes } := by
    rw [← hfs]
    simp [pipeinit, OpenFiles.setFile, hne.symm]
  have hfile : ∀ l, l ≠ f0 → l ≠ f1 → after.file l = fs.file l := by
    intro l h0 h1
    rw [← hfs]
    simp [pipeinit, OpenFiles.setFile, h0, h1]
  have hpipes : after.pipes = fs.pipes + 1 := by rw [← hfs]; rfl
  have hnew : after.pipe fs.pipes = ⟨true, true⟩ ∧ after.frees fs.pipes = 0 := by
    rw [← hfs]
    simp [pipeinit, OpenFiles.setFile]
  have hkeep : ∀ pi, pi < fs.pipes → after.pipe pi = fs.pipe pi ∧ after.frees pi = fs.frees pi := by
    intro pi hpi
    rw [← hfs]
    simp [pipeinit, OpenFiles.setFile, hpi.ne]
  have hend : ∀ l pi writable, IsEnd after l pi writable ↔ IsEnd fs l pi writable ∨ pi = fs.pipes ∧
        l = if writable then f1 else f0 := by
    intro l pi writable
    have hcomm : fs.pipes = pi ↔ pi = fs.pipes := eq_comm
    by_cases h0 : l = f0
    · subst h0
      cases writable <;> simp [IsEnd, hfile0, hfst, hne, hcomm]
    · by_cases h1 : l = f1
      · subst h1
        cases writable <;> simp [IsEnd, hfile1, hsnd, h0, hcomm]
      · cases writable <;> simp [IsEnd, hfile l h0 h1, h0, h1]
  have hold : ∀ l pi writable, IsEnd fs l pi writable → pi < fs.pipes := by
    intro l pi writable hl
    rw [← hl.2.1]
    exact hexact.number l hl.1
  refine ⟨?_, ?_, ?_, ?_, ?_, ?_⟩
  · intro l
    by_cases h0 : l = f0
    · rw [h0, hfile0]
      exact hexact.ref f0
    · by_cases h1 : l = f1
      · rw [h1, hfile1]
        exact hexact.ref f1
      · rw [hfile l h0 h1]
        exact hexact.ref l
  · intro l hzero
    have h0 : l ≠ f0 := by rintro rfl; omega
    have h1 : l ≠ f1 := by rintro rfl; omega
    rw [hfile l h0 h1]
    exact hexact.untyped l hzero
  · intro l hl
    have hsome := (hend l (after.file l).pipe (after.file l).writable).mp ⟨hl, rfl, rfl⟩
    rw [hpipes]
    rcases hsome with hsome | ⟨hsome, _⟩
    · have := hold l _ _ hsome
      omega
    · omega
  · intro l m pi writable hl hm
    rcases (hend l _ _).mp hl with hl | ⟨hpi, hl⟩ <;> rcases (hend m _ _).mp hm with hm | ⟨hpi', hm⟩
    · exact hexact.distinct l m pi writable hl hm
    · exact absurd (hold l _ _ hl) (by omega)
    · exact absurd (hold m _ _ hm) (by omega)
    · rw [hl, hm]
  · intro pi writable hpi
    rw [hpipes] at hpi
    by_cases hlast : pi = fs.pipes
    · subst hlast
      rw [hnew.1]
      refine ⟨fun _ => ⟨_, (hend _ _ _).mpr (.inr ⟨rfl, rfl⟩)⟩, fun _ => ?_⟩
      cases writable <;> rfl
    · rw [(hkeep pi (by omega)).1, hexact.opened pi writable (by omega)]
      refine exists_congr fun l => ?_
      rw [hend]
      simp [hlast]
  · intro pi hpi
    rw [hpipes] at hpi
    by_cases hlast : pi = fs.pipes
    · subst hlast
      rw [hnew.1, hnew.2]
      rfl
    · obtain ⟨hpipe, hfrees⟩ := hkeep pi (by omega)
      rw [hpipe, hfrees]
      exact hexact.freed pi (by omega)

end Xv6.FileTable
