import Xv6.Core.Interleaving
import Xv6.Fs.Truncate

/-!
# Processes that share the inode table

The inode layer of `kernel/fs.c` under any interleaving.  A section under
`itable.lock`, a section under the sleep-lock of an inode and the access to one
disk inode through its buffer are single actions; `iput` and `ialloc` consist of
several.  A change of an inode in memory and the `iupdate` that follows it are one
section under the sleep-lock.  The data blocks are not part of the state.
-/

namespace Xv6.InodeSharing

open Interleaving Function Finset List Nat Option
open DiskFormat (Dinode)
open Truncate (truncated)

abbrev Key := ℕ × ℕ

/-- `struct inode`, with the holder of its sleep-lock. -/
structure Entry (P : Type) where
  key : Key
  ref : ℕ
  valid : Bool
  dinode : Dinode
  lock : Option P

/-- Where a process is in `iput` or `ialloc`. -/
inductive Pc (N : ℕ) where
  | idle
  /-- `iput` holds the sleep-lock and will truncate; the inode number had been
  allocated `gen` times. -/
  | freeing (ip : Fin N) (gen : ℕ)
  /-- `iput` before `ip->ref--`, after it has freed the inode. -/
  | dropping (ip : Fin N)
  /-- The loop of `ialloc`. -/
  | scanning (dev : ℕ) (type : BitVec 16) (inum : ℕ)
  /-- `ialloc` before `iget`. -/
  | allocated (key : Key)
  deriving DecidableEq

structure Table (N : ℕ) (P : Type) where
  /-- The disk inodes, as the buffer cache shows them. -/
  disk : Key → Dinode
  /-- `itable.inode` -/
  entry : Fin N → Entry P
  pc : P → Pc N
  /-- History: the references that each process holds, and how often `ialloc` has
  allocated an inode number. -/
  refs : P → Fin N → ℕ
  gen : Key → ℕ

inductive Action (N : ℕ) where
  | iget (key : Key)
  | idup (ip : Fin N)
  | ilock (ip : Fin N)
  /-- New values for the fields other than `type`, and `iupdate`. -/
  | iupdate (ip : Fin N) (fields : Dinode)
  | iunlock (ip : Fin N)
  | iput (ip : Fin N)
  | ialloc (dev : ℕ) (type : BitVec 16)
  /-- The next section of `iput` or `ialloc`. -/
  | next

section
variable {N : ℕ} {P : Type} [DecidableEq P]

def setEntry (t : Table N P) (ip : Fin N) (entry : Entry P) : Table N P :=
  { t with entry := update t.entry ip entry }

def setPc (t : Table N P) (p : P) (pc : Pc N) : Table N P := { t with pc := update t.pc p pc }

/-- The history of the references: `p` holds `count` of them to `ip`. -/
def setRefs (t : Table N P) (p : P) (ip : Fin N) (count : ℕ) : Table N P :=
  { t with
    refs := update t.refs p (update (t.refs p) ip count) }

def idup (t : Table N P) (p : P) (ip : Fin N) : Table N P :=
  setRefs (setEntry t ip { t.entry ip with ref := (t.entry ip).ref + 1 }) p ip (t.refs p ip + 1)

def recycle (t : Table N P) (p : P) (ip : Fin N) (key : Key) : Table N P :=
  setRefs (setEntry t ip { t.entry ip with key := key, ref := 1, valid := false })
    p ip (t.refs p ip + 1)

def iget (t : Table N P) (p : P) (key : Key) : Except Panic (Table N P) :=
  match (List.finRange N).find? fun ip =>
      decide (0 < (t.entry ip).ref ∧ (t.entry ip).key = key) with
  | some ip => .ok (idup t p ip)
  | none =>
    match (List.finRange N).find? fun ip => decide ((t.entry ip).ref = 0) with
    | none => .error .iget
    | some empty => .ok (recycle t p empty key)

def ilock (t : Table N P) (p : P) (ip : Fin N) : Except Panic (Table N P) :=
  let inode := t.entry ip
  if inode.ref < 1 then .error .ilock
  else if inode.valid then .ok (setEntry t ip { inode with lock := some p })
  else
    let dinode := t.disk inode.key
    if dinode.type = 0 then .error .ilockNoType
    else .ok (setEntry t ip { inode with valid := true, dinode := dinode, lock := some p })

/-- Change fields of a locked inode and call `iupdate`. -/
def iupdate (t : Table N P) (ip : Fin N) (dinode : Dinode) : Table N P :=
  setEntry { t with disk := update t.disk (t.entry ip).key dinode } ip
    { t.entry ip with dinode := dinode }

def iunlock (t : Table N P) (ip : Fin N) : Except Panic (Table N P) :=
  if (t.entry ip).ref < 1 then .error .iunlock
  else .ok (setEntry t ip { t.entry ip with lock := none })

def drop (t : Table N P) (p : P) (ip : Fin N) : Table N P :=
  setRefs (setEntry t ip { t.entry ip with ref := (t.entry ip).ref - 1 }) p ip (t.refs p ip - 1)

def iput (t : Table N P) (p : P) (ip : Fin N) : Option (Table N P) :=
  let inode := t.entry ip
  if inode.ref = 1 ∧ inode.valid = true ∧ inode.dinode.nlink = 0 then
    if inode.lock = none then
      some (setPc (setEntry t ip { inode with lock := some p }) p (.freeing ip (t.gen inode.key)))
    else none
  else some (drop t p ip)

/-- The section of `iput` under the sleep-lock: `itrunc`, `type = 0`, `iupdate`,
`valid = 0`, `releasesleep`. -/
def free (t : Table N P) (p : P) (ip : Fin N) : Table N P :=
  let inode := t.entry ip
  let dinode := { truncated inode.dinode with type := 0 }
  setPc (setEntry { t with disk := update t.disk inode.key dinode } ip
    { inode with dinode := dinode, valid := false, lock := none }) p (.dropping ip)

def blank (type : BitVec 16) : Dinode :=
  { type := type, major := 0, minor := 0, nlink := 0, size := 0,
    addrs := fun _ => 0 }

def scan (ninodes : ℕ) (t : Table N P) (p : P) (dev : ℕ) (type : BitVec 16)
    (inum : ℕ) : Except Panic (Table N P) :=
  if inum < ninodes then
    if (t.disk (dev, inum)).type = 0 then
      .ok (setPc { t with
        disk := update t.disk (dev, inum) (blank type)
        gen := update t.gen (dev, inum) (t.gen (dev, inum) + 1) } p (.allocated (dev, inum)))
    else .ok (setPc t p (.scanning dev type (inum + 1)))
  else .error .ialloc

/-- All processes.  A process uses only inodes to which it has a reference, and
does not put an inode that it has locked. -/
def exec (ninodes : ℕ) : System (Table N P) (P × Action N) Panic :=
  fun t (p, action) =>
    match t.pc p, action with
    | .idle, .iget key => some (iget t p key)
    | .idle, .idup ip => if 0 < t.refs p ip then some (.ok (idup t p ip)) else none
    | .idle, .ilock ip =>
      if 0 < t.refs p ip ∧ (t.entry ip).lock = none then some (ilock t p ip)
      else none
    | .idle, .iupdate ip fields =>
      if (t.entry ip).lock = some p then
        some (.ok (iupdate t ip { fields with type := (t.entry ip).dinode.type }))
      else none
    | .idle, .iunlock ip => if (t.entry ip).lock = some p then some (iunlock t ip) else none
    | .idle, .iput ip =>
      if 0 < t.refs p ip ∧ (t.entry ip).lock ≠ some p then
        (iput t p ip).map .ok
      else none
    | .idle, .ialloc dev type => some (.ok (setPc t p (.scanning dev type 1)))
    | .freeing ip _, .next => some (.ok (free t p ip))
    | .dropping ip, .next => some (.ok (setPc (drop t p ip) p .idle))
    | .scanning dev type inum, .next => some (scan ninodes t p dev type inum)
    | .allocated key, .next => some ((iget t p key).map (setPc · p .idle))
    | _, _ => none

/-- The table after `iinit`, on any disk. -/
structure Initial (t : Table N P) : Prop where
  ref : ∀ ip, (t.entry ip).ref = 0
  lock : ∀ ip, (t.entry ip).lock = none
  pc : ∀ p, t.pc p = .idle
  refs : ∀ p ip, t.refs p ip = 0

end

/-! ## The invariant -/

section
variable {N : ℕ} {P : Type} [Fintype P]

structure Coherent (t : Table N P) : Prop where
  counted : ∀ ip, (t.entry ip).ref = ∑ p, t.refs p ip
  distinct : ∀ ip other, 0 < (t.entry ip).ref → 0 < (t.entry other).ref →
    (t.entry ip).key = (t.entry other).key → ip = other
  current : ∀ ip, 0 < (t.entry ip).ref → (t.entry ip).valid = true →
    (t.entry ip).dinode = t.disk (t.entry ip).key ∧ (t.entry ip).dinode.type ≠ 0
  locker : ∀ ip p, (t.entry ip).lock = some p → 0 < t.refs p ip ∧ (t.entry ip).valid = true
  freeing : ∀ p ip gen, t.pc p = .freeing ip gen →
    (t.entry ip).lock = some p ∧ (t.entry ip).dinode.nlink = 0 ∧ t.gen (t.entry ip).key = gen
  dropping : ∀ p ip, t.pc p = .dropping ip → 0 < t.refs p ip ∧ (t.entry ip).lock ≠ some p

variable {t : Table N P}

theorem Coherent.ref_pos (hcoh : Coherent t) {p : P} {ip : Fin N}
    (href : 0 < t.refs p ip) : 0 < (t.entry ip).ref := by
  rw [hcoh.counted ip]
  exact lt_of_lt_of_le href (single_le_sum (f := fun p => t.refs p ip)
      (fun _ _ => zero_le _) (mem_univ p))

theorem Coherent.lock_pos (hcoh : Coherent t) {p : P} {ip : Fin N}
    (hlock : (t.entry ip).lock = some p) : 0 < (t.entry ip).ref :=
  hcoh.ref_pos (hcoh.locker ip p hlock).1

theorem Coherent.lock_free (hcoh : Coherent t) {ip : Fin N}
    (href : (t.entry ip).ref = 0) : (t.entry ip).lock = none := by
  cases hlock : (t.entry ip).lock with
  | none => rfl
  | some p =>
    have hpos := hcoh.lock_pos hlock
    omega

variable [DecidableEq P]

omit [Fintype P] in
theorem refs_setRefs (t : Table N P) (p q : P) (ip other : Fin N) (count : ℕ) :
    (setRefs t p ip count).refs q other =
      if q = p ∧ other = ip then count else t.refs q other :=
  update_entry t.refs p q ip other count

theorem counted_setRefs (hcoh : Coherent t) (p : P) (ip : Fin N)
    (count ref : ℕ) (href : ref + t.refs p ip = (t.entry ip).ref + count)
    (other : Fin N) :
    (if other = ip then ref else (t.entry other).ref) =
      ∑ q, (setRefs t p ip count).refs q other := by
  have hsum := sum_update_entry t.refs p ip other count
  have hcnt := hcoh.counted other
  change (∑ q, (setRefs t p ip count).refs q other) + _ = _ at hsum
  by_cases ho : other = ip
  · subst ho
    simp only [if_true] at hsum ⊢
    omega
  · simp only [ho, if_false] at hsum ⊢
    omega

theorem Coherent.recount (hcoh : Coherent t) (p : P) {ip : Fin N} (count ref : ℕ)
    (hused : 0 < (t.entry ip).ref) (hsum : ref + t.refs p ip = (t.entry ip).ref + count)
    (hlock : (t.entry ip).lock = some p → 0 < count) (hpc : t.pc p = .dropping ip → 0 < count) :
    Coherent (setRefs (setEntry t ip { t.entry ip with ref := ref }) p ip count) := by
  have he : ∀ other, update t.entry ip { t.entry ip with ref := ref } other =
      { t.entry other with ref := if other = ip then ref else (t.entry other).ref } := by
    intro other
    by_cases ho : other = ip
    · subst ho
      simp
    · simp [ho]
  have hpos : ∀ other, 0 < (update t.entry ip
      { t.entry ip with ref := ref } other).ref → 0 < (t.entry other).ref := by
    intro other ho
    rw [he other] at ho
    by_cases heq : other = ip
    · rw [heq]
      exact hused
    · simpa [heq] using ho
  have hrefs : ∀ q other, 0 < t.refs q other → (q = p ∧ other = ip → 0 < count) →
      0 < (setRefs t p ip count).refs q other := by
    intro q other hheld hcount
    rw [refs_setRefs]
    split
    case isTrue hsame => exact hcount hsame
    case isFalse => exact hheld
  refine ⟨?_, ?_, ?_, ?_, ?_, ?_⟩
  · intro other
    simp only [setRefs, setEntry, he other]
    exact counted_setRefs hcoh p ip _ _ hsum other
  · intro first second hfst hsnd hkey
    have hf := hpos first hfst
    have hs := hpos second hsnd
    simp only [setRefs, setEntry, he] at hkey
    exact hcoh.distinct first second hf hs hkey
  · intro other ho hval
    have hold := hpos other ho
    simp only [setRefs, setEntry, he] at hval ⊢
    exact hcoh.current other hold hval
  · intro other q hheld
    simp only [setRefs, setEntry, he] at hheld
    obtain ⟨href, hval⟩ := hcoh.locker other q hheld
    refine ⟨hrefs q other href fun hsame => hlock (hsame.2 ▸ hsame.1 ▸ hheld), ?_⟩
    simp only [setRefs, setEntry, he]
    exact hval
  · intro q other gen hfreeing
    simp only [setRefs, setEntry, he]
    exact hcoh.freeing q other gen hfreeing
  · intro q other hdropping
    obtain ⟨href, hunlocked⟩ := hcoh.dropping q other hdropping
    refine ⟨hrefs q other href fun hsame => hpc (hsame.2 ▸ hsame.1 ▸ hdropping), ?_⟩
    simp only [setRefs, setEntry, he]
    exact hunlocked

theorem Coherent.idup (hcoh : Coherent t) (p : P) {ip : Fin N}
    (hused : 0 < (t.entry ip).ref) : Coherent (idup t p ip) :=
  hcoh.recount p _ _ hused (by omega) (fun _ => succ_pos _) fun _ => succ_pos _

theorem Coherent.recycle (hcoh : Coherent t) (p : P) {ip : Fin N} {key : Key}
    (hfree : (t.entry ip).ref = 0)
    (hnew : ∀ other, 0 < (t.entry other).ref → (t.entry other).key ≠ key) :
    Coherent (recycle t p ip key) := by
  have hself : (InodeSharing.recycle t p ip key).entry ip =
      { t.entry ip with key := key, ref := 1, valid := false } := by
    simp [InodeSharing.recycle, setRefs, setEntry]
  have hothers : ∀ other, other ≠ ip →
      (InodeSharing.recycle t p ip key).entry other = t.entry other := by
    intro other ho
    simp [InodeSharing.recycle, setRefs, setEntry, ho]
  have hunlocked := hcoh.lock_free hfree
  have hunheld : ∀ q, t.refs q ip = 0 := by
    intro q
    by_contra hheld
    have hpos := hcoh.ref_pos (pos_of_ne_zero hheld)
    omega
  have hrefs : ∀ q other, 0 < t.refs q other →
      0 < (InodeSharing.recycle t p ip key).refs q other := by
    intro q other hheld
    change 0 < (setRefs _ p ip _).refs q other
    rw [refs_setRefs]
    split
    · omega
    · exact hheld
  refine ⟨?_, ?_, ?_, ?_, ?_, ?_⟩
  · intro other
    have hcnt := counted_setRefs hcoh p ip (t.refs p ip + 1) 1 (by omega) other
    by_cases ho : other = ip
    · subst ho
      rw [if_pos rfl] at hcnt
      rw [hself]
      exact hcnt
    · rw [if_neg ho] at hcnt
      rw [hothers other ho]
      exact hcnt
  · intro first second hfst hsnd hkey
    by_cases hf : first = ip <;> by_cases hs : second = ip
    · rw [hf, hs]
    · rw [hothers second hs] at hsnd hkey
      rw [hf, hself] at hkey
      exact absurd hkey.symm (hnew second hsnd)
    · rw [hothers first hf] at hfst hkey
      rw [hs, hself] at hkey
      exact absurd hkey (hnew first hfst)
    · rw [hothers first hf] at hfst hkey
      rw [hothers second hs] at hsnd hkey
      exact hcoh.distinct first second hfst hsnd hkey
  · intro other ho hval
    by_cases heq : other = ip
    · rw [heq, hself] at hval
      cases hval
    · rw [hothers other heq] at ho hval ⊢
      exact hcoh.current other ho hval
  · intro other q hlock
    by_cases heq : other = ip
    · rw [heq, hself] at hlock
      rw [hunlocked] at hlock
      cases hlock
    · rw [hothers other heq] at hlock ⊢
      obtain ⟨hheld, hval⟩ := hcoh.locker other q hlock
      exact ⟨hrefs q other hheld, hval⟩
  · intro q other gen hpc
    have hold := hcoh.freeing q other gen hpc
    have heq : other ≠ ip := by
      intro heq
      rw [heq, hunlocked] at hold
      cases hold.1
    rw [hothers other heq]
    exact hold
  · intro q other hpc
    obtain ⟨hheld, hnotMine⟩ := hcoh.dropping q other hpc
    have heq : other ≠ ip := by
      intro heq
      rw [heq, hunheld q] at hheld
      cases hheld
    rw [hothers other heq]
    exact ⟨hrefs q other hheld, hnotMine⟩

theorem Coherent.iget (hcoh : Coherent t) {p : P} {key : Key}
    {after : Table N P} (higet : iget t p key = .ok after) : Coherent after := by
  unfold InodeSharing.iget at higet
  split at higet
  case h_1 ip hfind =>
    have hused := List.find?_some hfind
    simp only [decide_eq_true_eq] at hused
    cases higet
    exact hcoh.idup p hused.1
  case h_2 hnone =>
    split at higet
    case h_1 => cases higet
    case h_2 ip hfind =>
      have hfree := List.find?_some hfind
      simp only [decide_eq_true_eq] at hfree
      cases higet
      refine hcoh.recycle p hfree fun other ho hkey => ?_
      have hmiss := List.find?_eq_none.mp hnone other (mem_finRange other)
      simp [ho, hkey] at hmiss

theorem Coherent.setPc (hcoh : Coherent t) {p : P} {pc : Pc N}
    (hfreeing : ∀ ip gen, pc = .freeing ip gen → (t.entry ip).lock = some p ∧
      (t.entry ip).dinode.nlink = 0 ∧ t.gen (t.entry ip).key = gen)
    (hdropping : ∀ ip, pc = .dropping ip →
      0 < t.refs p ip ∧ (t.entry ip).lock ≠ some p) : Coherent (setPc t p pc) := by
  refine ⟨hcoh.counted, hcoh.distinct, hcoh.current, hcoh.locker, ?_, ?_⟩
  · intro q ip gen hpc
    by_cases hq : q = p
    · subst hq
      simp only [InodeSharing.setPc, update_self] at hpc
      exact hfreeing ip gen hpc
    · simp only [InodeSharing.setPc, update_of_ne hq] at hpc
      exact hcoh.freeing q ip gen hpc
  · intro q ip hpc
    by_cases hq : q = p
    · subst hq
      simp only [InodeSharing.setPc, update_self] at hpc
      exact hdropping ip hpc
    · simp only [InodeSharing.setPc, update_of_ne hq] at hpc
      exact hcoh.dropping q ip hpc

omit [DecidableEq P] in
theorem Coherent.change (hcoh : Coherent t) {ip : Fin N} {entry : Entry P}
    {disk : Key → Dinode} (hused : 0 < (t.entry ip).ref)
    (hkey : entry.key = (t.entry ip).key) (href : entry.ref = (t.entry ip).ref)
    (hdisk : ∀ key, key ≠ (t.entry ip).key → disk key = t.disk key)
    (hcurrent : entry.valid = true → entry.dinode = disk (t.entry ip).key ∧ entry.dinode.type ≠ 0)
    (hlocker : ∀ q, entry.lock = some q → 0 < t.refs q ip ∧ entry.valid = true)
    (hfreeing : ∀ q gen, t.pc q = .freeing ip gen → entry.lock = some q ∧ entry.dinode.nlink = 0)
    (hdropping : ∀ q, t.pc q = .dropping ip → entry.lock ≠ some q) :
    Coherent (setEntry { t with disk := disk } ip entry) := by
  have hself : (setEntry { t with disk := disk } ip entry).entry ip = entry := by simp [setEntry]
  have hothers : ∀ other, other ≠ ip →
      (setEntry { t with disk := disk } ip entry).entry other = t.entry other := by
    intro other ho
    simp [setEntry, ho]
  have hsame : ∀ other, ((setEntry { t with disk := disk } ip entry).entry other).key =
        (t.entry other).key ∧
      ((setEntry { t with disk := disk } ip entry).entry other).ref = (t.entry other).ref := by
    intro other
    by_cases ho : other = ip
    · rw [ho, hself]
      exact ⟨hkey, href⟩
    · rw [hothers other ho]
      exact ⟨rfl, rfl⟩
  refine ⟨?_, ?_, ?_, ?_, ?_, ?_⟩
  · intro other
    rw [(hsame other).2]
    exact hcoh.counted other
  · intro first second hfst hsnd heq
    rw [(hsame first).2] at hfst
    rw [(hsame second).2] at hsnd
    rw [(hsame first).1, (hsame second).1] at heq
    exact hcoh.distinct first second hfst hsnd heq
  · intro other ho hval
    by_cases heq : other = ip
    · rw [heq, hself] at hval ⊢
      rw [hkey]
      exact hcurrent hval
    · rw [hothers other heq] at ho hval ⊢
      have hne : (t.entry other).key ≠ (t.entry ip).key := fun hkeys =>
        heq (hcoh.distinct other ip ho hused hkeys)
      change _ = disk _ ∧ _
      rw [hdisk _ hne]
      exact hcoh.current other ho hval
  · intro other q hlock
    by_cases heq : other = ip
    · rw [heq, hself] at hlock ⊢
      exact hlocker q hlock
    · rw [hothers other heq] at hlock ⊢
      exact hcoh.locker other q hlock
  · intro q other gen hpc
    have hold := hcoh.freeing q other gen hpc
    by_cases heq : other = ip
    · subst heq
      rw [hself, hkey]
      exact ⟨(hfreeing q gen hpc).1, (hfreeing q gen hpc).2, hold.2.2⟩
    · rw [hothers other heq]
      exact hold
  · intro q other hpc
    have hold := hcoh.dropping q other hpc
    by_cases heq : other = ip
    · subst heq
      rw [hself]
      exact ⟨hold.1, hdropping q hpc⟩
    · rw [hothers other heq]
      exact hold

theorem Coherent.drop (hcoh : Coherent t) {p : P} {ip : Fin N}
    (hheld : 0 < t.refs p ip) (hunlocked : (t.entry ip).lock ≠ some p)
    (hpc : ∀ other, t.pc p ≠ .dropping other) : Coherent (drop t p ip) := by
  have hused := hcoh.ref_pos hheld
  exact hcoh.recount p _ _ hused (by omega) (fun hlock => absurd hlock hunlocked)
    fun hdropping => absurd hdropping (hpc ip)

omit [DecidableEq P] in
theorem Coherent.alloc (hcoh : Coherent t) {key : Key} (dinode : Dinode)
    (count : ℕ) (hfree : (t.disk key).type = 0) :
    Coherent { t with
      disk := update t.disk key dinode
      gen := update t.gen key count } := by
  have ho : ∀ ip, 0 < (t.entry ip).ref → (t.entry ip).valid = true →
      (t.entry ip).key ≠ key := by
    intro ip hused hval hkey
    obtain ⟨hdinode, htype⟩ := hcoh.current ip hused hval
    rw [hdinode, hkey] at htype
    exact htype hfree
  refine ⟨hcoh.counted, hcoh.distinct, ?_, hcoh.locker, ?_, hcoh.dropping⟩
  · intro ip hused hval
    change (t.entry ip).dinode = update t.disk key dinode _ ∧ _
    rw [update_of_ne (ho ip hused hval)]
    exact hcoh.current ip hused hval
  · intro p ip gen hpc
    obtain ⟨hlock, hnlink, hgen⟩ := hcoh.freeing p ip gen hpc
    have hne := ho ip (hcoh.lock_pos hlock) (hcoh.locker ip p hlock).2
    refine ⟨hlock, hnlink, ?_⟩
    change update t.gen key count _ = gen
    rw [update_of_ne hne]
    exact hgen

/-! ## Every step -/

variable {p : P} {ip : Fin N} {after : Table N P}

omit [DecidableEq P] in
theorem Coherent.ilock (hcoh : Coherent t) (hidle : t.pc p = .idle)
    (hheld : 0 < t.refs p ip) (hfree : (t.entry ip).lock = none)
    (hilock : ilock t p ip = .ok after) : Coherent after := by
  have hused := hcoh.ref_pos hheld
  have hnotFreeing : ∀ q gen, t.pc q ≠ .freeing ip gen := by
    intro q gen hpc
    have hlock := (hcoh.freeing q ip gen hpc).1
    rw [hfree] at hlock
    cases hlock
  have hnotDropping : ∀ q, t.pc q = .dropping ip → some p ≠ some q := by
    rintro q hpc ⟨⟩
    rw [hidle] at hpc
    cases hpc
  unfold InodeSharing.ilock at hilock
  dsimp only at hilock
  split at hilock
  case isTrue => cases hilock
  case isFalse =>
    split at hilock
    case isTrue hval =>
      cases hilock
      refine @Coherent.change N P _ t hcoh ip _ t.disk hused rfl rfl (fun _ _ => rfl)
        (fun _ => hcoh.current ip hused hval) ?_
        (fun q gen hpc => absurd hpc (hnotFreeing q gen)) hnotDropping
      rintro q ⟨⟩
      exact ⟨hheld, hval⟩
    case isFalse =>
      split at hilock
      case isTrue => cases hilock
      case isFalse htype =>
        cases hilock
        refine @Coherent.change N P _ t hcoh ip _ t.disk hused rfl rfl (fun _ _ => rfl)
          (fun _ => ⟨rfl, htype⟩) ?_
          (fun q gen hpc => absurd hpc (hnotFreeing q gen)) hnotDropping
        rintro q ⟨⟩
        exact ⟨hheld, rfl⟩

theorem Coherent.iput (hcoh : Coherent t) (hidle : t.pc p = .idle)
    (hheld : 0 < t.refs p ip) (hunlocked : (t.entry ip).lock ≠ some p)
    (hiput : iput t p ip = some after) : Coherent after := by
  unfold InodeSharing.iput at hiput
  dsimp only at hiput
  split at hiput
  case isTrue hlast =>
    obtain ⟨href, hval, hnlink⟩ := hlast
    split at hiput
    case isTrue hfree =>
      cases hiput
      have hused := hcoh.ref_pos hheld
      have hlocked := @Coherent.change N P _ t hcoh ip
        { t.entry ip with lock := some p } t.disk hused rfl rfl (fun _ _ => rfl)
        (fun _ => hcoh.current ip hused hval)
        (by rintro q ⟨⟩; exact ⟨hheld, hval⟩)
        (fun q gen hpc => by
          have hlock := (hcoh.freeing q ip gen hpc).1
          rw [hfree] at hlock
          cases hlock)
        (by
          rintro q hpc ⟨⟩
          rw [hidle] at hpc
          cases hpc)
      refine hlocked.setPc ?_ (fun _ h => by cases h)
      rintro other gen ⟨⟩
      simp [setEntry, hnlink]
    case isFalse => cases hiput
  case isFalse =>
    cases hiput
    exact hcoh.drop hheld hunlocked fun other => by simp [hidle]

theorem Coherent.free (hcoh : Coherent t) {gen : ℕ}
    (hpc : t.pc p = .freeing ip gen) : Coherent (free t p ip) := by
  obtain ⟨hlock, _, _⟩ := hcoh.freeing p ip gen hpc
  have hheld := (hcoh.locker ip p hlock).1
  have hused := hcoh.ref_pos hheld
  obtain ⟨dinode, hdinode⟩ : ∃ dinode, dinode =
      { truncated (t.entry ip).dinode with type := 0 } := ⟨_, rfl⟩
  -- `p` leaves the position first: the lock is about to go.
  have hleft : Coherent (InodeSharing.setPc t p .idle) :=
    hcoh.setPc (fun _ _ h => by cases h) (fun _ h => by cases h)
  have hfreed := @Coherent.change N P _ _ hleft ip
    { t.entry ip with dinode := dinode, valid := false, lock := none }
    (update t.disk (t.entry ip).key dinode) hused rfl rfl
    (fun key hkey => update_of_ne hkey _ _) (fun h => by cases h)
    (fun q h => by cases h)
    (fun q other hfreeing => by
      have hsame := (hleft.freeing q ip other hfreeing).1
      change (t.entry ip).lock = some q at hsame
      rw [hlock] at hsame
      cases hsame
      simp [InodeSharing.setPc] at hfreeing)
    (fun q _ h => by cases h)
  have hdropping := @Coherent.setPc N P _ _ _ hfreed p (.dropping ip) (fun _ _ h => by cases h) (by
      rintro other ⟨⟩
      exact ⟨hheld, by simp [setEntry]⟩)
  have hsame : InodeSharing.free t p ip = InodeSharing.setPc (setEntry
      { InodeSharing.setPc t p .idle with
        disk := update t.disk (t.entry ip).key dinode } ip
      { t.entry ip with dinode := dinode, valid := false, lock := none }) p
      (.dropping ip) := by
    simp [InodeSharing.free, InodeSharing.setPc, setEntry, hdinode]
  rw [hsame]
  exact hdropping

theorem step_coherent {ninodes : ℕ} {action : P × Action N} (hcoh : Coherent t)
    (hexec : exec ninodes t action = some (.ok after)) : Coherent after := by
  obtain ⟨p, action⟩ := action
  simp only [exec] at hexec
  split at hexec
  case h_1 hpc => exact hcoh.iget (Option.some.inj hexec)
  case h_2 ip hpc =>
    split at hexec
    case isTrue hheld =>
      cases hexec
      exact hcoh.idup p (hcoh.ref_pos hheld)
    case isFalse => cases hexec
  case h_3 ip hpc =>
    split at hexec
    case isTrue hheld => exact hcoh.ilock hpc hheld.1 hheld.2 (Option.some.inj hexec)
    case isFalse => cases hexec
  case h_4 ip fields hpc =>
    split at hexec
    case isTrue hlock =>
      cases hexec
      obtain ⟨hheld, hval⟩ := hcoh.locker ip p hlock
      have hused := hcoh.ref_pos hheld
      refine hcoh.change hused rfl rfl (fun key hkey => update_of_ne hkey _ _)
        (fun _ => ⟨by simp, (hcoh.current ip hused hval).2⟩)
        (fun q => hcoh.locker ip q) (fun q gen hfreeing => ?_)
        (fun q hdropping => (hcoh.dropping q ip hdropping).2)
      have hsame := (hcoh.freeing q ip gen hfreeing).1
      rw [hlock] at hsame
      cases hsame
      rw [hpc] at hfreeing
      cases hfreeing
    case isFalse => cases hexec
  case h_5 ip hpc =>
    split at hexec
    case isTrue hlock =>
      obtain ⟨hheld, hval⟩ := hcoh.locker ip p hlock
      have hused := hcoh.ref_pos hheld
      unfold iunlock at hexec
      split at hexec
      case isTrue => cases hexec
      case isFalse =>
        cases hexec
        refine @Coherent.change N P _ t hcoh ip _ t.disk hused rfl rfl (fun _ _ => rfl)
          (hcoh.current ip hused) (fun q h => by cases h)
          (fun q gen hfreeing => ?_) (fun q _ h => by cases h)
        have hsame := (hcoh.freeing q ip gen hfreeing).1
        rw [hlock] at hsame
        cases hsame
        rw [hpc] at hfreeing
        cases hfreeing
    case isFalse => cases hexec
  case h_6 ip hpc =>
    split at hexec
    case isTrue hheld =>
      simp only [map_eq_some_iff, Except.ok.injEq] at hexec
      obtain ⟨_, hiput, rfl⟩ := hexec
      exact hcoh.iput hpc hheld.1 hheld.2 hiput
    case isFalse => cases hexec
  case h_7 dev type hpc =>
    cases hexec
    exact hcoh.setPc (fun _ _ h => by cases h) (fun _ h => by cases h)
  case h_8 ip gen hpc =>
    cases hexec
    exact hcoh.free hpc
  case h_9 ip hpc =>
    cases hexec
    obtain ⟨hheld, hunlocked⟩ := hcoh.dropping p ip hpc
    have hleft : Coherent (setPc t p .idle) :=
      hcoh.setPc (fun _ _ h => by cases h) (fun _ h => by cases h)
    exact hleft.drop hheld hunlocked fun other => by simp [setPc]
  case h_10 dev type inum hpc =>
    unfold scan at hexec
    split at hexec
    case isTrue hinum =>
      split at hexec
      case isTrue hfree =>
        cases hexec
        exact (hcoh.alloc (blank type) _ hfree).setPc (fun _ _ h => by cases h)
          (fun _ h => by cases h)
      case isFalse =>
        cases hexec
        exact hcoh.setPc (fun _ _ h => by cases h) (fun _ h => by cases h)
    case isFalse => cases hexec
  case h_11 key hpc =>
    cases higet : iget t p key with
    | error panic =>
      rw [higet] at hexec
      cases hexec
    | ok found =>
      rw [higet] at hexec
      cases hexec
      exact (hcoh.iget higet).setPc (fun _ _ h => by cases h) (fun _ h => by cases h)
  case h_12 => cases hexec

/-! ## Every run -/

/-- The states of the table in all runs, from any disk. -/
abbrev Runs (ninodes : ℕ) (t : Table N P) : Prop :=
  Reachable (exec ninodes) (fun _ _ => True) Initial t

theorem runs_coherent {ninodes : ℕ} (hruns : Runs ninodes t) : Coherent t := by
  refine @Reachable.invariant _ _ _ _ _ _ Coherent t hruns ?_ ?_
  · intro t hinit
    refine ⟨?_, ?_, ?_, ?_, ?_, ?_⟩
    · intro ip
      simp [hinit.ref, hinit.refs]
    · intro ip other hused
      simp [hinit.ref] at hused
    · intro ip hused
      simp [hinit.ref] at hused
    · intro ip p hlock
      simp [hinit.lock] at hlock
    · intro p ip gen hpc
      simp [hinit.pc] at hpc
    · intro p ip hpc
      simp [hinit.pc] at hpc
  · intro t action after hcoh _ hexec
    exact step_coherent hcoh hexec

theorem Coherent.only_reference (hcoh : Coherent t)
    (href : (t.entry ip).ref = 1) (hheld : 0 < t.refs p ip) :
    t.refs p ip = 1 ∧ ∀ q, q ≠ p → t.refs q ip = 0 := by
  have hsum := add_sum_erase Finset.univ (fun q => t.refs q ip) (mem_univ p)
  rw [← hcoh.counted ip, href] at hsum
  have hrest : ∑ q ∈ Finset.univ.erase p, t.refs q ip = 0 := by omega
  refine ⟨by omega, fun q hq => ?_⟩
  exact sum_eq_zero_iff.mp hrest q (mem_erase.mpr ⟨hq, mem_univ q⟩)

omit [Fintype P] in
theorem iput_freeing {gen : ℕ} (hiput : iput t p ip = some after) {q : P}
    {other : Fin N} (hpc : after.pc q = .freeing other gen) :
    t.pc q = .freeing other gen ∨ q = p ∧ other = ip ∧ (t.entry ip).ref = 1 ∧
      (t.entry ip).valid = true ∧ (t.entry ip).dinode.nlink = 0 ∧ (t.entry ip).lock = none := by
  unfold iput at hiput
  dsimp only at hiput
  split at hiput
  case isTrue hlast =>
    split at hiput
    case isTrue hfree =>
      cases hiput
      by_cases hq : q = p
      · subst hq
        simp only [setPc, setEntry, update_self] at hpc
        cases hpc
        exact .inr ⟨rfl, rfl, hlast.1, hlast.2.1, hlast.2.2, hfree⟩
      · simp only [setPc, setEntry, update_of_ne hq] at hpc
        exact .inl hpc
    case isFalse => cases hiput
  case isFalse =>
    cases hiput
    exact .inl hpc

omit [Fintype P] in
theorem iget_pc {key : Key} (higet : iget t p key = .ok after) : after.pc = t.pc := by
  unfold iget at higet
  split at higet
  case h_1 =>
    cases higet
    rfl
  case h_2 =>
    split at higet
    case h_1 => cases higet
    case h_2 =>
      cases higet
      rfl

omit [Fintype P] in
theorem exec_freeing {ninodes gen : ℕ} {action : P × Action N}
    (hexec : exec ninodes t action = some (.ok after)) {q : P} {other : Fin N}
    (hpc : after.pc q = .freeing other gen) : t.pc q = .freeing other gen ∨ 0 < t.refs q other ∧
      (t.entry other).ref = 1 ∧ (t.entry other).valid = true ∧
      (t.entry other).dinode.nlink = 0 ∧ (t.entry other).lock = none := by
  obtain ⟨p, action⟩ := action
  -- All other actions leave the position or move to one outside `freeing`.
  have hmoved : ∀ (middle : Table N P) (pc : Pc N), middle.pc = t.pc →
      (∀ ip gen, pc ≠ .freeing ip gen) →
      (setPc middle p pc).pc q = .freeing other gen →
      t.pc q = .freeing other gen := by
    intro middle pc hsame hnot hafter
    by_cases hq : q = p
    · subst hq
      simp only [setPc, update_self] at hafter
      exact absurd hafter (hnot other gen)
    · simpa only [setPc, update_of_ne hq, hsame] using hafter
  simp only [exec] at hexec
  split at hexec
  case h_1 => exact .inl (iget_pc (Option.some.inj hexec) ▸ hpc)
  case h_2 =>
    split at hexec
    case isTrue =>
      cases hexec
      exact .inl hpc
    case isFalse => cases hexec
  case h_3 ip _ =>
    split at hexec
    case isTrue =>
      have hilock := Option.some.inj hexec
      unfold ilock at hilock
      dsimp only at hilock
      split at hilock
      · cases hilock
      · split at hilock
        · cases hilock
          exact .inl hpc
        · split at hilock
          · cases hilock
          · cases hilock
            exact .inl hpc
    case isFalse => cases hexec
  case h_4 =>
    split at hexec
    case isTrue =>
      cases hexec
      exact .inl hpc
    case isFalse => cases hexec
  case h_5 =>
    split at hexec
    case isTrue =>
      unfold iunlock at hexec
      split at hexec
      · cases hexec
      · cases hexec
        exact .inl hpc
    case isFalse => cases hexec
  case h_6 ip hidle =>
    split at hexec
    case isTrue hheld =>
      simp only [map_eq_some_iff, Except.ok.injEq] at hexec
      obtain ⟨_, hiput, rfl⟩ := hexec
      rcases iput_freeing hiput hpc with hold | ⟨rfl, rfl, hlast⟩
      · exact .inl hold
      · exact .inr ⟨hheld.1, hlast⟩
    case isFalse => cases hexec
  case h_7 =>
    cases hexec
    exact .inl (hmoved t _ rfl (fun _ _ h => by cases h) hpc)
  case h_8 =>
    cases hexec
    unfold free at hpc
    exact .inl (hmoved _ _ (by rfl) (fun _ _ h => by cases h) hpc)
  case h_9 ip _ =>
    cases hexec
    exact .inl (hmoved (drop t p ip) _ rfl (fun _ _ h => by cases h) hpc)
  case h_10 =>
    unfold scan at hexec
    split at hexec
    case isTrue =>
      split at hexec
      · cases hexec
        exact .inl (hmoved _ _ rfl (fun _ _ h => by cases h) hpc)
      · cases hexec
        exact .inl (hmoved t _ rfl (fun _ _ h => by cases h) hpc)
    case isFalse => cases hexec
  case h_11 key _ =>
    cases higet : iget t p key with
    | error panic =>
      rw [higet] at hexec
      cases hexec
    | ok found =>
      rw [higet] at hexec
      cases hexec
      exact .inl (hmoved found _ (iget_pc higet) (fun _ _ h => by cases h) hpc)
  case h_12 => cases hexec

/-- The table is coherent in every state of every run: no two entries in use stand
for the same inode; an entry in use that is valid equals its disk inode; `iput`
begins to free an inode only when its caller has the only reference and the inode
has no link; the inode it then truncates is unchanged, locked, and not allocated
anew; and after it has freed the inode it touches nothing but its reference. -/
theorem inode_table_coherent (ninodes : ℕ) (t : Table N P) (hruns : Runs ninodes t) :
    (∀ ip other, 0 < (t.entry ip).ref → 0 < (t.entry other).ref →
      (t.entry ip).key = (t.entry other).key → ip = other) ∧
    (∀ ip, 0 < (t.entry ip).ref → (t.entry ip).valid = true →
      (t.entry ip).dinode = t.disk (t.entry ip).key) ∧
    (∀ action after p ip gen, exec ninodes t action = some (.ok after) →
      after.pc p = .freeing ip gen → t.pc p = .freeing ip gen ∨
        (t.entry ip).ref = 1 ∧ t.refs p ip = 1 ∧
          (∀ q, q ≠ p → t.refs q ip = 0) ∧ (t.entry ip).valid = true ∧
          (t.entry ip).dinode.nlink = 0 ∧ (t.entry ip).lock = none) ∧
    (∀ p ip gen, t.pc p = .freeing ip gen →
      (t.entry ip).lock = some p ∧ (t.entry ip).dinode.nlink = 0 ∧ t.gen (t.entry ip).key = gen) ∧
    ∀ p ip after, t.pc p = .dropping ip → exec ninodes t (p, .next) = some (.ok after) →
      after.disk = t.disk ∧ ∀ other, (after.entry other).valid = (t.entry other).valid ∧
          (after.entry other).dinode = (t.entry other).dinode := by
  have hcoherent := runs_coherent hruns
  refine ⟨hcoherent.distinct, fun ip hused hvalid =>
    (hcoherent.current ip hused hvalid).1, ?_, hcoherent.freeing, ?_⟩
  · intro action after p ip gen hexec hpc
    rcases exec_freeing hexec hpc with hold | ⟨hheld, href, hrest⟩
    · exact .inl hold
    · obtain ⟨hone, hothers⟩ := hcoherent.only_reference href hheld
      exact .inr ⟨href, hone, hothers, hrest⟩
  · intro p ip after hpc hexec
    simp only [exec, hpc] at hexec
    cases hexec
    refine ⟨rfl, fun other => ?_⟩
    by_cases hother : other = ip <;> simp [setPc, drop, setRefs, setEntry, hother]

end

/-! ## Runs -/

/-- A table of two entries on a disk with one link to every inode. -/
def fresh : Table 2 Unit where
  disk _ := { blank 2 with nlink := 1 }
  entry _ := ⟨(0, 0), 0, false, blank 0, none⟩
  pc _ := .idle
  refs _ _ := 0
  gen _ := 0

theorem fresh_initial : Initial fresh := ⟨fun _ => rfl, fun _ => rfl, fun _ => rfl, fun _ _ => rfl⟩

/-- The last link of inode 5 goes, and then the last reference. -/
theorem inode_table_coherent_unlinked : ∃ t : Table 2 Unit, Runs 10 t ∧ t.pc () = .freeing 0 0 ∧
      (t.entry 0).lock = some () ∧ (t.entry 0).dinode.nlink = 0 ∧
      t.gen (t.entry 0).key = 0 := by
  obtain ⟨t, hruns, htest⟩ := @exists_reachable (Table 2 Unit) (Unit × Action 2)
    Panic (exec 10) (fun _ _ => True) Initial (fun _ _ => true)
    (fun t => decide (t.pc () = .freeing 0 0)) fresh
    [((), .iget (1, 5)), ((), .ilock 0), ((), .iupdate 0 (blank 0)),
      ((), .iunlock 0), ((), .iput 0)] fresh_initial (fun _ _ _ => trivial)
    (by decide)
  have hpc := of_decide_eq_true htest
  exact ⟨t, hruns, hpc, (inode_table_coherent 10 t hruns).2.2.2.1 () 0 0 hpc⟩

/-- An entry that is not in use any more keeps `valid` and is not updated: inode 5
is put, found again in another entry and changed. -/
theorem unused_entry_stale : ∃ t : Table 2 Unit, Runs 10 t ∧ (t.entry 1).lock = none ∧
      (t.entry 1).valid = true ∧ (t.entry 1).dinode ≠ t.disk (t.entry 1).key := by
  obtain ⟨t, hruns, htest⟩ := @exists_reachable (Table 2 Unit) (Unit × Action 2)
    Panic (exec 10) (fun _ _ => True) Initial (fun _ _ => true)
    (fun t => decide ((t.entry 1).lock = none ∧ (t.entry 1).valid = true ∧
      (t.entry 1).dinode.size ≠ (t.disk (t.entry 1).key).size)) fresh
    [((), .iget (1, 3)), ((), .iget (1, 5)), ((), .ilock 1), ((), .iunlock 1),
      ((), .iput 0), ((), .iput 1), ((), .iget (1, 5)), ((), .ilock 0),
      ((), .iupdate 0 { blank 0 with nlink := 1, size := 1 })]
    fresh_initial (fun _ _ _ => trivial) (by decide)
  obtain ⟨hlock, hvalid, hsize⟩ := of_decide_eq_true htest
  exact ⟨t, hruns, hlock, hvalid, fun hsame => hsize (by rw [hsame])⟩

end Xv6.InodeSharing
