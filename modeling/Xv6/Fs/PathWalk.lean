import Xv6.Fs.Lookup
import Xv6.Mkfs.ReadBack

/-!
# Path resolution

`namex` walks a path.  What it should return is stated on the components of the
path: starting at the root or the current directory, every component is looked
up in the directory reached so far.  On every exit no inode is left locked, and
the only reference that remains is the one to the inode that is returned.
-/

namespace Xv6.PathWalk

open Function LittleEndian DiskLog DiskFormat BlockOwnership FileSystem InodeTable InodeSession
open Lookup Outcome
open MkfsBuild MkfsNoHoles MkfsReadBack
open Mkfs (InputFile Image mkfs)
open Directory hiding namexLoop namex namei nameiparent

variable {word path name : List Byte} {parent : Bool} {disk : Disk} {index : ℕ}
  {found : ℕ × List Byte} {image : Image}

/-! ## Components of a path -/

/-- The nonempty components of a path, cut to `DIRSIZ` bytes. -/
def elements (path : List Byte) : List (List Byte) :=
  ((path.splitOn slash).filter (· ≠ [])).map (·.take DIRSIZ)

theorem elements_slash (path : List Byte) : elements (slash :: path) = elements path := by
  rw [elements, List.splitOn, List.splitOnP_cons_eq_if_modifyHead, if_pos (by simp)]
  rfl

theorem elements_slashes (path : List Byte) :
    elements (path.dropWhile (· = slash)) = elements path := by
  induction path with
  | nil => rfl
  | cons byte path ih =>
    rw [List.dropWhile_cons]
    split
    case isTrue hslash =>
      rw [decide_eq_true_eq] at hslash
      rw [ih, hslash, elements_slash]
    case isFalse => rfl

theorem elements_single (hword : word ≠ [])
    (hplain : ∀ byte ∈ word, (byte == slash) = false) : elements word = [word.take DIRSIZ] := by
  rw [elements, List.splitOn, List.splitOnP_eq_singleton hplain]
  simp [hword]

theorem elements_append (hword : word ≠ [])
    (hplain : ∀ byte ∈ word, (byte == slash) = false) (rest : List Byte) :
    elements (word ++ slash :: rest) = word.take DIRSIZ :: elements rest := by
  rw [elements, List.splitOn, List.splitOnP_append_cons_of_forall_mem hplain slash (by simp)]
  simp [hword, elements, List.splitOn]

theorem elements_word (hword : path.takeWhile (· ≠ slash) ≠ []) :
    elements path = (path.takeWhile (· ≠ slash)).take DIRSIZ ::
      elements (path.dropWhile (· ≠ slash)) := by
  have hplain : ∀ byte ∈ path.takeWhile (· ≠ slash), (byte == slash) = false := by
    intro byte hbyte
    have hne := List.mem_takeWhile_imp hbyte
    simpa using hne
  have hsplit : path.takeWhile (· ≠ slash) ++ path.dropWhile (· ≠ slash) = path :=
    List.takeWhile_append_dropWhile
  have hhead := List.head?_dropWhile_not (fun byte : Byte => decide (byte ≠ slash)) path
  cases hrest : path.dropWhile (· ≠ slash) with
  | nil =>
    rw [hrest, List.append_nil] at hsplit
    have hsingle := elements_single hword hplain
    rw [hsplit] at hsingle ⊢
    exact hsingle
  | cons byte rest =>
    rw [hrest] at hhead hsplit
    have hslash : byte = slash := by simpa using hhead
    subst hslash
    have happend := elements_append hword hplain rest
    rw [hsplit] at happend
    rw [happend, elements_slash]

theorem elements_ne_nil {byte : Byte} (hbyte : byte ≠ slash) :
    elements (byte :: path) ≠ [] := by
  rw [elements_word (by simp [hbyte])]
  exact List.cons_ne_nil _ _

theorem dropWhile_slash_cases (path : List Byte) : path.dropWhile (· = slash) = [] ∨
    ∃ byte rest, byte ≠ slash ∧ path.dropWhile (· = slash) = byte :: rest := by
  have hhead := List.head?_dropWhile_not (fun byte : Byte => decide (byte = slash)) path
  cases hdrop : path.dropWhile (· = slash) with
  | nil => exact Or.inl rfl
  | cons byte rest =>
    rw [hdrop] at hhead
    exact Or.inr ⟨byte, rest, by simpa using hhead, rfl⟩

theorem skipelem_none (hskip : skipelem path = none) : elements path = [] := by
  rcases dropWhile_slash_cases path with hnil | ⟨byte, rest, hbyte, hdrop⟩
  · rw [← elements_slashes, hnil]
    rfl
  · rw [skipelem, hdrop] at hskip
    cases hskip

theorem skipelem_some {rest : List Byte} (hskip : skipelem path = some (name, rest)) :
    elements path = name :: elements rest ∧ rest.length < path.length ∧
      (rest = [] ↔ elements rest = []) := by
  rcases dropWhile_slash_cases path with hnil | ⟨byte, tail, hbyte, hdrop⟩
  · rw [skipelem, hnil] at hskip
    cases hskip
  · have hword : (byte :: tail).takeWhile (· ≠ slash) ≠ [] := by simp [hbyte]
    rw [skipelem, hdrop] at hskip
    obtain ⟨rfl, rfl⟩ := Prod.mk.inj (Option.some.inj hskip)
    refine ⟨?_, ?_, ?_⟩
    · rw [← elements_slashes, hdrop, elements_word hword, elements_slashes]
    · calc (((byte :: tail).dropWhile (· ≠ slash)).dropWhile (· = slash)).length
          ≤ ((byte :: tail).dropWhile (· ≠ slash)).length := (List.dropWhile_suffix _).length_le
        _ ≤ tail.length := by
            rw [List.dropWhile_cons, if_pos (by simp [hbyte])]
            exact (List.dropWhile_suffix _).length_le
        _ < (byte :: tail).length := Nat.lt_succ_self _
        _ ≤ path.length := by
            rw [← hdrop]
            exact (List.dropWhile_suffix _).length_le
    · rcases dropWhile_slash_cases ((byte :: tail).dropWhile (· ≠ slash)) with
        hnil | ⟨next, more, hnext, hmore⟩
      · rw [hnil]
        exact iff_of_true rfl rfl
      · rw [hmore]
        exact iff_of_false (List.cons_ne_nil _ _) (elements_ne_nil hnext)

/-! ## What a path names -/

/-- The inode that a list of names leads to from a directory. -/
def resolve (sb : Superblock) (disk : Disk) : ℕ → List (List Byte) → Option ℕ
  | inum, [] => some inum
  | inum, name :: rest =>
    if (readDinode sb disk inum).type = T_DIR then
      (lookup disk (readDinode sb disk inum) name).bind fun next => resolve sb disk next rest
    else none

def resolveParent (sb : Superblock) (disk : Disk) (inum : ℕ) (names : List (List Byte)) :
    Option (ℕ × List Byte) :=
  names.getLast?.bind fun last =>
    (resolve sb disk inum names.dropLast).bind fun directory =>
      if (readDinode sb disk directory).type = T_DIR then some (directory, last) else none

theorem resolveParent_single (sb : Superblock) (disk : Disk) (inum : ℕ) (name : List Byte) :
    resolveParent sb disk inum [name] =
      if (readDinode sb disk inum).type = T_DIR then some (inum, name) else none := rfl

theorem resolveParent_cons (sb : Superblock) (disk : Disk) (inum : ℕ) (name : List Byte)
    {names : List (List Byte)} (hnames : names ≠ []) :
    resolveParent sb disk inum (name :: names) =
      if (readDinode sb disk inum).type = T_DIR then
        (lookup disk (readDinode sb disk inum) name).bind fun next =>
          resolveParent sb disk next names
      else none := by
  obtain ⟨first, rest, rfl⟩ := List.exists_cons_of_ne_nil hnames
  rw [resolveParent, List.getLast?_cons_cons, List.dropLast_cons_cons, resolve]
  split
  · cases hlast : (first :: rest).getLast? with
    | none => simp at hlast
    | some last =>
      rw [Option.bind_some, Option.bind_assoc]
      simp only [resolveParent, hlast, Option.bind_some]
  · cases hlast : (first :: rest).getLast? <;> rfl

/-! ## The walk with its locks -/

/-- Why a call does not return: it panics, or it sleeps for a lock of its own. -/
inductive Stop where
  | panic (panic : Panic)
  | asleep

/-- The file system and the sleep locks of the inodes. -/
structure Locking where
  fs : FsState
  locked : InodePtr → Bool

def unlocked (fs : FsState) : Locking := ⟨fs, fun _ => false⟩

def lockFree {α : Type} (locked : InodePtr → Bool) :
    Except Panic (α × FsState) → Except Stop (α × Locking)
  | .ok (result, fs) => .ok (result, ⟨fs, locked⟩)
  | .error panic => .error (.panic panic)

def ilock (sb : Superblock) (s : Locking) (ip : InodePtr) : Except Stop Locking :=
  if (s.fs.inode ip).ref < 1 then .error (.panic .ilock)
  else if s.locked ip = true then .error .asleep
  else match InodeTable.ilock sb s.fs ip with
    | .ok fs => .ok ⟨fs, update s.locked ip true⟩
    | .error panic => .error (.panic panic)

def iunlock (s : Locking) (ip : InodePtr) : Except Stop Locking :=
  if s.locked ip = false ∨ (s.fs.inode ip).ref < 1 then .error (.panic .iunlock)
  else .ok { s with locked := update s.locked ip false }

/-- `iput`, which takes the lock to free the inode and releases it again. -/
def iput (sb : Superblock) (s : Locking) (ip : InodePtr) : Except Stop Locking :=
  let inode := s.fs.inode ip
  if (inode.ref = 1 ∧ inode.valid = true ∧ inode.dinode.nlink = 0) ∧
      s.locked ip = true then .error .asleep
  else match InodeTable.iput sb s.fs ip with
    | .ok fs => .ok { s with fs := fs }
    | .error panic => .error (.panic panic)

def iunlockput (sb : Superblock) (s : Locking) (ip : InodePtr) : Except Stop Locking := do
  let s ← iunlock s ip
  iput sb s ip

def namexLoop (sb : Superblock) (nameiparent : Bool) :
    ℕ → Locking → InodePtr → List Byte → List Byte →
      Except Stop (Option (InodePtr × List Byte) × Locking)
  | 0, s, ip, _, name => return (some (ip, name), s)
  | fuel + 1, s, ip, path, name => do
    match skipelem path with
    | none =>
      if nameiparent then
        let s ← iput sb s ip
        return (none, s)
      return (some (ip, name), s)
    | some (name, path) =>
      let s ← ilock sb s ip
      if (s.fs.inode ip).dinode.type ≠ T_DIR then
        let s ← iunlockput sb s ip
        return (none, s)
      if nameiparent = true ∧ path = [] then
        let s ← iunlock s ip
        return (some (ip, name), s)
      match ← lockFree s.locked (dirlookup sb s.fs ip name) with
      | (none, s) =>
        let s ← iunlockput sb s ip
        return (none, s)
      | (some (next, _), s) =>
        let s ← iunlockput sb s ip
        namexLoop sb nameiparent fuel s next path name

def namex (sb : Superblock) (s : Locking) (cwd : InodePtr) (path : List Byte)
    (nameiparent : Bool) : Except Stop (Option (InodePtr × List Byte) × Locking) := do
  let (ip, s) ←
    if path.head? = some slash then lockFree s.locked (iget s.fs ROOTINO)
    else pure (cwd, { s with fs := idup s.fs cwd })
  namexLoop sb nameiparent (path.length + 1) s ip path []

def namei (sb : Superblock) (s : Locking) (cwd : InodePtr) (path : List Byte) :
    Except Stop (Option InodePtr × Locking) := do
  let (found, s) ← namex sb s cwd path false
  return (found.map Prod.fst, s)

def nameiparent (sb : Superblock) (s : Locking) (cwd : InodePtr) (path : List Byte) :
    Except Stop (Option (InodePtr × List Byte) × Locking) :=
  namex sb s cwd path true

section
variable {sb : Superblock} {fs fs' : FsState} {ip : InodePtr}

theorem ilock_unlocked (sb : Superblock) (fs : FsState) (ip : InodePtr) :
    ilock sb (unlocked fs) ip = match InodeTable.ilock sb fs ip with
      | .ok fs => .ok ⟨fs, update (fun _ => false) ip true⟩
      | .error panic => .error (.panic panic) := by
  rw [ilock]
  by_cases href : (fs.inode ip).ref < 1
  · have hpanic : InodeTable.ilock sb fs ip = .error .ilock := by
      rw [InodeTable.ilock, if_pos href]
      rfl
    rw [hpanic]
    exact if_pos href
  · exact (if_neg href).trans (if_neg Bool.false_ne_true)

theorem iunlock_locked (href : 0 < (fs.inode ip).ref) :
    iunlock ⟨fs, update (fun _ => false) ip true⟩ ip = .ok (unlocked fs) := by
  have hlocks : update (update (fun _ => false) ip true) ip false = fun _ : InodePtr => false := by
    rw [update_idem, update_eq_self_iff]
  rw [iunlock, if_neg]
  · rw [hlocks]
    rfl
  · rintro (hlock | hnone)
    · simp at hlock
    · dsimp only at hnone
      omega

theorem iput_unlocked (sb : Superblock) (fs : FsState) (ip : InodePtr) :
    iput sb (unlocked fs) ip = match InodeTable.iput sb fs ip with
      | .ok fs => .ok (unlocked fs)
      | .error panic => .error (.panic panic) :=
  if_neg fun hlock => Bool.false_ne_true hlock.2

theorem iunlockput_locked (sb : Superblock) (href : 0 < (fs.inode ip).ref) :
    iunlockput sb ⟨fs, update (fun _ => false) ip true⟩ ip =
      match InodeTable.iput sb fs ip with
      | .ok fs => .ok (unlocked fs)
      | .error panic => .error (.panic panic) := by
  rw [iunlockput, iunlock_locked href, ok_bind, iput_unlocked]

end

/-! ## References during a walk -/

/-- The references of `base` and those of `pins`, on the same disk. -/
structure Walk (sb : Superblock) (base fs : FsState) (pins : Multiset InodePtr) :
    Prop where
  consistent : Consistent True sb fs
  disk : fs.disk = base.disk
  refs : ∀ ip, (fs.inode ip).ref = (base.inode ip).ref + pins.count ip
  kept : ∀ ip, 0 < (base.inode ip).ref → (fs.inode ip).inum = (base.inode ip).inum

section
variable {sb : Superblock} {base fs fs' : FsState} {pins : Multiset InodePtr}
  {ip : InodePtr} {inum : ℕ}

theorem Walk.start (hcons : Consistent True sb fs) : Walk sb fs fs 0 where
  consistent := hcons
  disk := rfl
  refs _ := rfl
  kept _ _ := rfl

theorem Walk.session (hwalk : Walk sb base fs pins) : Session True sb fs pins ∅ where
  toConsistent := hwalk.consistent
  pinned ip := by
    rw [hwalk.refs]
    exact Nat.le_add_left _ _
  valid _ hip := hip.elim

theorem Walk.replace (hwalk : Walk sb base fs pins) {inode : Inode}
    {pins' : Multiset InodePtr} (hcons : Consistent True sb (setInode fs ip inode))
    (href : inode.ref = (base.inode ip).ref + pins'.count ip)
    (hpins : ∀ other, other ≠ ip → pins'.count other = pins.count other)
    (hinum : 0 < (base.inode ip).ref → inode.inum = (fs.inode ip).inum) :
    Walk sb base (setInode fs ip inode) pins' where
  consistent := hcons
  disk := hwalk.disk
  refs other := by
    by_cases ho : other = ip
    · subst ho
      simpa [setInode] using href
    · simpa [setInode, ho, hpins other ho] using hwalk.refs other
  kept other hbase := by
    have hkept := hwalk.kept other hbase
    by_cases ho : other = ip
    · subst ho
      simpa [setInode] using (hinum hbase).trans hkept
    · simpa [setInode, ho] using hkept

theorem setInode_inum {inode : Inode} (hinum : inode.inum = (fs.inode ip).inum) (other : InodePtr) :
    ((setInode fs ip inode).inode other).inum = (fs.inode other).inum := by
  by_cases ho : other = ip
  · subst ho
    simpa [setInode] using hinum
  · simp [setInode, ho]

theorem Walk.idup (hwalk : Walk sb base fs pins) (href : 0 < (fs.inode ip).ref) :
    Walk sb base (idup fs ip) (ip ::ₘ pins) := by
  refine hwalk.replace (idup_spec hwalk.session href).toConsistent ?_ (fun other ho => ?_)
    fun _ => rfl
  · rw [Multiset.count_cons_self, hwalk.refs]
    rfl
  · exact Multiset.count_cons_of_ne ho pins

/-- `iget` returns a reference to the inode when an entry of the table is unused. -/
theorem Walk.iget (hwalk : Walk sb base fs pins) (hinum : inum < sb.ninodes)
    (hroom : ∃ slot, (fs.inode slot).ref = 0) :
    ∃ got fs', iget fs inum = .ok (got, fs') ∧ Walk sb base fs' (got ::ₘ pins) ∧
      (fs'.inode got).inum = inum ∧
      ∀ other, 0 < (fs.inode other).ref → (fs'.inode other).inum = (fs.inode other).inum := by
  have hspec := iget_spec hwalk.session hinum
  cases hfind : (List.finRange NINODE).find? fun ip =>
      decide (0 < (fs.inode ip).ref ∧ (fs.inode ip).inum = inum) with
  | some got =>
    have hget : InodeTable.iget fs inum = .ok (got, InodeTable.idup fs got) := by
      rw [InodeTable.iget, hfind]
      rfl
    have hf := List.find?_some hfind
    rw [decide_eq_true_eq] at hf
    have hsame : ∀ other, ((InodeTable.idup fs got).inode other).inum = (fs.inode other).inum :=
      @setInode_inum fs got { fs.inode got with ref := (fs.inode got).ref + 1 } rfl
    exact ⟨got, _, hget, hwalk.idup hf.1, (hsame got).trans hf.2, fun other _ => hsame other⟩
  | none =>
    cases hnil : (List.finRange NINODE).find? fun ip => decide ((fs.inode ip).ref = 0) with
    | none =>
      obtain ⟨slot, hslot⟩ := hroom
      have hnot := List.find?_eq_none.mp hnil slot (List.mem_finRange slot)
      rw [decide_eq_true_eq] at hnot
      exact absurd hslot hnot
    | some empty =>
      have hunused := List.find?_some hnil
      rw [decide_eq_true_eq] at hunused
      have hget : InodeTable.iget fs inum = .ok (empty, setInode fs empty
          { fs.inode empty with inum := inum, ref := 1, valid := false }) := by
        rw [InodeTable.iget, hfind, hnil]
      rw [hget] at hspec
      have hbase := hwalk.refs empty
      refine ⟨empty, _, hget, hwalk.replace hspec.toConsistent ?_ (fun other ho => ?_)
        fun hused => by omega, by simp [setInode], fun other ho => ?_⟩
      · rw [Multiset.count_cons_self]
        change 1 = _
        omega
      · exact Multiset.count_cons_of_ne ho pins
      · have hne : other ≠ empty := by
          rintro rfl
          omega
        simp [setInode, hne]

/-- `iput` only gives the reference back when the inode has a link or another reference. -/
theorem Walk.iput (hwalk : Walk sb base fs (ip ::ₘ pins)) (hlinked : 0 < (base.inode ip).ref ∨
      (readDinode sb base.disk (fs.inode ip).inum).nlink ≠ 0) :
    ∃ fs', InodeTable.iput sb fs ip = .ok fs' ∧ Walk sb base fs' pins ∧
      ∀ other, (fs'.inode other).inum = (fs.inode other).inum := by
  have hrefs := hwalk.refs ip
  rw [Multiset.count_cons_self] at hrefs
  have hkeeps : ¬ ((fs.inode ip).ref = 1 ∧ (fs.inode ip).valid = true ∧
      (fs.inode ip).dinode.nlink = 0) := by
    rintro ⟨hone, hval, hnlink⟩
    obtain ⟨hcopy, -⟩ := hwalk.consistent.coherent ip (by omega) hval
    rw [hcopy, hwalk.disk] at hnlink
    exact hlinked.elim (fun hbase => by omega) fun hne => hne hnlink
  have hput : InodeTable.iput sb fs ip = .ok (setRef fs ip ((fs.inode ip).ref - 1)) := by
    rw [InodeTable.iput]
    exact if_neg hkeeps
  have hspec := @iput_spec _ sb fs (ip ::ₘ pins) ∅ ip hwalk.session
    (Multiset.mem_cons_self ip pins) ∅ fun other ho => ho.elim
  rw [hput] at hspec
  refine ⟨_, hput, hwalk.replace hspec.toConsistent ?_ (fun other ho => ?_) fun _ => rfl,
    setInode_inum rfl⟩
  · change (fs.inode ip).ref - 1 = _
    omega
  · exact (Multiset.count_cons_of_ne ho pins).symm

theorem Walk.ilock (hwalk : Walk sb base fs (ip ::ₘ pins))
    (htype : (readDinode sb base.disk (fs.inode ip).inum).type ≠ 0) :
    ∃ fs', InodeTable.ilock sb fs ip = .ok fs' ∧ Walk sb base fs' (ip ::ₘ pins) ∧
      Session True sb fs' (ip ::ₘ pins) {ip} ∧
      (∀ other, (fs'.inode other).inum = (fs.inode other).inum) := by
  have hpinned := Multiset.mem_cons_self ip pins
  have href := hwalk.session.ref_pos hpinned
  have hspec := ilock_spec hwalk.session hpinned
  rw [insert_empty_eq] at hspec
  by_cases hval : (fs.inode ip).valid = true
  · have hlock : InodeTable.ilock sb fs ip = .ok fs := by
      rw [InodeTable.ilock, if_neg (by omega), if_pos hval]
      rfl
    rw [hlock] at hspec
    exact ⟨fs, hlock, hwalk, hspec, fun _ => rfl⟩
  · rw [← hwalk.disk] at htype
    have hlock : InodeTable.ilock sb fs ip = .ok (setInode fs ip { fs.inode ip with
          valid := true, dinode := readDinode sb fs.disk (fs.inode ip).inum }) := by
      rw [InodeTable.ilock, if_neg (by omega), if_neg hval]
      exact if_neg htype
    rw [hlock] at hspec
    exact ⟨_, hlock, hwalk.replace hspec.toConsistent (hwalk.refs ip) (fun _ _ => rfl)
      fun _ => rfl, hspec, setInode_inum rfl⟩

end

/-! ## The tree of directories -/

/-- The entries of every directory lead to inodes that are in use and have a link. -/
structure Tree (sb : Superblock) (disk : Disk) : Prop where
  rootRange : ROOTINO < sb.ninodes
  root : (readDinode sb disk ROOTINO).type = T_DIR ∧ (readDinode sb disk ROOTINO).nlink ≠ 0
  sized : ∀ inum < sb.ninodes, (readDinode sb disk inum).type = T_DIR →
    sizeofDirent ∣ (readDinode sb disk inum).size.toNat
  linked : ∀ inum < sb.ninodes, (readDinode sb disk inum).type = T_DIR →
    ∀ k < capacity (readDinode sb disk inum),
      direntInum (entry disk (readDinode sb disk inum) k) ≠ 0 →
      (readDinode sb disk (direntInum (entry disk (readDinode sb disk inum) k))).type ≠ 0 ∧
      (readDinode sb disk (direntInum (entry disk (readDinode sb disk inum) k))).nlink ≠ 0

def Room (fs : FsState) : Prop :=
  ∃ first second, first ≠ second ∧ (fs.inode first).ref = 0 ∧ (fs.inode second).ref = 0

/-- The walk has reached the inode `ip`. -/
structure Standing (sb : Superblock) (base fs : FsState) (ip : InodePtr) : Prop where
  walk : Walk sb base fs (ip ::ₘ 0)
  allocated : (readDinode sb base.disk (fs.inode ip).inum).type ≠ 0
  linked : 0 < (base.inode ip).ref ∨ (readDinode sb base.disk (fs.inode ip).inum).nlink ≠ 0

section
variable {sb : Superblock} {base fs : FsState} {ip : InodePtr}

theorem Walk.room (hwalk : Walk sb base fs (ip ::ₘ 0)) (hroom : Room base) :
    ∃ slot, (fs.inode slot).ref = 0 := by
  obtain ⟨first, second, hne, hfst, hsnd⟩ := hroom
  by_cases hip : first = ip
  · refine ⟨second, ?_⟩
    rw [hwalk.refs, hsnd, Multiset.count_cons_of_ne (hip ▸ hne.symm), Multiset.count_zero]
  · refine ⟨first, ?_⟩
    rw [hwalk.refs, hfst, Multiset.count_cons_of_ne hip, Multiset.count_zero]

theorem dirlookup_walk (htree : Tree sb base.disk) (hroom : Room base)
    (hwalk : Walk sb base fs (ip ::ₘ 0)) (hsess : Session True sb fs (ip ::ₘ 0) {ip})
    (htype : (fs.inode ip).dinode.type = T_DIR) (name : List Byte) :
    (lookup base.disk (readDinode sb base.disk (fs.inode ip).inum) name = none ∧
      dirlookup sb fs ip name = .ok (none, fs)) ∨
    ∃ next off fs', dirlookup sb fs ip name = .ok (some (next, off), fs') ∧
      lookup base.disk (readDinode sb base.disk (fs.inode ip).inum) name =
        some (fs'.inode next).inum ∧ Walk sb base fs' (next ::ₘ ip ::ₘ 0) ∧
      (fs'.inode ip).inum = (fs.inode ip).inum ∧
      (readDinode sb base.disk (fs'.inode next).inum).type ≠ 0 ∧
      (readDinode sb base.disk (fs'.inode next).inum).nlink ≠ 0 := by
  obtain ⟨hrange, hcopy, -⟩ := hsess.locked_inode (Set.mem_singleton ip)
  have hentries := hsess.intact.entries trivial _ hrange
  rw [hwalk.disk] at hcopy hentries
  rw [hcopy] at htype
  have hlook := dirlookup_eq hsess (Set.mem_singleton ip) (hcopy ▸ htype)
    (hcopy ▸ htree.sized _ hrange htype) name
  rw [hcopy, hwalk.disk] at hlook
  cases hpos : position base.disk (readDinode sb base.disk (fs.inode ip).inum) name with
  | none =>
    rw [hpos] at hlook
    refine Or.inl ⟨?_, hlook⟩
    rw [lookup, hpos, Option.map_none]
  | some k =>
    have hk : k < capacity (readDinode sb base.disk (fs.inode ip).inum) :=
      List.mem_range.mp (List.mem_of_find?_eq_some hpos)
    have hnames := List.find?_some hpos
    rw [decide_eq_true_eq] at hnames
    obtain ⟨halloc, hlinked⟩ := htree.linked _ hrange htype k hk hnames.1
    have hfits : k * sizeofDirent + sizeofDirent ≤
        (readDinode sb base.disk (fs.inode ip).inum).size.toNat := entry_fits hk
    have hinum : direntInum (entry base.disk (readDinode sb base.disk (fs.inode ip).inum) k)
        < sb.ninodes := hentries htype (k * sizeofDirent) (Nat.mul_mod_left _ _) hfits
    obtain ⟨next, fs', hget, hwalk', hnext, hothers⟩ := hwalk.iget hinum (hwalk.room hroom)
    refine Or.inr ⟨next, k * sizeofDirent, fs', ?_, ?_, hwalk', ?_, ?_, ?_⟩
    · rw [hlook, hpos, answer, hcopy, hwalk.disk]
      rw [hget]
      rfl
    · rw [lookup, hpos, hnext]
      rfl
    · exact hothers ip (hsess.ref_pos (Multiset.mem_cons_self ip 0))
    · rw [hnext]
      exact halloc
    · rw [hnext]
      exact hlinked

def held : Option (InodePtr × List Byte) → Multiset InodePtr
  | none => 0
  | some (ip, _) => ip ::ₘ 0

/-- The result is the one that the components of the path name. -/
def Answers (sb : Superblock) (disk : Disk) (parent : Bool) (start : ℕ)
    (names : List (List Byte)) (result : Option (InodePtr × List Byte)) (fs : FsState) :
    Prop :=
  if parent = true then
    result.map (fun found => ((fs.inode found.1).inum, found.2)) = resolveParent sb disk start names
  else result.map (fun found => (fs.inode found.1).inum) = resolve sb disk start names

theorem Answers.fail_type {start : ℕ} {names : List (List Byte)} (fs : FsState)
    (htype : (readDinode sb disk start).type ≠ T_DIR) :
    Answers sb disk parent start (name :: names) none fs := by
  cases parent with
  | false =>
    change none = resolve sb disk start (name :: names)
    rw [resolve, if_neg htype]
  | true =>
    change none = resolveParent sb disk start (name :: names)
    cases names with
    | nil => rw [resolveParent_single, if_neg htype]
    | cons next rest => rw [resolveParent_cons _ _ _ _ (List.cons_ne_nil _ _), if_neg htype]

theorem Answers.step {start : ℕ}
    {names : List (List Byte)} {result : Option (InodePtr × List Byte)}
    (hnames : ¬ (parent = true ∧ names = []))
    (htype : (readDinode sb disk start).type = T_DIR)
    (hlook : match lookup disk (readDinode sb disk start) name with
      | none => result = none
      | some next => Answers sb disk parent next names result fs) :
    Answers sb disk parent start (name :: names) result fs := by
  cases hf : lookup disk (readDinode sb disk start) name with
  | none =>
    rw [hf] at hlook
    subst hlook
    cases parent with
    | false =>
      change none = resolve sb disk start (name :: names)
      rw [resolve, if_pos htype, hf, Option.bind_none]
    | true =>
      change none = resolveParent sb disk start (name :: names)
      rw [resolveParent_cons _ _ _ _ (fun hnil => hnames ⟨rfl, hnil⟩), if_pos htype,
        hf, Option.bind_none]
  | some next =>
    rw [hf] at hlook
    cases parent with
    | false =>
      change _ = resolve sb disk start (name :: names)
      rw [resolve, if_pos htype, hf, Option.bind_some]
      exact hlook
    | true =>
      change _ = resolveParent sb disk start (name :: names)
      rw [resolveParent_cons _ _ _ _ (fun hnil => hnames ⟨rfl, hnil⟩), if_pos htype,
        hf, Option.bind_some]
      exact hlook

/-- The loop returns, also in the model without locks, and leaves no inode locked. -/
def Returns (sb : Superblock) (parent : Bool) (fuel : ℕ) (fs : FsState) (ip : InodePtr)
    (path name : List Byte) (result : Option (InodePtr × List Byte)) (fs' : FsState) :
    Prop :=
  namexLoop sb parent fuel (unlocked fs) ip path name = .ok (result, unlocked fs') ∧
    Directory.namexLoop sb parent fuel fs ip path name = .ok (result, fs')

theorem namexLoop_resolves (htree : Tree sb base.disk) (hroom : Room base) (parent : Bool)
    (fuel : ℕ) : ∀ (fs : FsState) (ip : InodePtr) (path name : List Byte),
      path.length < fuel → Standing sb base fs ip →
      ∃ result fs', Returns sb parent fuel fs ip path name result fs' ∧
        Walk sb base fs' (held result) ∧
        Answers sb base.disk parent (fs.inode ip).inum (elements path) result fs' := by
  induction fuel with
  | zero => exact fun fs ip path name hfuel => absurd hfuel (Nat.not_lt_zero _)
  | succ fuel ih =>
    intro fs ip path name hfuel hstanding
    simp only [Returns]
    rw [namexLoop, Directory.namexLoop]
    cases hskip : skipelem path with
    | none =>
      rw [skipelem_none hskip]
      cases parent with
      | false => exact ⟨some (ip, name), fs, ⟨rfl, rfl⟩, hstanding.walk, rfl⟩
      | true =>
        obtain ⟨fs', hput, hwalk, -⟩ := hstanding.walk.iput hstanding.linked
        refine ⟨none, fs', ?_, hwalk, rfl⟩
        dsimp only
        rw [if_pos rfl, if_pos rfl, iput_unlocked, hput]
        exact ⟨rfl, rfl⟩
    | some found =>
      obtain ⟨element, rest⟩ := found
      obtain ⟨helements, hshorter, hlast⟩ := skipelem_some hskip
      obtain ⟨middle, hlock, hwalk, hsess, hinum⟩ := hstanding.walk.ilock hstanding.allocated
      have href := hsess.ref_pos (Multiset.mem_cons_self ip 0)
      obtain ⟨-, hcopy, -⟩ := hsess.locked_inode (Set.mem_singleton ip)
      rw [hwalk.disk, hinum ip] at hcopy
      have hlinked : 0 < (base.inode ip).ref ∨
          (readDinode sb base.disk (middle.inode ip).inum).nlink ≠ 0 := by
        rw [hinum ip]
        exact hstanding.linked
      rw [helements]
      dsimp only
      rw [ilock_unlocked, hlock, ok_bind, ok_bind]
      dsimp only
      by_cases htype : (middle.inode ip).dinode.type = T_DIR
      · have hdir := htype
        rw [hcopy] at hdir
        rw [if_neg (not_not.mpr htype), if_neg (not_not.mpr htype)]
        by_cases hpar : parent = true ∧ rest = []
        · -- the last component of `nameiparent` is not looked up
          rw [if_pos hpar, if_pos hpar, iunlock_locked href]
          refine ⟨some (ip, element), middle, ⟨rfl, rfl⟩, hwalk, ?_⟩
          obtain ⟨rfl, hrest⟩ := hpar
          rw [hlast.mp hrest]
          change some ((middle.inode ip).inum, element) = _
          rw [resolveParent_single, if_pos hdir, hinum ip]
        · rw [if_neg hpar, if_neg hpar]
          have hnames : ¬ (parent = true ∧ elements rest = []) :=
            fun hnil => hpar ⟨hnil.1, hlast.mpr hnil.2⟩
          rcases dirlookup_walk htree hroom hwalk hsess htype element with
            ⟨hnone, hlook⟩ | ⟨next, off, after, hlook, hnext, hwalk', hsame, hnew⟩
          · obtain ⟨fs', hput, hwalk', -⟩ := hwalk.iput hlinked
            rw [hlook, lockFree, ok_bind, ok_bind]
            refine ⟨none, fs', ?_, hwalk', ?_⟩
            · dsimp only
              rw [iunlockput_locked sb href, hput]
              exact ⟨rfl, rfl⟩
            · refine Answers.step hnames hdir ?_
              rw [hinum ip] at hnone
              rw [hnone]
          · rw [Multiset.cons_swap] at hwalk'
            have href' := hwalk'.session.ref_pos (Multiset.mem_cons_self ip _)
            obtain ⟨fs', hput, hwalk'', hinum'⟩ := hwalk'.iput (by rwa [hsame])
            have hstanding' : Standing sb base fs' next := by
              refine ⟨hwalk'', ?_, Or.inr ?_⟩
              · rw [hinum']
                exact hnew.1
              · rw [hinum']
                exact hnew.2
            obtain ⟨result, last, hloop, hwalk, hanswers⟩ :=
              ih fs' next rest element (by omega) hstanding'
            rw [hlook, lockFree, ok_bind, ok_bind]
            refine ⟨result, last, ?_, hwalk, ?_⟩
            · dsimp only
              rw [iunlockput_locked sb href', hput]
              exact hloop
            · refine Answers.step hnames hdir ?_
              rw [hinum ip] at hnext
              rw [hnext]
              rw [hinum'] at hanswers
              exact hanswers
      · obtain ⟨fs', hput, hwalk', -⟩ := hwalk.iput hlinked
        rw [if_pos htype, if_pos htype, iunlockput_locked sb href, hput]
        refine ⟨none, fs', ⟨rfl, rfl⟩, hwalk', Answers.fail_type fs' ?_⟩
        rw [← hcopy]
        exact htype

def origin (fs : FsState) (cwd : InodePtr) (path : List Byte) : ℕ :=
  if path.head? = some slash then ROOTINO else (fs.inode cwd).inum

theorem namex_resolves (hcons : Consistent True sb fs) (htree : Tree sb fs.disk)
    {cwd : InodePtr} (hcwd : 0 < (fs.inode cwd).ref)
    (hdir : (readDinode sb fs.disk (fs.inode cwd).inum).type = T_DIR)
    (hroom : Room fs) (path : List Byte) (parent : Bool) :
    ∃ result fs', (namex sb (unlocked fs) cwd path parent = .ok (result, unlocked fs') ∧
        Directory.namex sb fs cwd path parent = .ok (result, fs')) ∧ Walk sb fs fs' (held result) ∧
      Answers sb fs.disk parent (origin fs cwd path) (elements path) result fs' := by
  have hstart := Walk.start hcons
  rw [namex, Directory.namex, origin]
  by_cases habsolute : path.head? = some slash
  · have hnil : ∃ slot, (fs.inode slot).ref = 0 := by
      obtain ⟨first, second, -, hfst, -⟩ := hroom
      exact ⟨first, hfst⟩
    obtain ⟨root, middle, hget, hwalk, hinum, -⟩ := hstart.iget htree.rootRange hnil
    have hstanding : Standing sb fs middle root := by
      refine ⟨hwalk, ?_, Or.inr ?_⟩
      · rw [hinum, htree.root.1]
        decide
      · rw [hinum]
        exact htree.root.2
    obtain ⟨result, fs', hloop, hwalk', hanswers⟩ :=
      namexLoop_resolves htree hroom parent _ middle root path [] (Nat.lt_succ_self _) hstanding
    rw [hinum] at hanswers
    rw [if_pos habsolute, if_pos habsolute, if_pos habsolute]
    refine ⟨result, fs', ?_, hwalk', hanswers⟩
    change (lockFree _ (InodeTable.iget fs ROOTINO) >>= _) = _ ∧ _
    rw [hget, lockFree, ok_bind, ok_bind]
    exact hloop
  · have hsame : ((idup fs cwd).inode cwd).inum = (fs.inode cwd).inum := by
      simp [idup, setRef, setInode]
    have hstanding : Standing sb fs (idup fs cwd) cwd := by
      refine ⟨hstart.idup hcwd, ?_, Or.inl hcwd⟩
      rw [hsame, hdir]
      decide
    obtain ⟨result, fs', hloop, hwalk', hanswers⟩ :=
      namexLoop_resolves htree hroom parent _ _ cwd path [] (Nat.lt_succ_self _) hstanding
    rw [hsame] at hanswers
    rw [if_neg habsolute, if_neg habsolute, if_neg habsolute]
    exact ⟨result, fs', hloop, hwalk', hanswers⟩

/-- The references after a call are those before it, and one to the inode returned. -/
structure Leaves (before after : FsState) (result : Option InodePtr) : Prop where
  disk : after.disk = before.disk
  refs : ∀ ip, (after.inode ip).ref = (before.inode ip).ref + if result = some ip then 1 else 0
  kept : ∀ ip, 0 < (before.inode ip).ref → (after.inode ip).inum = (before.inode ip).inum

theorem Walk.leaves {fs' : FsState} {result : Option (InodePtr × List Byte)}
    (hwalk : Walk sb fs fs' (held result)) : Leaves fs fs' (result.map Prod.fst) where
  disk := hwalk.disk
  refs ip := by
    rw [hwalk.refs]
    cases result with
    | none => rfl
    | some found =>
      change _ + Multiset.count ip (found.1 ::ₘ 0) = _
      rw [Multiset.count_cons, Multiset.count_zero, Option.map_some]
      by_cases hip : ip = found.1
      · rw [if_pos hip, if_pos (congrArg some hip.symm)]
      · rw [if_neg hip, if_neg fun hsome => hip (Option.some.inj hsome).symm]
  kept := hwalk.kept

/-- With two unused entries in the inode table, `namei` and `nameiparent` return what
the components of the path name.  No inode stays locked, and the reference counts are
as before except for one more on the inode that is returned. -/
theorem path_resolution (hconsistent : Consistent True sb fs) (htree : Tree sb fs.disk)
    {cwd : InodePtr} (hcwd : 0 < (fs.inode cwd).ref)
    (hdirectory : (readDinode sb fs.disk (fs.inode cwd).inum).type = T_DIR)
    (hroom : Room fs) (path : List Byte) :
    (∃ result fs', namei sb (unlocked fs) cwd path = .ok (result, unlocked fs') ∧
      result.map (fun ip => (fs'.inode ip).inum) =
        resolve sb fs.disk (origin fs cwd path) (elements path) ∧
      Leaves fs fs' result) ∧
    (∃ result fs', nameiparent sb (unlocked fs) cwd path = .ok (result, unlocked fs') ∧
      result.map (fun found => ((fs'.inode found.1).inum, found.2)) =
        resolveParent sb fs.disk (origin fs cwd path) (elements path) ∧
      Leaves fs fs' (result.map Prod.fst)) := by
  constructor
  · obtain ⟨result, fs', ⟨hnamex, -⟩, hwalk, hanswers⟩ :=
      namex_resolves hconsistent htree hcwd hdirectory hroom path false
    refine ⟨result.map Prod.fst, fs', ?_, ?_, hwalk.leaves⟩
    · rw [namei, hnamex]
      rfl
    · rw [Option.map_map]
      exact hanswers
  · obtain ⟨result, fs', ⟨hnamex, -⟩, hwalk, hanswers⟩ :=
      namex_resolves hconsistent htree hcwd hdirectory hroom path true
    exact ⟨result, fs', hnamex, hanswers, hwalk.leaves⟩

end

/-! ## A file system that `mkfs` made -/

section
variable {files : List InputFile} {image : Image}
  (hmade : Made files image) (hinodes : files.length + 1 < Mkfs.NINODES)
include hmade

/-- The entries of the root after those of the files are empty. -/
theorem entry_root (k : ℕ) : entry image.disk (readDinode Mkfs.sb image.disk ROOTINO) k =
    (entries files)[k]?.elim (List.replicate sizeofDirent 0) fun item =>
      encodeDirent item.1 item.2 := by
  rw [entry, Nat.mul_comm]
  cases hitem : (entries files)[k]? with
  | some item => exact built_entry (built_root hmade) hitem
  | none =>
    rw [Option.elim_none, FileContent.fileBytes, List.eq_replicate_iff]
    refine ⟨by rw [List.length_map, List.length_range], fun byte hbyte => ?_⟩
    obtain ⟨index, -, rfl⟩ := List.mem_map.mp hbyte
    have hk := List.getElem?_eq_none_iff.mp hitem
    rw [length_entries] at hk
    rw [(built_root hmade).content, List.getD_eq_default]
    rw [length_rootBytes, Nat.mul_comm, Nat.mul_comm _ k]
    exact (Nat.mul_le_mul_right _ hk).trans (Nat.le_add_right _ _)

include hinodes in
theorem direntInum_root (k : ℕ) :
    direntInum (entry image.disk (readDinode Mkfs.sb image.disk ROOTINO) k) =
      (entries files)[k]?.elim 0 Prod.fst := by
  rw [entry_root hmade]
  cases hitem : (entries files)[k]? with
  | none => decide
  | some item =>
    exact direntInum_encodeDirent (entries_small hinodes item (List.mem_of_getElem? hitem)).2.1 _

/-- Only the root is a directory. -/
theorem eq_root_of_directory {inum : ℕ} (hinum : inum < Mkfs.sb.ninodes)
    (htype : (readDinode Mkfs.sb image.disk inum).type = T_DIR) : inum = ROOTINO := by
  by_contra hroot
  by_cases hused : 0 < inum ∧ inum < files.length + 2
  · rw [(hmade.built inum hused.1 hused.2).type, kindOf, if_neg hroot] at htype
    exact absurd htype (by decide)
  · rw [hmade.free inum hinum (by omega)] at htype
    exact absurd htype (by decide)

include hinodes

theorem intact_image (hboundary : (files.length + 2) % 64 ≠ 0) :
    Intact True Mkfs.sb image.disk where
  layout := hmade.layout
  covered inum hinum htype := by
    obtain ⟨hpos, hcount⟩ := hmade.used hinum htype
    intro position hposition
    refine hmade.blocks hboundary hinodes hpos hcount ?_
    rw [blockCount, BSIZE_eq]
    omega
  entries _ inum hinum htype off halign hfits := by
    obtain rfl := eq_root_of_directory hmade hinum htype
    have hentry := direntInum_root hmade hinodes (off / sizeofDirent)
    rw [entry, Nat.div_mul_cancel (Nat.dvd_of_mod_eq_zero halign)] at hentry
    rw [hentry]
    cases hitem : (entries files)[off / sizeofDirent]? with
    | none => decide
    | some item =>
      exact lt_of_lt_of_le (entries_valid item (List.mem_of_getElem? hitem)).2.1 hinodes

theorem tree_image : Tree Mkfs.sb image.disk where
  rootRange := by decide
  root := by
    rw [(built_root hmade).type, (built_root hmade).nlink]
    decide
  sized inum hinum htype := by
    obtain rfl := eq_root_of_directory hmade hinum htype
    rw [size_root hmade]
    exact (by decide : sizeofDirent ∣ BSIZE).mul_left _
  linked inum hinum htype k _ hused := by
    obtain rfl := eq_root_of_directory hmade hinum htype
    rw [direntInum_root hmade hinodes] at hused ⊢
    cases hitem : (entries files)[k]? with
    | none => exact absurd (by rw [hitem]; rfl) hused
    | some item =>
      obtain ⟨hpos, hlt, -⟩ := entries_valid item (List.mem_of_getElem? hitem)
      have hbuilt := hmade.built item.1 hpos hlt
      rw [Option.elim_some, hbuilt.type, hbuilt.nlink]
      exact ⟨kindOf_ne _, by decide⟩

theorem position_root (hname : 0 ∉ name.take DIRSIZ)
    (hfound : (entries files)[index]? = some found)
    (hmatch : name.take DIRSIZ = found.2.take DIRSIZ)
    (hfirst : ∀ j < index, ∀ item, (entries files)[j]? = some item →
      name.take DIRSIZ ≠ item.2.take DIRSIZ) :
    position image.disk (readDinode Mkfs.sb image.disk ROOTINO) name = some index := by
  have hlen := (List.getElem?_eq_some_iff.mp hfound).1
  rw [length_entries] at hlen
  have hnames : ∀ j item, (entries files)[j]? = some item →
      (Lookup.Names name (entry image.disk (readDinode Mkfs.sb image.disk ROOTINO) j) ↔
        name.take DIRSIZ = item.2.take DIRSIZ) := by
    intro j item hitem
    obtain ⟨hpos, hsmall, hnull⟩ := entries_small hinodes item (List.mem_of_getElem? hitem)
    rw [← names_iff, entry_root hmade, hitem, Option.elim_some, direntInum_encodeDirent hsmall,
      direntName_encodeDirent, namecmpEqual_name hname hnull]
    exact and_iff_right (by omega)
  rw [position, List.find?_range_eq_some, decide_eq_true_eq]
  refine ⟨(hnames index found hfound).mpr hmatch, ?_, fun j hj => ?_⟩
  · rw [List.mem_range, capacity, size_root hmade]
    simp only [sizeofDirent, BSIZE_eq]
    omega
  · have hitem := List.getElem?_eq_getElem (l := entries files) (i := j)
      (by rw [length_entries]; omega)
    rw [Bool.not_eq_true', decide_eq_false_iff_not, hnames j _ hitem]
    exact hfirst j hj _ hitem

theorem lookup_root (hname : 0 ∉ name.take DIRSIZ)
    (hfound : (entries files)[index]? = some found)
    (hmatch : name.take DIRSIZ = found.2.take DIRSIZ)
    (hfirst : ∀ j < index, ∀ item, (entries files)[j]? = some item →
      name.take DIRSIZ ≠ item.2.take DIRSIZ) :
    lookup image.disk (readDinode Mkfs.sb image.disk ROOTINO) name = some found.1 := by
  rw [lookup, position_root hmade hinodes hname hfound hmatch hfirst, Option.map_some,
    direntInum_root hmade hinodes, hfound, Option.elim_some]

end

theorem mountedAt_ref {ip : InodePtr}
    (href : 0 < ((mountedAt image).inode ip).ref) : ip = rootSlot := by
  by_contra hip
  simp [mountedAt, hip] at href

theorem consistent_mountedAt (hmade : Made oneFile image) :
    Consistent True Mkfs.sb (mountedAt image) where
  intact := intact_image hmade oneFile_fits.inodes (by decide)
  inRange ip href := by
    rw [mountedAt_ref href]
    exact (by decide : ROOTINO < Mkfs.sb.ninodes)
  coherent ip href _ := by
    obtain rfl := mountedAt_ref href
    refine ⟨rfl, ?_⟩
    change (readDinode Mkfs.sb image.disk ROOTINO).type ≠ 0
    rw [(built_root hmade).type]
    exact kindOf_ne _
  distinct ip other hleft hright _ := by
    rw [mountedAt_ref hleft, mountedAt_ref hright]

theorem lookup_dots (hmade : Made oneFile image) :
    lookup image.disk (readDinode Mkfs.sb image.disk ROOTINO) [dot, dot] = some ROOTINO := by
  refine lookup_root hmade oneFile_fits.inodes (by decide)
    (show (entries oneFile)[1]? = some (ROOTINO, [dot, dot]) from rfl) rfl ?_
  intro j hj item hitem
  obtain rfl : j = 0 := by omega
  obtain rfl := Option.some.inj hitem
  decide

theorem lookup_cat (hmade : Made oneFile image) :
    lookup image.disk (readDinode Mkfs.sb image.disk ROOTINO) [0x63, 0x61, 0x74] = some 2 :=
  lookup_root hmade oneFile_fits.inodes (by decide) (entries_file rfl) (by decide)
    (entries_before oneFile_names rfl (by decide))

/-- `/../cat` on the image of one file. -/
theorem path_resolution_cat : ∃ image, mkfs oneFile = .ok image ∧
    Consistent True Mkfs.sb (mountedAt image) ∧ Tree Mkfs.sb image.disk ∧ Room (mountedAt image) ∧
    ∃ ip fs', namei Mkfs.sb (unlocked (mountedAt image)) rootSlot
        [slash, dot, dot, slash, 0x63, 0x61, 0x74] = .ok (some ip, unlocked fs') ∧
      (fs'.inode ip).inum = 2 := by
  obtain ⟨image, hmkfs, hmade⟩ := mkfs_spec oneFile_fits
  have hcons := consistent_mountedAt hmade
  have htree := tree_image hmade oneFile_fits.inodes
  have hroom : Room (mountedAt image) := ⟨⟨1, by decide⟩, ⟨2, by decide⟩, by decide, rfl, rfl⟩
  obtain ⟨⟨result, fs', hnamei, hresult, -⟩, -⟩ := path_resolution hcons htree
    (show 0 < ((mountedAt image).inode rootSlot).ref from Nat.one_pos) htree.root.1 hroom
    [slash, dot, dot, slash, 0x63, 0x61, 0x74]
  have hcat : resolve Mkfs.sb image.disk ROOTINO [[dot, dot], [0x63, 0x61, 0x74]] = some 2 := by
    rw [resolve, if_pos htree.root.1, lookup_dots hmade, Option.bind_some, resolve,
      if_pos htree.root.1, lookup_cat hmade]
    rfl
  obtain ⟨ip, rfl, hip⟩ := Option.map_eq_some_iff.mp (hresult.trans hcat)
  exact ⟨image, hmkfs, hcons, htree, hroom, ip, fs', hnamei, hip⟩

/-! ## A full inode table -/

theorem letter_noNull (i : Fin NINODE) : (0 : Byte) ∉ [BitVec.ofNat 8 (0x61 + i)] := by
  revert i
  decide

/-- As many empty files as the inode table has entries, with names of one byte. -/
def fiftyFiles : List InputFile :=
  (List.finRange NINODE).map fun i : Fin NINODE =>
    ⟨[BitVec.ofNat 8 (0x61 + i)], [], letter_noNull i⟩

theorem fiftyFiles_fits : Fits fiftyFiles := by
  refine ⟨?_, ?_, by decide, by decide⟩ <;>
  · rw [fiftyFiles, List.forall_mem_map]
    intro i _
    revert i
    decide

theorem fiftyFiles_names : MkfsReadBack.Names fiftyFiles := by
  refine ⟨?_, ?_, by decide⟩ <;>
  · rw [fiftyFiles, List.forall_mem_map]
    intro i _
    revert i
    decide

/-- The inode table holds the root and the first 49 files. -/
def fullTable (image : Image) : FsState where
  disk := image.disk
  inode ip := ⟨ip + 1, 1, true, readDinode Mkfs.sb image.disk (ip + 1)⟩

theorem consistent_fullTable (hmade : Made fiftyFiles image) :
    Consistent True Mkfs.sb (fullTable image) where
  intact := intact_image hmade fiftyFiles_fits.inodes (by decide)
  inRange ip _ := by
    have hip := ip.isLt
    simp only [NINODE] at hip
    simp only [fullTable, Mkfs.ninodes_eq]
    omega
  coherent ip _ _ := by
    have hip : (ip : ℕ) + 1 < fiftyFiles.length + 2 := by
      have hip := ip.isLt
      rw [fiftyFiles, List.length_map, List.length_finRange]
      exact Nat.succ_lt_succ (Nat.lt_succ_of_lt hip)
    refine ⟨rfl, ?_⟩
    change (readDinode Mkfs.sb image.disk (ip + 1)).type ≠ 0
    rw [(hmade.built _ (Nat.succ_pos _) hip).type]
    exact kindOf_ne _
  distinct ip other _ _ hsame := Fin.ext (Nat.add_right_cancel hsame)

/-- The root is in the table, but looking up the fiftieth file needs one more entry. -/
theorem namei_panics_on_a_full_table : ∃ image, mkfs fiftyFiles = .ok image ∧
    Consistent True Mkfs.sb (fullTable image) ∧ Tree Mkfs.sb image.disk ∧
    ((fullTable image).inode rootSlot).inum = ROOTINO ∧
    namei Mkfs.sb (unlocked (fullTable image)) rootSlot [slash, 0x92] =
      .error (.panic .iget) := by
  obtain ⟨image, hmkfs, hmade⟩ := mkfs_spec fiftyFiles_fits
  have hcons := consistent_fullTable hmade
  have htree := tree_image hmade fiftyFiles_fits.inodes
  refine ⟨image, hmkfs, hcons, htree, rfl, ?_⟩
  have hlast : fiftyFiles[49]? = some ⟨[0x92], [], letter_noNull ⟨49, by decide⟩⟩ := rfl
  have hpos : position image.disk (readDinode Mkfs.sb image.disk ROOTINO) [0x92] = some 51 :=
    position_root hmade fiftyFiles_fits.inodes (by decide) (entries_file hlast) (by decide)
      (entries_before fiftyFiles_names hlast (by decide))
  have hinum : direntInum (entry image.disk (readDinode Mkfs.sb image.disk ROOTINO) 51) = 51 := by
    rw [direntInum_root hmade fiftyFiles_fits.inodes, entries_file hlast]
    rfl
  let fs := setRef (fullTable image) rootSlot 2
  have hsess : Session True Mkfs.sb fs (rootSlot ::ₘ 0) {rootSlot} := by
    have hget := iget_spec hcons.session htree.rootRange
    exact (Session.toConsistent hget).lock ⟨Nat.two_pos, rfl⟩
  have hlook : dirlookup Mkfs.sb fs rootSlot [0x92] = .error .iget := by
    rw [dirlookup_eq hsess (Set.mem_singleton _) htree.root.1
      (htree.sized _ htree.rootRange htree.root.1)]
    rw [show position fs.disk (fs.inode rootSlot).dinode [0x92] = some 51 from hpos, answer,
      show direntInum (entry fs.disk (fs.inode rootSlot).dinode 51) = 51 from hinum]
    rfl
  have hroot : namex Mkfs.sb (unlocked (fullTable image)) rootSlot [slash, 0x92] false =
      namexLoop Mkfs.sb false 3 (unlocked fs) rootSlot [slash, 0x92] [] := rfl
  have hlock : ilock Mkfs.sb (unlocked fs) rootSlot =
      .ok ⟨fs, update (fun _ => false) rootSlot true⟩ := rfl
  rw [namei, hroot, namexLoop, show skipelem [slash, 0x92] = some ([0x92], []) from rfl]
  dsimp only
  have htype : (fs.inode rootSlot).dinode.type = T_DIR := htree.root.1
  rw [hlock, ok_bind, if_neg (not_not.mpr htype), if_neg (by decide), hlook]
  rfl

end Xv6.PathWalk
