import Xv6.Fs.BlockRuns

/-!
# Directory lookup

A directory is an array of entries.  `dirlookup` returns the first entry in use
whose name agrees with the given one, where names are compared on their first
`DIRSIZ` bytes up to a null.
-/

namespace Xv6.Lookup

open LittleEndian DiskLog DiskFormat FileContent ReadWrite InodeTable InodeSession Directory Outcome

variable {dinode : Dinode} {k : ℕ}

def entry (disk : Disk) (dinode : Dinode) (k : ℕ) : List Byte :=
  fileBytes disk dinode (k * sizeofDirent) sizeofDirent

def capacity (dinode : Dinode) : ℕ := dinode.size.toNat / sizeofDirent

theorem entry_fits (hk : k < capacity dinode) :
    k * sizeofDirent + sizeofDirent ≤ dinode.size.toNat :=
  calc k * sizeofDirent + sizeofDirent = (k + 1) * sizeofDirent := (Nat.succ_mul _ _).symm
    _ ≤ dinode.size.toNat / sizeofDirent * sizeofDirent := Nat.mul_le_mul_right _ hk
    _ ≤ dinode.size.toNat := Nat.div_mul_le_self _ _

def Names (name de : List Byte) : Prop := direntInum de ≠ 0 ∧ clip (direntName de) = clip name

instance (name de : List Byte) : Decidable (Names name de) := inferInstanceAs (Decidable (_ ∧ _))

def position (disk : Disk) (dinode : Dinode) (name : List Byte) : Option ℕ :=
  (List.range (capacity dinode)).find? fun k => decide (Names name (entry disk dinode k))

def lookup (disk : Disk) (dinode : Dinode) (name : List Byte) : Option ℕ :=
  (position disk dinode name).map fun k => direntInum (entry disk dinode k)

theorem names_iff (name de : List Byte) :
    (direntInum de ≠ 0 ∧ namecmpEqual name (direntName de) = true) ↔ Names name de := by
  rw [namecmpEqual_iff, Names, @eq_comm _ (clip name)]

theorem readCount_whole {off n : ℕ}
    (hfits : off + n ≤ dinode.size.toNat) : readCount dinode off n = n := by
  have hsize := dinode.size.isLt
  rw [readCount, Nat.mod_eq_of_lt (by omega), if_neg (by omega), if_neg (by omega)]

section
variable {sb : Superblock} {fs : FsState} {pins : Multiset InodePtr}
  {locked : Set InodePtr} {dp : InodePtr}

theorem readInode_entry (hsess : Session True sb fs pins locked) (hdp : dp ∈ locked)
    (hk : k < capacity (fs.inode dp).dinode) :
    readInode sb fs dp (k * sizeofDirent) sizeofDirent =
      .ok ((sizeofDirent : ℤ), entry fs.disk (fs.inode dp).dinode k, fs) := by
  rw [readInode_eq hsess hdp (by decide), readCount_whole (entry_fits hk)]
  rfl

/-- What `dirlookup` returns for the index of an entry. -/
def answer (fs : FsState) (dp : InodePtr) :
    Option ℕ → Except Panic (Option (InodePtr × ℕ) × FsState)
  | none => .ok (none, fs)
  | some k => do
    let (ip, fs') ← iget fs (direntInum (entry fs.disk (fs.inode dp).dinode k))
    return (some (ip, k * sizeofDirent), fs')

theorem dirlookupLoop_eq (hsess : Session True sb fs pins locked) (hdp : dp ∈ locked)
    (name : List Byte) (steps : ℕ) : ∀ k, k + steps = capacity (fs.inode dp).dinode →
      dirlookupLoop sb dp name steps fs (k * sizeofDirent) =
        answer fs dp ((List.range' k steps).find? fun k =>
          decide (Names name (entry fs.disk (fs.inode dp).dinode k))) := by
  induction steps with
  | zero => exact fun k _ => rfl
  | succ steps ih =>
    intro k hk
    rw [dirlookupLoop, readInode_entry hsess hdp (by omega), ok_bind]
    dsimp only
    rw [if_neg (by simp), List.range'_succ, List.find?_cons]
    by_cases hnames : Names name (entry fs.disk (fs.inode dp).dinode k)
    · rw [if_pos ((names_iff _ _).mpr hnames), decide_eq_true hnames]
      rfl
    · rw [if_neg (mt (names_iff _ _).mp hnames), decide_eq_false hnames, ← Nat.succ_mul]
      exact ih (k + 1) (by omega)

theorem direntSteps_zero (hsized : sizeofDirent ∣ dinode.size.toNat) :
    direntSteps 0 dinode.size.toNat = capacity dinode := by
  obtain ⟨count, hcount⟩ := hsized
  rw [direntSteps, capacity, hcount, sizeofDirent]
  omega

theorem dirlookup_eq (hsess : Session True sb fs pins locked) (hdp : dp ∈ locked)
    (htype : (fs.inode dp).dinode.type = T_DIR)
    (hsized : sizeofDirent ∣ (fs.inode dp).dinode.size.toNat) (name : List Byte) :
    dirlookup sb fs dp name = answer fs dp (position fs.disk (fs.inode dp).dinode name) := by
  have hloop := dirlookupLoop_eq hsess hdp name _ 0 (Nat.zero_add _)
  rw [Nat.zero_mul, ← List.range_eq_range'] at hloop
  rw [dirlookup, if_neg (not_not.mpr htype), direntSteps_zero hsized]
  exact hloop

end

end Xv6.Lookup
