import Xv6.Fs.FileSystem

/-!
# Using the inode table

A system call works on the inode table with pointers that it holds: `pins` lists
them with their multiplicity, and the reference counts are at least that large.
A locked inode is pinned and valid, so its copy is the inode on the disk.
Every function of the table either fails with a panic other than "freeing free
block", or leaves such a session.
-/

namespace Xv6.InodeSession

open LittleEndian DiskLog DiskFormat InodeContent BlockOwnership FileContent ReadWrite FileSystem
open InodeTable Directory Outcome Function

variable {disk : Disk} {inode : Inode} {inum off n : ℕ} {dinode : Dinode}

def FreesFree (panic : Panic) : Prop := panic = .freeingFreeBlock

/-- The invariant of the file system between system calls. -/
structure Consistent (walk : Prop) (sb : Superblock) (fs : FsState) : Prop where
  intact : Intact walk sb fs.disk
  inRange : ∀ ip, 0 < (fs.inode ip).ref → (fs.inode ip).inum < sb.ninodes
  coherent : ∀ ip, 0 < (fs.inode ip).ref → (fs.inode ip).valid = true →
    (fs.inode ip).dinode = readDinode sb fs.disk (fs.inode ip).inum ∧ (fs.inode ip).dinode.type ≠ 0
  distinct : ∀ ip other, 0 < (fs.inode ip).ref → 0 < (fs.inode other).ref →
    (fs.inode ip).inum = (fs.inode other).inum → ip = other

structure Session (walk : Prop) (sb : Superblock) (fs : FsState) (pins : Multiset InodePtr)
    (locked : Set InodePtr) : Prop extends Consistent walk sb fs where
  pinned : ∀ ip, pins.count ip ≤ (fs.inode ip).ref
  valid : ∀ ip ∈ locked, ip ∈ pins ∧ (fs.inode ip).valid = true

section
variable {walk : Prop} {sb : Superblock} {fs : FsState} {pins : Multiset InodePtr}
  {locked : Set InodePtr} {ip : InodePtr}

theorem Consistent.session (hcons : Consistent walk sb fs) : Session walk sb fs 0 ∅ where
  toConsistent := hcons
  pinned _ := by simp
  valid _ hip := hip.elim

theorem Consistent.walkable (hcons : Consistent walk sb fs) (hwalkable : Walkable sb fs.disk) :
    Consistent True sb fs :=
  { hcons with intact := { hcons.intact with entries := fun _ => hwalkable } }

theorem Consistent.mono (hcons : Consistent True sb fs) : Consistent walk sb fs :=
  { hcons with intact := { hcons.intact with entries := fun _ => hcons.intact.entries trivial } }

theorem Consistent.pin (hcons : Consistent walk sb fs) (href : 0 < (fs.inode ip).ref) :
    Session walk sb fs (ip ::ₘ 0) ∅ where
  toConsistent := hcons
  pinned other := by
    rw [Multiset.count_cons, Multiset.count_zero]
    split
    case isTrue hsame =>
      subst hsame
      exact href
    case isFalse => exact Nat.zero_le _
  valid _ ho := ho.elim

theorem Consistent.lock (hcons : Consistent walk sb fs)
    (hip : 0 < (fs.inode ip).ref ∧ (fs.inode ip).valid = true) :
    Session walk sb fs (ip ::ₘ 0) {ip} where
  toConsistent := hcons
  pinned := (hcons.pin hip.1).pinned
  valid other ho := by
    rw [Set.mem_singleton_iff] at ho
    subst ho
    exact ⟨Multiset.mem_cons_self other 0, hip.2⟩

theorem Session.ref_pos (hsess : Session walk sb fs pins locked)
    (hip : ip ∈ pins) : 0 < (fs.inode ip).ref :=
  (Multiset.count_pos.mpr hip).trans_le (hsess.pinned ip)

theorem Session.mono {fewer : Multiset InodePtr} {some : Set InodePtr}
    (hsess : Session walk sb fs pins locked) (hpins : fewer ≤ pins)
    (hlock : ∀ ip ∈ some, ip ∈ locked ∧ ip ∈ fewer) :
    Session walk sb fs fewer some where
  toConsistent := hsess.toConsistent
  pinned other := (Multiset.count_le_of_le other hpins).trans (hsess.pinned other)
  valid other ho := ⟨(hlock other ho).2, (hsess.valid other (hlock other ho).1).2⟩

theorem Session.locked_inode (hsess : Session walk sb fs pins locked) (hip : ip ∈ locked) :
    (fs.inode ip).inum < sb.ninodes ∧
      (fs.inode ip).dinode = readDinode sb fs.disk (fs.inode ip).inum ∧
      (fs.inode ip).dinode.type ≠ 0 := by
  obtain ⟨hpin, hval⟩ := hsess.valid ip hip
  have href := hsess.ref_pos hpin
  exact ⟨hsess.inRange ip href, hsess.coherent ip href hval⟩

/-! ## References -/

/-- One entry of the table is replaced, and the inodes of the others are kept on the
disk. -/
theorem Session.replace (hsess : Session walk sb fs pins locked)
    {pins' : Multiset InodePtr} {locked' : Set InodePtr} (hintact : Intact walk sb disk)
    (hread : ∀ other, other ≠ ip → 0 < (fs.inode other).ref →
      readDinode sb disk (fs.inode other).inum = readDinode sb fs.disk (fs.inode other).inum)
    (he : 0 < inode.ref → inode.inum < sb.ninodes ∧ (inode.valid = true →
        inode.dinode = readDinode sb disk inode.inum ∧ inode.dinode.type ≠ 0) ∧
      ∀ other, other ≠ ip → 0 < (fs.inode other).ref → (fs.inode other).inum ≠ inode.inum)
    (hself : pins'.count ip ≤ inode.ref)
    (hpins : ∀ other, other ≠ ip → pins'.count other ≤ pins.count other)
    (hlock : ∀ other ∈ locked', other ∈ pins' ∧
      (other = ip → inode.valid = true) ∧ (other ≠ ip → other ∈ locked)) :
    Session walk sb (setInode { fs with disk := disk } ip inode) pins' locked' := by
  have hat : (setInode { fs with disk := disk } ip inode).inode ip = inode := update_self _ _ _
  have hothers : ∀ other, other ≠ ip →
      (setInode { fs with disk := disk } ip inode).inode other = fs.inode other :=
    fun other ho => update_of_ne ho _ _
  constructor
  case toConsistent =>
    constructor
    case intact => exact hintact
    case inRange =>
      intro other href
      by_cases ho : other = ip
      · subst ho
        rw [hat] at href ⊢
        exact (he href).1
      · rw [hothers other ho] at href ⊢
        exact hsess.inRange other href
    case coherent =>
      intro other href hval
      by_cases ho : other = ip
      · subst ho
        rw [hat] at href hval ⊢
        exact (he href).2.1 hval
      · rw [hothers other ho] at href hval ⊢
        change _ = readDinode sb disk _ ∧ _
        rw [hread other ho href]
        exact hsess.coherent other href hval
    case distinct =>
      intro left right hleft hright heq
      by_cases hl : left = ip
      · by_cases hr : right = ip
        · rw [hl, hr]
        · subst hl
          rw [hothers right hr] at hright heq
          rw [hat] at hleft heq
          exact absurd heq.symm ((he hleft).2.2 right hr hright)
      · rw [hothers left hl] at hleft heq
        by_cases hr : right = ip
        · subst hr
          rw [hat] at hright heq
          exact absurd heq ((he hright).2.2 left hl hleft)
        · rw [hothers right hr] at hright heq
          exact hsess.distinct left right hleft hright heq
  case pinned =>
    intro other
    by_cases ho : other = ip
    · subst ho
      rw [hat]
      exact hself
    · rw [hothers other ho]
      exact (hpins other ho).trans (hsess.pinned other)
  case valid =>
    intro other ho
    obtain ⟨hpin, hval, hbefore⟩ := hlock other ho
    refine ⟨hpin, ?_⟩
    by_cases heq : other = ip
    · subst heq
      rw [hat]
      exact hval rfl
    · rw [hothers other heq]
      exact (hsess.valid other (hbefore heq)).2

theorem Session.apart (hsess : Session walk sb fs pins locked)
    (href : 0 < (fs.inode ip).ref) : ∀ other, other ≠ ip → 0 < (fs.inode other).ref →
      (fs.inode other).inum ≠ (fs.inode ip).inum :=
  fun other ho hused heq => ho (hsess.distinct other ip hused href heq)

theorem Session.addRef (hsess : Session walk sb fs pins locked) (href : 0 < (fs.inode ip).ref) :
    Session walk sb (setRef fs ip ((fs.inode ip).ref + 1)) (ip ::ₘ pins) locked := by
  refine hsess.replace hsess.intact (fun _ _ _ => rfl) (fun _ => ⟨hsess.inRange ip href,
    hsess.coherent ip href, hsess.apart href⟩) ?_ (fun other ho => ?_)
    fun other ho => ?_
  · rw [Multiset.count_cons_self]
    exact Nat.succ_le_succ (hsess.pinned ip)
  · rw [Multiset.count_cons_of_ne ho]
  · obtain ⟨hpin, hval⟩ := hsess.valid other ho
    exact ⟨Multiset.mem_cons_of_mem hpin, fun heq => heq ▸ hval, fun _ => ho⟩

theorem idup_spec (hsess : Session walk sb fs pins locked) (href : 0 < (fs.inode ip).ref) :
    Session walk sb (idup fs ip) (ip ::ₘ pins) locked :=
  hsess.addRef href

theorem freesFree_balloc : ¬ FreesFree .balloc := by
  intro h
  cases h

theorem freesFree_bmap : ¬ FreesFree .bmap := by
  intro h
  cases h

theorem Session.fill (hsess : Session walk sb fs pins locked)
    (hinum : inum < sb.ninodes) (hnil : (fs.inode ip).ref = 0)
    (habsent : ∀ other, 0 < (fs.inode other).ref → (fs.inode other).inum ≠ inum) :
    Session walk sb (setInode fs ip
      { fs.inode ip with inum := inum, ref := 1, valid := false }) (ip ::ₘ pins)
        locked := by
  have hnotPinned : ip ∉ pins := fun hip => by
    have href := hsess.ref_pos hip
    omega
  refine hsess.replace hsess.intact (fun _ _ _ => rfl) (fun _ => ⟨hinum, ?_,
    fun other _ hused => habsent other hused⟩) ?_ (fun other ho => ?_)
    fun other ho => ?_
  · intro hval
    cases hval
  · rw [Multiset.count_cons_self, Multiset.count_eq_zero_of_notMem hnotPinned]
  · rw [Multiset.count_cons_of_ne ho]
  · have hpin := (hsess.valid other ho).1
    refine ⟨Multiset.mem_cons_of_mem hpin, fun heq => ?_, fun _ => ho⟩
    exact absurd (heq ▸ hpin) hnotPinned

theorem iget_spec (hsess : Session walk sb fs pins locked) (hinum : inum < sb.ninodes) :
    Avoids FreesFree (iget fs inum) fun result =>
      Session walk sb result.2 (result.1 ::ₘ pins) locked := by
  unfold iget
  split
  case h_1 ip hfind =>
    have hf := List.find?_some hfind
    rw [decide_eq_true_eq] at hf
    exact hsess.addRef hf.1
  case h_2 hnone =>
    split
    case h_1 => exact Avoids.error (by intro h; cases h)
    case h_2 empty hfind =>
      have hnil := List.find?_some hfind
      rw [decide_eq_true_eq] at hnil
      refine hsess.fill hinum hnil fun other href heq => ?_
      have hnot := List.find?_eq_none.mp hnone other (List.mem_finRange other)
      rw [decide_eq_true_eq] at hnot
      exact hnot ⟨href, heq⟩

theorem Session.setContent (hsess : Session walk sb fs pins locked) (hip : ip ∈ locked)
    (hintact : Intact walk sb disk) (htype : dinode.type ≠ 0)
    (hread : ∀ other < sb.ninodes, readDinode sb disk other =
      update (readDinode sb fs.disk) (fs.inode ip).inum dinode other) :
    Session walk sb (setContent fs ip disk dinode) pins locked := by
  obtain ⟨hpin, hval⟩ := hsess.valid ip hip
  have href := hsess.ref_pos hpin
  have hrange := hsess.inRange ip href
  refine hsess.replace hintact (fun other ho hused => ?_) (fun _ => ⟨hrange,
    fun _ => ⟨?_, htype⟩, hsess.apart href⟩) (hsess.pinned ip) (fun _ _ => le_rfl)
    fun other ho => ⟨(hsess.valid other ho).1, fun _ => hval, fun _ => ho⟩
  · rw [hread _ (hsess.inRange other hused), update_of_ne (hsess.apart href other ho hused)]
  · change dinode = readDinode sb disk (fs.inode ip).inum
    rw [hread _ hrange, update_self]

theorem Session.load (hsess : Session walk sb fs pins locked) (hip : ip ∈ pins)
    (hinum : inode.inum = (fs.inode ip).inum)
    (href : inode.ref = (fs.inode ip).ref) (hval : inode.valid = true)
    (hcopy : inode.dinode = readDinode sb fs.disk (fs.inode ip).inum)
    (htype : inode.dinode.type ≠ 0) :
    Session walk sb (setInode fs ip inode) pins (insert ip locked) := by
  have hused := hsess.ref_pos hip
  refine hsess.replace hsess.intact (fun _ _ _ => rfl) (fun _ => ?_)
    (href ▸ hsess.pinned ip) (fun _ _ => le_rfl) fun other ho => ?_
  · rw [hinum]
    exact ⟨hsess.inRange ip hused, fun _ => ⟨hcopy, htype⟩, hsess.apart hused⟩
  · by_cases heq : other = ip
    · exact ⟨heq ▸ hip, fun _ => hval, fun hne => absurd heq hne⟩
    · have hlock := ho.resolve_left heq
      exact ⟨(hsess.valid other hlock).1, fun _ => hval, fun _ => hlock⟩

theorem ilock_spec (hsess : Session walk sb fs pins locked) (hip : ip ∈ pins) :
    Avoids FreesFree (ilock sb fs ip) fun fs' =>
      Session walk sb fs' pins (insert ip locked) := by
  have href := hsess.ref_pos hip
  rw [ilock, if_neg (by omega)]
  by_cases hval : (fs.inode ip).valid = true
  · rw [if_pos hval]
    refine Avoids.ok ⟨hsess.toConsistent, hsess.pinned, fun other ho => ?_⟩
    rcases ho with rfl | ho
    · exact ⟨hip, hval⟩
    · exact hsess.valid other ho
  · rw [if_neg hval]
    dsimp only
    by_cases htype : (readDinode sb fs.disk (fs.inode ip).inum).type = 0
    · rw [if_pos htype]
      exact Avoids.error (by intro h; cases h)
    · rw [if_neg htype]
      exact Avoids.ok (hsess.load hip rfl rfl rfl rfl htype)

/-! ## Dropping a reference -/

theorem Session.dropRef (hsess : Session walk sb fs pins locked) (hip : ip ∈ pins)
    {rest : Set InodePtr} (hrest : ∀ other ∈ rest, other ∈ locked ∧ other ∈ pins.erase ip) :
    Session walk sb (setRef fs ip ((fs.inode ip).ref - 1)) (pins.erase ip) rest := by
  have href := hsess.ref_pos hip
  refine hsess.replace hsess.intact (fun _ _ _ => rfl) (fun _ => ⟨hsess.inRange ip href,
    hsess.coherent ip href, hsess.apart href⟩) ?_ (fun other ho => ?_)
    fun other ho => ?_
  · rw [Multiset.count_erase_self]
    exact Nat.sub_le_sub_right (hsess.pinned ip) 1
  · rw [Multiset.count_erase_of_ne ho]
  · obtain ⟨hlock, hpin⟩ := hrest other ho
    exact ⟨hpin, fun heq => heq ▸ (hsess.valid other hlock).2, fun _ => hlock⟩

theorem Session.free (hsess : Session walk sb fs pins locked)
    (hlast : (fs.inode ip).ref = 1) {disk : Disk} {dinode : Dinode} (hintact : Intact walk sb disk)
    (hread : ∀ other < sb.ninodes, other ≠ (fs.inode ip).inum →
      readDinode sb disk other = readDinode sb fs.disk other)
    {rest : Set InodePtr} (hrest : ∀ other ∈ rest, other ∈ locked ∧ other ∈ pins.erase ip) :
    Session walk sb (setInode { fs with disk := disk } ip
        { fs.inode ip with dinode := dinode, valid := false, ref := 0 }) (pins.erase ip)
        rest := by
  have hgone : ip ∉ pins.erase ip := by
    rw [← Multiset.count_eq_zero, Multiset.count_erase_self]
    have hpinned := hsess.pinned ip
    omega
  refine hsess.replace hintact (fun other ho hused => ?_)
    (fun href => absurd href (Nat.lt_irrefl 0)) ?_ (fun other ho => ?_)
    fun other ho => ?_
  · exact hread _ (hsess.inRange other hused) (hsess.apart (by omega) other ho hused)
  · rw [Multiset.count_eq_zero_of_notMem hgone]
  · rw [Multiset.count_erase_of_ne ho]
  · obtain ⟨hlock, hpin⟩ := hrest other ho
    exact ⟨hpin, fun heq => absurd (heq ▸ hpin) hgone, fun _ => hlock⟩

theorem iput_spec (hsess : Session walk sb fs pins locked) (hip : ip ∈ pins)
    {rest : Set InodePtr} (hrest : ∀ other ∈ rest, other ∈ locked ∧ other ∈ pins.erase ip) :
    Avoids FreesFree (iput sb fs ip) fun fs' =>
      Session walk sb fs' (pins.erase ip) rest := by
  have href := hsess.ref_pos hip
  have hrange := hsess.inRange ip href
  unfold iput
  dsimp only
  split
  case isFalse => exact Avoids.ok (hsess.dropRef hip hrest)
  case isTrue hlast =>
    obtain ⟨hone, hval, -⟩ := hlast
    obtain ⟨hcopy, htype⟩ := hsess.coherent ip href hval
    rw [hcopy] at htype ⊢
    obtain ⟨disk, htrunc, hintact, hread⟩ := hsess.intact.itrunc hrange htype
    rw [htrunc, ok_bind]
    dsimp only
    have hself := hread _ hrange
    rw [update_self] at hself
    refine Avoids.ok (hsess.free hone ?_ ?_ hrest)
    · refine hintact.replaceEmpty hrange (fun slot => ?_) rfl rfl
      rw [held]
      split
      · dsimp only
        rw [hself]
        exact inodeSlot_zero rfl slot
      · rfl
    · intro other ho hne
      rw [readDinode_iupdate (fun _ _ => rfl) ho, update_of_ne hne,
        hread other ho, update_of_ne hne]

/-! ## Changing an inode -/

theorem Session.writeFree (hsess : Session walk sb fs pins locked)
    (hinum : inum < sb.ninodes) (hfree : (readDinode sb fs.disk inum).type = 0)
    (haddrs : dinode.addrs = fun _ => 0) (hsize : dinode.size = 0) :
    Session walk sb { fs with disk := writeDinode sb fs.disk inum dinode } pins locked := by
  refine ⟨⟨?_, hsess.inRange, fun ip href hval => ?_, hsess.distinct⟩, hsess.pinned, hsess.valid⟩
  · refine hsess.intact.replaceEmpty hinum (fun slot => ?_) haddrs hsize
    rw [held, if_neg]
    exact fun halloc => halloc.2 hfree
  · obtain ⟨hcopy, htype⟩ := hsess.coherent ip href hval
    have hne : (fs.inode ip).inum ≠ inum := by
      intro hsame
      rw [hcopy, hsame] at htype
      exact htype hfree
    have hread : readDinode sb (iupdate sb fs.disk inum dinode) (fs.inode ip).inum =
        update (readDinode sb fs.disk) inum dinode (fs.inode ip).inum :=
      readDinode_iupdate (fun _ _ => rfl) (hsess.inRange ip href)
    rw [update_of_ne hne] at hread
    exact ⟨hcopy.trans hread.symm, htype⟩

theorem updateInode_spec (hsess : Session walk sb fs pins locked) (hip : ip ∈ locked)
    {dinode : Dinode} (htype : dinode.type = (fs.inode ip).dinode.type)
    (hsize : dinode.size = (fs.inode ip).dinode.size)
    (haddrs : dinode.addrs = (fs.inode ip).dinode.addrs) :
    Session walk sb (updateInode sb fs ip dinode) pins locked := by
  obtain ⟨hrange, hcopy, halloc⟩ := hsess.locked_inode hip
  refine hsess.setContent hip (hsess.intact.setFields hrange ?_ ?_ ?_)
    (by rw [htype]; exact halloc)
    fun other ho => readDinode_iupdate (fun _ _ => rfl) ho
  · rw [htype, hcopy]
  · rw [hsize, hcopy]
  · rw [haddrs, hcopy]

theorem setContent_same (fs : FsState) (ip : InodePtr) :
    setContent fs ip fs.disk (fs.inode ip).dinode = fs := by
  have hsame : update fs.inode ip (fs.inode ip) = fs.inode := update_eq_self _ _
  change { fs with inode := update fs.inode ip (fs.inode ip) } = fs
  rw [hsame]

theorem readInode_eq (hsess : Session walk sb fs pins locked) (hip : ip ∈ locked)
    (hn : n < 2 ^ 32) :
    readInode sb fs ip off n = .ok ((readCount (fs.inode ip).dinode off n : ℤ),
        fileBytes fs.disk (fs.inode ip).dinode off (readCount (fs.inode ip).dinode off n), fs) := by
  obtain ⟨hrange, hcopy, halloc⟩ := hsess.locked_inode hip
  have hcovered : Covered fs.disk (fs.inode ip).dinode := by
    rw [hcopy] at halloc ⊢
    exact hsess.intact.covered _ hrange halloc
  rw [readInode, readi_kernel sb hn hcovered, ok_bind]
  dsimp only
  rw [setContent_same]
  rfl

theorem writeInode_spec (hsess : Session walk sb fs pins locked) (hip : ip ∈ locked)
    {source : ℕ → ℕ → Bool × List Byte} (hbounded : Bounded source)
    (hn : n < 2 ^ 32)
    (hdir : walk → (fs.inode ip).dinode.type = T_DIR → WholeEntry sb source off n) :
    Avoids FreesFree (writeInode sb source fs ip off n) fun result =>
      Session walk sb result.2 pins locked := by
  obtain ⟨hrange, hcopy, halloc⟩ := hsess.locked_inode hip
  have havoids := @writei_avoids FreesFree sb freesFree_balloc freesFree_bmap source fs.disk
    (fs.inode ip).inum (fs.inode ip).dinode off n
  unfold writeInode
  dsimp only
  cases hwritei : writei sb source fs.disk (fs.inode ip).inum (fs.inode ip).dinode off n with
  | error panic =>
    rw [hwritei] at havoids
    exact havoids
  | ok result =>
    obtain ⟨tot, disk, dinode⟩ := result
    rw [hcopy] at hwritei halloc hdir
    obtain ⟨hintact, htype, hread⟩ := hsess.intact.writei hrange halloc hbounded hn hdir hwritei
    exact hsess.setContent hip hintact (by rw [htype]; exact halloc) hread

end

end Xv6.InodeSession
