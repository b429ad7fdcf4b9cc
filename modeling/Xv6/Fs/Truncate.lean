import Xv6.Fs.BlockOwnership

/-!
# Truncating files

`itrunc` frees every block of an inode and never frees a block twice.  The
entries of the indirect block are freed while the block still lists them, so the
proof follows an assignment in which they have already been given up.
-/

namespace Xv6.Truncate

open DiskLog DiskFormat InodeContent BlockOwnership Assignment Outcome Function

section
variable {sb : Superblock} {cur : ℕ → Dinode} {inum : ℕ} {disk disk' : Disk} {ip : Dinode}

/-- The state of `itrunc` after some of the direct blocks have been freed. -/
structure Truncating (sb : Superblock) (cur : ℕ → Dinode) (inum : ℕ)
    (disk : Disk) (ip : Dinode) (count : ℕ) (state : Disk × Dinode) : Prop where
  layout : Layout sb state.1 (update cur inum state.2)
  blocks : BlocksKept sb disk state.1
  fields : ∃ addrs, state.2 = { ip with addrs := addrs }
  cleared : ∀ index < count, addr state.2 index = 0

variable (hinum : inum < sb.ninodes) (htype : ip.type ≠ 0)
include hinum htype

theorem layout_freeAddr {index b : ℕ} (hlay : Layout sb disk (update cur inum ip))
    (hi : index < NDIRECT) (hslot : inodeSlot disk ip index = some b)
    (hfreed : Freed sb disk disk' b) :
    Layout sb disk' (update cur inum (setAddr ip index 0)) where
  owners := by
    have hlt : index < NDIRECT + 1 := Nat.lt_succ_of_lt hi
    have hothers := hfreed.blocksKept.others hlay
    have hsame := fun other => inodeSlot_congr (fun c hc =>
      hfreed.kept c (hlay.used_slot hinum htype hc).1) other
    have hslots : ∀ other, inodeSlot disk' (setAddr ip index 0) other =
        if other = index then none else inodeSlot disk ip other := by
      intro other
      by_cases ho : other < NDIRECT + 1
      · rw [inodeSlot_addr _ _ ho, addr_setAddr ip _ hlt, inodeSlot_addr _ _ ho]
        split <;> simp [pointer]
      · rw [if_neg (by omega), ← hsame other]
        simp only [inodeSlot, if_neg ho, addr_setAddr ip _ hlt, if_neg (Nat.ne_of_gt hi)]
    exact (hlay.owners.release ((held_update_self disk cur hinum htype index).trans hslot)).congr
        hfreed.used (held_replace hinum htype htype hothers hslots)
  metadata := hfreed.metadata (hlay.used_slot hinum htype hslot).1 hlay.metadata

omit htype in
theorem itruncDirect_spec {start : Disk} {first : Dinode} {index : ℕ}
    {state : Disk × Dinode} (hi : index < NDIRECT) (hfst : first.type ≠ 0)
    (hstate : Truncating sb cur inum start first index state) :
    ∃ state', itruncDirect sb state index = .ok state' ∧
      Truncating sb cur inum start first (index + 1) state' := by
  obtain ⟨current, copy⟩ := state
  obtain ⟨hlay, hblocks, hfields, hcleared⟩ := hstate
  dsimp only at hlay hblocks hfields hcleared
  have hcopy : copy.type ≠ 0 := by
    obtain ⟨addrs, rfl⟩ := hfields
    exact hfst
  by_cases hnil : addr copy index = 0
  · refine ⟨(current, copy), ?_, hlay, hblocks, hfields, ?_⟩
    · rw [itruncDirect, if_pos hnil]
      rfl
    · intro other ho
      rcases Nat.lt_succ_iff_lt_or_eq.mp ho with hbefore | rfl
      · exact hcleared other hbefore
      · exact hnil
  · have hlt : index < NDIRECT + 1 := Nat.lt_succ_of_lt hi
    have hslot : inodeSlot current copy index = some (addr copy index).toNat := by
      rw [inodeSlot_addr current copy hlt]
      exact pointer_of_ne hnil
    obtain ⟨freed, hbfree, hfreed⟩ := bfree_spec (hlay.used_slot hinum hcopy hslot)
    refine ⟨(freed, setAddr copy index 0), ?_,
      layout_freeAddr hinum hcopy hlay hi hslot hfreed,
      hblocks.trans hfreed.blocksKept, ?_, ?_⟩
    · rw [itruncDirect, if_neg hnil, hbfree]
      rfl
    · obtain ⟨addrs, rfl⟩ := hfields
      exact ⟨_, rfl⟩
    · intro other ho
      rw [addr_setAddr copy _ hlt]
      split
      · rfl
      · exact hcleared other (by omega)

/-- The owned blocks without the first `count` entries of the indirect block of
inode `inum`. -/
def withoutEntries (sb : Superblock) (disk : Disk) (cur : ℕ → Dinode)
    (inum count : ℕ) (position : ℕ × ℕ) : Option ℕ :=
  if position.1 = inum ∧ NDIRECT < position.2 ∧ position.2 ≤ NDIRECT + count then none
  else held sb disk cur position

omit hinum htype in
theorem withoutEntries_succ (count : ℕ) (position : ℕ × ℕ) :
    withoutEntries sb disk cur inum (count + 1) position =
      update (withoutEntries sb disk cur inum count) (inum, NDIRECT + 1 + count) none position := by
  obtain ⟨owner, slot⟩ := position
  by_cases hpos : (owner, slot) = (inum, NDIRECT + 1 + count)
  · rw [hpos, update_self, withoutEntries, if_pos]
    exact ⟨rfl, by dsimp only; omega, by dsimp only; omega⟩
  · rw [update_of_ne hpos, withoutEntries, withoutEntries]
    simp only [Prod.mk.injEq, not_and] at hpos
    by_cases howner : owner = inum
    · have hslot := hpos howner
      simp only [howner, true_and]
      congr 1
      rw [eq_iff_iff]
      omega
    · simp only [howner, false_and, if_false]

/-- The state of `itrunc` after some entries of the indirect block are free. -/
structure EntriesFreed (sb : Superblock) (cur : ℕ → Dinode) (inum : ℕ)
    (start : Disk) (count : ℕ) (disk : Disk) : Prop where
  owners : Exact (Used sb disk) (withoutEntries sb start cur inum count)
  metadata : ∀ b < sb.dataStart, bitSet sb disk b = true
  blocks : BlocksKept sb start disk

theorem itruncEntry_spec {start : Disk} {count : ℕ} (hlay : Layout sb start (update cur inum ip))
    (hindir : addr ip NDIRECT ≠ 0) (hcount : count < NINDIRECT)
    (hstate : EntriesFreed sb (update cur inum ip) inum start count disk) :
    ∃ disk', itruncEntry sb (addr ip NDIRECT).toNat disk count = .ok disk' ∧
      EntriesFreed sb (update cur inum ip) inum start (count + 1) disk' := by
  obtain ⟨howners, hmetadata, hblocks⟩ := hstate
  have hslot : inodeSlot start ip NDIRECT = some (addr ip NDIRECT).toNat := by
    rw [inodeSlot_addr start ip (Nat.lt_succ_self NDIRECT)]
    exact pointer_of_ne hindir
  have hsame := hblocks.kept _ (hlay.used_slot hinum htype hslot).1
  have he : withoutEntries sb start (update cur inum ip) inum count
      (inum, NDIRECT + 1 + count) =
        pointer (indirectEntry (disk (addr ip NDIRECT).toNat) count) := by
    rw [withoutEntries, if_neg (by dsimp only; omega), held_update_self start cur hinum htype,
      inodeSlot_entry start hindir hcount, hsame]
  by_cases hnil : indirectEntry (disk (addr ip NDIRECT).toNat) count = 0
  · refine ⟨disk, ?_, howners.congr (fun _ => Iff.rfl) fun position => ?_, hmetadata, hblocks⟩
    · rw [itruncEntry, if_pos hnil]
      rfl
    · rw [pointer_eq_none.mpr hnil] at he
      rw [withoutEntries_succ, ← he, update_eq_self]
  · rw [pointer_of_ne hnil] at he
    have hused := howners.marked _ _ he
    obtain ⟨freed, hbfree, hfreed⟩ := bfree_spec hused
    refine ⟨freed, ?_, (howners.release he).congr hfreed.used (withoutEntries_succ count),
      hfreed.metadata hused.1 hmetadata, hblocks.trans hfreed.blocksKept⟩
    rw [itruncEntry, if_neg hnil]
    exact hbfree

theorem held_withoutIndirect {start : Disk} (hkept : BlocksKept sb start disk)
    (hlay : Layout sb start (update cur inum ip)) (position : ℕ × ℕ) :
    held sb disk (update cur inum (setAddr ip NDIRECT 0)) position = update
        (withoutEntries sb start (update cur inum ip) inum NINDIRECT)
        (inum, NDIRECT) none position := by
  obtain ⟨owner, slot⟩ := position
  by_cases howner : owner = inum
  · subst howner
    have haddr := addr_setAddr ip 0 (Nat.lt_succ_self NDIRECT)
    have hcopy : (setAddr ip NDIRECT 0).type ≠ 0 := htype
    rw [held_update_self disk cur hinum hcopy]
    by_cases hslot : slot < NDIRECT + 1
    · rw [inodeSlot_addr _ _ hslot, haddr]
      by_cases hlast : slot = NDIRECT
      · subst hlast
        rw [update_self, if_pos rfl]
        rfl
      · rw [if_neg hlast, update_of_ne (by simpa using hlast),
          withoutEntries, if_neg (by dsimp only; omega),
          held_update_self start cur hinum htype, inodeSlot_addr _ _ hslot]
    · rw [update_of_ne (by simp only [ne_eq, Prod.mk.injEq]; omega)]
      have hnone : inodeSlot disk (setAddr ip NDIRECT 0) slot = none := by
        rw [inodeSlot, if_neg hslot, haddr, if_pos rfl, if_pos (Or.inl rfl)]
      rw [hnone, withoutEntries]
      split
      · rfl
      · rename_i hbeyond
        dsimp only at hbeyond
        rw [held_update_self start cur hinum htype, inodeSlot, if_neg hslot,
          if_pos (Or.inr (by omega))]
  · rw [held_update_of_ne sb _ cur _ howner, update_of_ne (by simp [howner]), withoutEntries,
      if_neg (by simp [howner]), held_update_of_ne sb _ cur _ howner,
      (hkept.others hlay).held_eq howner]

theorem itruncIndirect_spec (hlay : Layout sb disk (update cur inum ip)) :
    ∃ disk' ip', itruncIndirect sb disk ip = .ok (disk', ip') ∧
      Layout sb disk' (update cur inum ip') ∧ BlocksKept sb disk disk' ∧ addr ip' NDIRECT = 0 ∧
      (∀ index < NDIRECT, addr ip' index = addr ip index) ∧
      ∃ addrs, ip' = { ip with addrs := addrs } := by
  by_cases hnil : addr ip NDIRECT = 0
  · refine ⟨disk, ip, ?_, hlay, BlocksKept.refl sb disk, hnil, fun _ _ => rfl, ip.addrs, rfl⟩
    rw [itruncIndirect, if_pos hnil]
    rfl
  · have hstart : EntriesFreed sb (update cur inum ip) inum disk 0
        disk := by
      refine ⟨hlay.owners.congr (fun _ => Iff.rfl) fun position => ?_,
        hlay.metadata, BlocksKept.refl sb disk⟩
      rw [withoutEntries, if_neg (by omega)]
    obtain ⟨middle, hloop, howners, hmetadata, hblocks⟩ :=
      (Avoids.foldlM_range NINDIRECT hstart fun index hi state hstate =>
        Avoids.of_returns (itruncEntry_spec hinum htype hlay hnil hi hstate)).returns
    have hslot : withoutEntries sb disk (update cur inum ip) inum
        NINDIRECT (inum, NDIRECT) = some (addr ip NDIRECT).toNat := by
      rw [withoutEntries, if_neg (by dsimp only; omega), held_update_self disk cur hinum htype,
        inodeSlot_addr disk ip (Nat.lt_succ_self NDIRECT)]
      exact pointer_of_ne hnil
    have hused := howners.marked _ _ hslot
    obtain ⟨freed, hbfree, hfreed⟩ := bfree_spec hused
    have hkept := hblocks.trans hfreed.blocksKept
    refine ⟨freed, setAddr ip NDIRECT 0, ?_, ⟨?_, ?_⟩, hkept, ?_, ?_, _, rfl⟩
    · rw [itruncIndirect, if_neg hnil]
      simp only [hloop, hbfree, ok_bind, pure_eq_ok]
    · exact (howners.release hslot).congr hfreed.used (held_withoutIndirect hinum htype hkept hlay)
    · exact hfreed.metadata hused.1 hmetadata
    · rw [addr_setAddr ip _ (Nat.lt_succ_self NDIRECT), if_pos rfl]
    · intro index hi
      rw [addr_setAddr ip _ (Nat.lt_succ_self NDIRECT), if_neg (Nat.ne_of_lt hi)]

def truncated (ip : Dinode) : Dinode := { ip with size := 0, addrs := fun _ => 0 }

omit hinum htype in
theorem addrs_eq_zero (hzero : ∀ index < NDIRECT + 1, addr ip index = 0) :
    ip.addrs = fun _ => 0 := by
  funext index
  have hi := hzero index index.isLt
  rwa [addr, dif_pos index.isLt] at hi

theorem itrunc_spec (hlay : Layout sb disk (update cur inum ip)) :
    ∃ disk', itrunc sb disk inum ip = .ok (iupdate sb disk' inum (truncated ip), truncated ip) ∧
      Layout sb disk' (update cur inum (truncated ip)) ∧ BlocksKept sb disk disk' := by
  have hstart : Truncating sb cur inum disk ip 0 (disk, ip) :=
    ⟨hlay, BlocksKept.refl sb disk, ⟨ip.addrs, rfl⟩, fun _ hi => absurd hi (Nat.not_lt_zero _)⟩
  obtain ⟨⟨disk₁, ip₁⟩, hdirect, hlayout₁, hblocks₁, ⟨addrs₁, hfields₁⟩, hcleared⟩ :=
    (Avoids.foldlM_range NDIRECT hstart fun index hi state hstate =>
      Avoids.of_returns (itruncDirect_spec hinum hi htype hstate)).returns
  dsimp only at hlayout₁ hblocks₁ hfields₁ hcleared
  have htype₁ : ip₁.type ≠ 0 := by
    rw [hfields₁]
    exact htype
  obtain ⟨disk₂, ip₂, hindir, hlayout₂, hblocks₂, hlast, hsame, addrs₂,
      hfields₂⟩ := itruncIndirect_spec hinum htype₁ hlayout₁
  have hzero : ip₂.addrs = fun _ => 0 := by
    refine addrs_eq_zero fun index hi => ?_
    rcases Nat.lt_succ_iff_lt_or_eq.mp hi with hbefore | rfl
    · rw [hsame index hbefore, hcleared index hbefore]
    · exact hlast
  have hfinal : { ip₂ with size := 0 } = truncated ip := by
    rw [truncated, ← hzero, hfields₂, hfields₁]
  refine ⟨disk₂, ?_, ?_, hblocks₁.trans hblocks₂⟩
  · simp only [itrunc, hdirect, hindir, ok_bind, pure_eq_ok, hfinal]
  · rw [← hfinal]
    refine ⟨hlayout₂.owners.congr (fun _ => Iff.rfl) fun position => ?_, hlayout₂.metadata⟩
    obtain ⟨owner, slot⟩ := position
    by_cases howner : owner = inum
    · subst howner
      simp only [held, update_self]
      rfl
    · rw [held_update_of_ne sb _ cur _ howner, held_update_of_ne sb _ cur _ howner]

end

end Xv6.Truncate
