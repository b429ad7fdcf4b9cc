import Xv6.Fs.FileSystem

/-!
# Files are byte arrays

The contents of a file as a list of bytes.  A write replaces a range of the list and may
make it longer, a read returns a range of it, and neither changes another file, for every
offset and length and after every sequence of calls.  A block that the file lacks is taken
from the bitmap; `balloc` panics when there is none, so a call needs as many free blocks
as the range lacks.
-/

namespace Xv6.ByteArrays

open LittleEndian DiskLog DiskFormat InodeContent BlockOwnership FileContent ReadWrite BitVec List
open Option FileSystem Outcome Function

variable {off n slot : ℕ} {disk : Disk} {ip : Dinode} {data : List Byte}
  {source : ℕ → ℕ → Bool × List Byte}

/-! ## Enough free blocks -/

def freeBlocks (sb : Superblock) (disk : Disk) : Finset ℕ :=
  (Finset.range sb.size).filter fun b => bitSet sb disk b = false

def missing (slots : Finset ℕ) (disk : Disk) (ip : Dinode) : Finset ℕ :=
  slots.filter fun slot => inodeSlot disk ip slot = none

/-- There is a free block for each slot that records none. -/
def Enough (sb : Superblock) (slots : Finset ℕ) (disk : Disk) (ip : Dinode) : Prop :=
  (missing slots disk ip).card ≤ (freeBlocks sb disk).card

def Reaches (slots : Finset ℕ) (bn : ℕ) : Prop :=
  bn < MAXFILE ∧ blockSlot bn ∈ slots ∧ (NDIRECT ≤ bn → NDIRECT ∈ slots)

def rangeSlots (off n : ℕ) : Finset ℕ :=
  ((Finset.range MAXFILE).filter fun bn =>
      0 < n ∧ off / BSIZE ≤ bn ∧ bn * BSIZE < off + n).image blockSlot ∪
    if 0 < n ∧ NDIRECT * BSIZE < off + n then {NDIRECT} else ∅

theorem reaches_rangeSlots {position : ℕ} (hfits : off + n ≤ MAXFILE * BSIZE)
    (hlow : off ≤ position) (hhigh : position < off + n) :
    Reaches (rangeSlots off n) (position / BSIZE) := by
  have hbn : position / BSIZE < MAXFILE := Nat.div_lt_of_lt_mul (by rw [Nat.mul_comm]; omega)
  refine ⟨hbn, Finset.mem_union_left _ (Finset.mem_image_of_mem _ ?_), fun hindir => ?_⟩
  · rw [Finset.mem_filter, Finset.mem_range]
    refine ⟨hbn, by omega, Nat.div_le_div_right hlow, ?_⟩
    have hle := Nat.div_mul_le_self position BSIZE
    omega
  · apply Finset.mem_union_right
    have hle := Nat.mul_le_mul_right BSIZE hindir
    have hself := Nat.div_mul_le_self position BSIZE
    rw [if_pos (by omega)]
    exact Finset.mem_singleton_self NDIRECT

section
variable {sb : Superblock} {slots : Finset ℕ} {disk disk' : Disk} {ip ip' : Dinode}

theorem Enough.congr (henough : Enough sb slots disk ip)
    (hslots : ∀ slot, inodeSlot disk' ip' slot = inodeSlot disk ip slot)
    (hbits : ∀ c < sb.size, bitSet sb disk' c = bitSet sb disk c) : Enough sb slots disk' ip' := by
  have hmissing : missing slots disk' ip' = missing slots disk ip := by simp only [missing, hslots]
  have hfree : freeBlocks sb disk' = freeBlocks sb disk := by
    apply Finset.filter_congr
    intro c hc
    rw [hbits c (Finset.mem_range.mp hc)]
  rw [Enough, hmissing, hfree]
  exact henough

theorem Enough.assigned {b : ℕ} (henough : Enough sb slots disk ip)
    (hslot : slot ∈ slots) (hassign : Assigned sb disk disk' ip ip' slot b) :
    Enough sb slots disk' ip' := by
  obtain ⟨middle, halloc, hbits⟩ := hassign.allocated
  have hnil : slot ∈ missing slots disk ip := Finset.mem_filter.mpr ⟨hslot, hassign.empty⟩
  have hclear : bitSet sb disk b = false := by
    by_contra hset
    exact halloc.fresh ⟨halloc.low, halloc.high, by simpa using hset⟩
  have hb : b ∈ freeBlocks sb disk :=
    Finset.mem_filter.mpr ⟨Finset.mem_range.mpr halloc.high, hclear⟩
  have hmissing : missing slots disk' ip' = (missing slots disk ip).erase slot := by
    ext other
    simp only [missing, Finset.mem_filter, Finset.mem_erase, hassign.slots]
    by_cases heq : other = slot
    · simp [heq]
    · simp [heq]
  have hfree : freeBlocks sb disk' = (freeBlocks sb disk).erase b := by
    ext c
    simp only [freeBlocks, Finset.mem_filter, Finset.mem_erase, Finset.mem_range]
    constructor
    · rintro ⟨hc, hbit⟩
      rw [hbits c hc, halloc.bits c hc, Bool.or_eq_false_iff, decide_eq_false_iff_not] at hbit
      exact ⟨hbit.2, hc, hbit.1⟩
    · rintro ⟨hne, hc, hbit⟩
      rw [hbits c hc, halloc.bits c hc, hbit]
      exact ⟨hc, by simpa using hne⟩
  rw [Enough, hmissing, hfree, Finset.card_erase_of_mem hnil, Finset.card_erase_of_mem hb]
  exact Nat.sub_le_sub_right henough 1

theorem Enough.balloc (henough : Enough sb slots disk ip)
    (hslot : slot ∈ slots) (hnil : inodeSlot disk ip slot = none) :
    ∃ b disk', balloc sb disk = .ok (b, disk') := by
  have hpos : 0 < (missing slots disk ip).card :=
    Finset.card_pos.mpr ⟨slot, Finset.mem_filter.mpr ⟨hslot, hnil⟩⟩
  obtain ⟨c, hc⟩ := Finset.card_pos.mp (lt_of_lt_of_le hpos henough)
  obtain ⟨hrange, hclear⟩ := Finset.mem_filter.mp hc
  rw [InodeContent.balloc]
  cases hfind : (List.range sb.size).find? fun b => !bitSet sb disk b with
  | some b => exact ⟨b, _, rfl⟩
  | none =>
    have hall := List.find?_eq_none.mp hfind c (mem_range.mpr (Finset.mem_range.mp hrange))
    simp [hclear] at hall

end

section
variable {sb : Superblock} {cur : ℕ → Dinode} {inum : ℕ} {slots : Finset ℕ}

theorem bmapAddr_enough {index : ℕ}
    (hlay : Layout sb disk (update cur inum ip)) (hinum : inum < sb.ninodes)
    (htype : ip.type ≠ 0) (hi : index < NDIRECT + 1) (hslot : index ∈ slots)
    (henough : Enough sb slots disk ip) :
    ∃ b disk' ip', bmapAddr sb disk ip index = .ok (b, disk', ip') ∧ Enough sb slots disk' ip' := by
  rw [bmapAddr]
  by_cases hnil : addr ip index = 0
  · have hnone : inodeSlot disk ip index = none := by
      rw [inodeSlot_addr disk ip hi, hnil]
      rfl
    obtain ⟨b, disk', hballoc⟩ := henough.balloc hslot hnone
    have hassign := assigned_addr hlay hinum htype hi hnil (balloc_spec hlay.metadata hballoc)
    rw [if_pos hnil, hballoc]
    exact ⟨_, _, _, rfl, henough.assigned hslot hassign⟩
  · rw [if_neg hnil]
    exact ⟨_, _, _, rfl, henough⟩

theorem bmap_enough {bn : ℕ}
    (hlay : Layout sb disk (update cur inum ip)) (hinum : inum < sb.ninodes)
    (htype : ip.type ≠ 0) (hreaches : Reaches slots bn) (henough : Enough sb slots disk ip) :
    ∃ b disk' ip', bmap sb disk ip bn = .ok (b, disk', ip') ∧ Enough sb slots disk' ip' := by
  obtain ⟨hbn, hslot, hneeds⟩ := hreaches
  rw [bmap]
  by_cases hdirect : bn < NDIRECT
  · rw [if_pos hdirect]
    rw [blockSlot, if_pos hdirect] at hslot
    exact bmapAddr_enough hlay hinum htype (Nat.lt_succ_of_lt hdirect) hslot henough
  · have hrange : bn - NDIRECT < NINDIRECT := by
      rw [MAXFILE] at hbn
      omega
    rw [if_neg hdirect, if_pos hrange]
    obtain ⟨indirect, disk₁, ip₁, hmap, henough₁⟩ := bmapAddr_enough hlay hinum htype
      (Nat.lt_succ_self NDIRECT) (hneeds (not_lt.mp hdirect)) henough
    obtain ⟨hgrows, hindir⟩ := bmapAddr_spec hlay hinum htype (Nat.lt_succ_self NDIRECT) hmap
    have htype₁ : ip₁.type ≠ 0 := hgrows.type_eq ▸ htype
    rw [inodeSlot_addr disk₁ ip₁ (Nat.lt_succ_self NDIRECT)] at hindir
    obtain ⟨hne, hvalue⟩ := eq_of_pointer hindir
    subst hvalue
    rw [hmap, ok_bind]
    dsimp only
    rw [blockSlot, if_neg hdirect, show bn + 1 = NDIRECT + 1 + (bn - NDIRECT) by omega] at hslot
    by_cases hnil : indirectEntry (disk₁ (addr ip₁ NDIRECT).toNat) (bn - NDIRECT) = 0
    · have hnone : inodeSlot disk₁ ip₁ (NDIRECT + 1 + (bn - NDIRECT)) = none := by
        rw [inodeSlot_entry disk₁ hne hrange, hnil]
        rfl
      obtain ⟨b, disk₂, hballoc⟩ := henough₁.balloc hslot hnone
      have hassign := assigned_entry hgrows.layout hinum htype₁ hne hrange hnil
        (balloc_spec hgrows.layout.metadata hballoc)
      rw [if_pos hnil, hballoc]
      exact ⟨_, _, _, rfl, henough₁.assigned hslot hassign⟩
    · rw [if_neg hnil]
      exact ⟨_, _, _, rfl, henough₁⟩

theorem writeiLoop_enough {source : ℕ → ℕ → Bool × List Byte} {n : ℕ}
    (hinum : inum < sb.ninodes) (fuel : ℕ) :
    ∀ (disk : Disk) (ip : Dinode) (tot off : ℕ), Layout sb disk (update cur inum ip) → ip.type ≠ 0 →
      Enough sb slots disk ip → (∀ position, off ≤ position →
        position < off + (n - tot) → Reaches slots (position / BSIZE)) →
      ∃ result, writeiLoop sb source n fuel disk ip tot off = .ok result := by
  induction fuel with
  | zero => exact fun disk ip tot off _ _ _ _ => ⟨_, rfl⟩
  | succ fuel ih =>
    intro disk ip tot off hlay htype henough hreaches
    rw [writeiLoop]
    by_cases hleft : tot < n
    · obtain ⟨b, disk₁, ip₁, hmap, henough₁⟩ := bmap_enough hlay hinum htype
        (hreaches off (le_refl off) (by omega)) henough
      obtain ⟨m, hm⟩ : ∃ m, m = min (n - tot) (BSIZE - off % BSIZE) := ⟨_, rfl⟩
      have hmod : off % BSIZE < BSIZE := Nat.mod_lt off (by decide)
      obtain ⟨hgrows, hb⟩ := bmap_spec hlay hinum htype hmap
      have htype₁ : ip₁.type ≠ 0 := hgrows.type_eq ▸ htype
      have hlayout' := layout_store hgrows.layout hinum htype₁ hb
        (overwrite (disk₁ b) (off % BSIZE) (source tot m).2)
      have henough' := henough₁.congr (inodeSlot_store hgrows.layout hinum htype₁ hb
          (overwrite (disk₁ b) (off % BSIZE) (source tot m).2))
        (fun c hc => bitSet_congr (inodes_store hgrows.layout hinum htype₁ hb _
          (BBLOCK_lt_dataStart sb hc)))
      rw [if_pos hleft, hmap, ok_bind]
      dsimp only
      rw [← hm]
      split
      next =>
        exact ih _ ip₁ (tot + m) (off + m) hlayout' htype₁ henough'
          fun position hlow hhigh => hreaches position (by omega) (by omega)
      next => exact ⟨_, rfl⟩
    · rw [if_neg hleft]
      exact ⟨_, rfl⟩

/-- The loop of `readi` returns the bytes, and a hole that it fills reads as before. -/
theorem readiLoop_enough {n start : ℕ} (hinum : inum < sb.ninodes)
    (hreaches : ∀ position, start ≤ position → position < start + n →
      Reaches slots (position / BSIZE)) (fuel : ℕ) :
    ∀ (disk : Disk) (ip : Dinode) (tot : ℕ), Layout sb disk (update cur inum ip) → ip.type ≠ 0 →
      Enough sb slots disk ip → tot ≤ n → n - tot ≤ fuel →
      ∃ disk' ip', readiLoop sb copyToKernel n fuel disk ip (fileBytes disk ip start tot)
          tot (start + tot) = .ok ((n : ℤ), disk', ip', fileBytes disk ip start n) ∧
        Grows sb cur inum disk disk' ip ip' := by
  induction fuel with
  | zero =>
    intro disk ip tot hlay _ _ htot hfuel
    obtain rfl : tot = n := by omega
    exact ⟨disk, ip, rfl, Grows.refl hlay⟩
  | succ fuel ih =>
    intro disk ip tot hlay htype henough htot hfuel
    rw [readiLoop]
    by_cases hleft : tot < n
    · obtain ⟨b, disk₁, ip₁, hmap, henough₁⟩ := bmap_enough hlay hinum htype
        (hreaches (start + tot) (by omega) (by omega)) henough
      obtain ⟨m, hm⟩ : ∃ m, m = min (n - tot) (BSIZE - (start + tot) % BSIZE) := ⟨_, rfl⟩
      have hmod : (start + tot) % BSIZE < BSIZE := Nat.mod_lt _ (by decide)
      obtain ⟨hgrows, hb⟩ := bmap_spec hlay hinum htype hmap
      have hsame : ∀ off count, fileBytes disk₁ ip₁ off count =
          fileBytes disk ip off count :=
        fun off count => fileBytes_congr fun position _ _ => hgrows.content position
      obtain ⟨disk', ip', hloop, hgrows'⟩ := ih disk₁ ip₁ (tot + m) hgrows.layout
        (hgrows.type_eq ▸ htype) henough₁ (by omega) (by omega)
      refine ⟨disk', ip', ?_, hgrows.trans hgrows'⟩
      rw [if_pos hleft, hmap, ok_bind]
      dsimp only [copyToKernel]
      rw [← hm, slice_eq_fileBytes hb (by omega), hsame, ← fileBytes_append, Nat.add_assoc]
      rw [hsame, hsame] at hloop
      exact hloop
    · obtain rfl : tot = n := by omega
      rw [if_neg hleft]
      exact ⟨disk, ip, rfl, Grows.refl hlay⟩

end

/-! ## Byte lists -/

/-- The list with the bytes from `off` on replaced, longer if they reach past its end. -/
def splice (content : List Byte) (off : ℕ) (data : List Byte) : List Byte :=
  content.take off ++ (data ++ content.drop (off + data.length))

theorem getElem?_splice {content : List Byte} (hoff : off ≤ content.length)
    (index : ℕ) :
    (splice content off data)[index]? =
      if index < off then content[index]?
      else if index < off + data.length then data[index - off]? else content[index]? := by
  have hlen : (content.take off).length = off := by rw [length_take, min_eq_left hoff]
  rw [splice, List.getElem?_append, hlen]
  split
  next hlow => rw [List.getElem?_take_of_lt hlow]
  next hlow =>
    rw [List.getElem?_append]
    by_cases hmiddle : index - off < data.length
    · rw [if_pos hmiddle, if_pos (by omega)]
    · rw [if_neg hmiddle, if_neg (by omega), List.getElem?_drop]
      congr 1
      omega

theorem length_splice {content : List Byte} (hoff : off ≤ content.length) :
    (splice content off data).length = max content.length (off + data.length) := by
  simp only [splice, length_append, length_take, length_drop]
  omega

theorem getElem?_fileBytes (disk : Disk) (ip : Dinode) (count index : ℕ) :
    (fileBytes disk ip 0 count)[index]? =
      if index < count then some (fileByte disk ip index) else none := by
  rw [fileBytes, List.getElem?_map]
  split
  next hlt => rw [List.getElem?_range hlt, map_some, Nat.zero_add]
  next hlt =>
    rw [List.getElem?_eq_none (by rw [length_range]; omega)]
    rfl

theorem fileBytes_drop (disk : Disk) (ip : Dinode) (off n size : ℕ) :
    ((fileBytes disk ip 0 size).drop off).take n = fileBytes disk ip off (min n (size - off)) := by
  apply ext_getElem?
  intro index
  rw [List.getElem?_take, List.getElem?_drop, getElem?_fileBytes, fileBytes, List.getElem?_map]
  by_cases hi : index < min n (size - off)
  · rw [if_pos (by omega), if_pos (by omega), List.getElem?_range hi]
    rfl
  · rw [List.getElem?_eq_none (by rw [length_range]; omega)]
    by_cases hn : index < n
    · rw [if_pos hn, if_neg (by omega)]
      rfl
    · rw [if_neg hn]
      rfl

theorem fileBytes_splice {disk' : Disk} {ip' : Dinode}
    (hoff : off ≤ ip.size.toNat) (hsize : ip'.size.toNat = max ip.size.toNat (off + data.length))
    (hin : ∀ index, off ≤ index → index < off + data.length →
      fileByte disk' ip' index = data.getD (index - off) 0)
    (hout : ∀ index, index < off ∨ off + data.length ≤ index →
      fileByte disk' ip' index = fileByte disk ip index) :
    fileBytes disk' ip' 0 ip'.size.toNat = splice (fileBytes disk ip 0 ip.size.toNat) off data := by
  apply ext_getElem?
  intro index
  rw [getElem?_splice (by simpa [fileBytes] using hoff), getElem?_fileBytes,
    getElem?_fileBytes, hsize]
  by_cases hlow : index < off
  · rw [if_pos (by omega), if_pos hlow, if_pos (by omega), hout index (Or.inl hlow)]
  · rw [if_neg hlow]
    by_cases hmiddle : index < off + data.length
    · rw [if_pos (by omega), if_pos hmiddle, hin index (by omega) hmiddle,
        getD_eq_getElem?_getD,
        List.getElem?_eq_getElem (show index - off < data.length by omega)]
      rfl
    · rw [if_neg hmiddle, hout index (Or.inr (by omega))]
      by_cases hold : index < ip.size.toNat
      · rw [if_pos (by omega), if_pos hold]
      · rw [if_neg (by omega), if_neg hold]

/-! ## The files of a disk -/

/-- The disk and the inodes in memory. -/
structure Files where
  disk : Disk
  inode : ℕ → Dinode

def Live (sb : Superblock) (files : Files) (inum : ℕ) : Prop :=
  inum < sb.ninodes ∧ (files.inode inum).type ≠ 0

/-- Every block of a file is its own, and marked. -/
structure Owned (sb : Superblock) (files : Files) : Prop where
  layout : Layout sb files.disk files.inode
  size : ∀ inum, Live sb files inum → (files.inode inum).size.toNat ≤ MAXFILE * BSIZE

def content (files : Files) (inum : ℕ) : List Byte :=
  fileBytes files.disk (files.inode inum) 0 (files.inode inum).size.toNat

def write (sb : Superblock) (files : Files) (inum : ℕ)
    (source : ℕ → ℕ → Bool × List Byte) (off n : ℕ) : Except Panic (ℤ × Files) :=
  (writei sb source files.disk inum (files.inode inum) off n).map
    fun (result, disk, ip) => (result, ⟨disk, update files.inode inum ip⟩)

def read (sb : Superblock) (files : Files) (inum off n : ℕ) :
    Except Panic (ℤ × List Byte × Files) :=
  (readi sb copyToKernel files.disk (files.inode inum) [] off n).map
    fun (result, disk, ip, bytes) => (result, bytes, ⟨disk, update files.inode inum ip⟩)

/-- The copies of the source succeed and deliver `data`. -/
def Supplies (source : ℕ → ℕ → Bool × List Byte) (data : List Byte) : Prop :=
  Bounded source ∧ Delivers source data.length fun index => data.getD index 0

def Fits (files : Files) (inum off n : ℕ) : Prop :=
  off ≤ (files.inode inum).size.toNat ∧ off + n ≤ MAXFILE * BSIZE

/-- A free block for each block of the range that the file lacks. -/
def Room (sb : Superblock) (files : Files) (inum off n : ℕ) : Prop :=
  Enough sb (rangeSlots off n) files.disk (files.inode inum)

/-- The other files, the types and the ownership are kept. -/
structure KeepsOthers (sb : Superblock) (files files' : Files) (inum : ℕ) : Prop where
  owned : Owned sb files'
  live : ∀ other, Live sb files' other ↔ Live sb files other
  others : ∀ other, other ≠ inum → Live sb files other → content files' other = content files other

section
variable {sb : Superblock} {files files' : Files} {inum : ℕ}

theorem content_length (files : Files) (inum : ℕ) :
    (content files inum).length = (files.inode inum).size.toNat := by
  simp [content, fileBytes]

theorem keepsOthers_update (howned : Owned sb files) {inum : ℕ}
    (hlay : Layout sb disk (update files.inode inum ip))
    (hothers : OthersKept sb files.inode inum files.disk disk)
    (htype : ip.type = (files.inode inum).type) (hsize : ip.size.toNat ≤ MAXFILE * BSIZE) :
    KeepsOthers sb files ⟨disk, update files.inode inum ip⟩ inum := by
  have hinode : ∀ other, other ≠ inum → update files.inode inum ip other = files.inode other :=
    fun other hne => update_of_ne hne _ _
  have hsame : ∀ other, Live sb ⟨disk, update files.inode inum ip⟩ other ↔
      Live sb files other := by
    intro other
    by_cases heq : other = inum
    · simp only [Live, heq, update_self, htype]
    · simp only [Live, hinode other heq]
  refine ⟨⟨hlay, fun other ho => ?_⟩, hsame, fun other hne ho => ?_⟩
  · by_cases heq : other = inum
    · simp only [heq, update_self]
      exact hsize
    · simp only [hinode other heq]
      exact howned.size other ((hsame other).mp ho)
  · simp only [content, hinode other hne]
    exact fileBytes_congr fun position _ _ => (othersKept_file hothers hne ho.1 ho.2).2 position

theorem iupdate_layout {disk : Disk} {cur : ℕ → Dinode} {ip ip' : Dinode}
    (hinum : inum < sb.ninodes) (htype : ip.type ≠ 0) (hlay : Layout sb disk (update cur inum ip)) :
    Layout sb (iupdate sb disk inum ip') (update cur inum ip) ∧
      (∀ position, fileByte (iupdate sb disk inum ip') ip position = fileByte disk ip position) ∧
      OthersKept sb cur inum disk (iupdate sb disk inum ip') := by
  have habove := fun c (hc : sb.bmapstart ≤ c) => @iupdate_above sb inum disk hinum ip' c hc
  have harea := (bmapstart_lt_dataStart sb).le
  refine ⟨layout_agree hlay habove fun _ _ => rfl, ?_, ?_⟩
  · refine (file_congr fun slot b hslot => habove b ?_).2
    exact harea.trans (hlay.used_slot hinum htype hslot).1
  · intro position b hpos hheld
    refine habove b (harea.trans ?_)
    exact (hlay.owners.marked position b ((held_update_of_ne sb disk cur ip hpos).trans hheld)).1

theorem write_refused (hn : n < 2 ^ 32)
    (hfits : ¬Fits files inum off n) : write sb files inum source off n = .ok (-1, files) := by
  have hsize := (files.inode inum).size.isLt
  have hmax : MAXFILE * BSIZE < 2 ^ 32 := by decide
  have hrefused : writei sb source files.disk inum (files.inode inum) off n =
      .ok (-1, files.disk, files.inode inum) := by
    rw [writei]
    by_cases hrange : (files.inode inum).size.toNat < off ∨ (off + n) % 2 ^ 32 < off
    · rw [if_pos hrange]
      rfl
    · have hlarge : MAXFILE * BSIZE < (off + n) % 2 ^ 32 := by
        rw [Fits, not_and_or] at hfits
        omega
      rw [if_neg hrange, if_pos hlarge]
      rfl
  rw [write, hrefused]
  simp only [Except.map, update_eq_self]

theorem write_spec (howned : Owned sb files) (hlive : Live sb files inum)
    (hsource : Supplies source data) (hfits : Fits files inum off data.length)
    {result : ℤ} (hwrite : write sb files inum source off data.length = .ok (result, files')) :
    result = data.length ∧ KeepsOthers sb files files' inum ∧
      content files' inum = splice (content files inum) off data := by
  obtain ⟨hbounded, hdelivers⟩ := hsource
  obtain ⟨hoff, hmax⟩ := hfits
  have hbig : MAXFILE * BSIZE < 2 ^ 32 := by decide
  have hself := howned.layout
  rw [← update_eq_self inum files.inode] at hself
  rw [write] at hwrite
  cases hwritei : writei sb source files.disk inum (files.inode inum) off data.length with
  | error panic =>
    rw [hwritei] at hwrite
    cases hwrite
  | ok found =>
  obtain ⟨value, final, ip⟩ := found
  rw [hwritei] at hwrite
  cases hwrite
  rcases writei_spec hbounded hself hlive.1 hlive.2 (by omega) hwritei with
    ⟨hrefused, -⟩ | ⟨disk, copy, tot, hwrote, htot, hip, hfinal, -, -⟩
  · -- The checks were passed, so the call did not return -1.
    have hloop : ∃ tot : ℕ, result = tot := by
      rw [writei, if_neg (by omega), if_neg (by omega)] at hwritei
      obtain ⟨⟨tot, reached, disk, copy⟩, -, hrest⟩ := bind_eq_ok.mp hwritei
      cases hrest
      exact ⟨tot, rfl⟩
    obtain ⟨tot, htot⟩ := hloop
    omega
  obtain ⟨hall, hbytes⟩ := hwrote.delivered _ hdelivers
  dsimp only at hall
  subst hall
  have hwritten := hwrote.written
  dsimp only at hwritten hbytes
  have htype : copy.type ≠ 0 := hwritten.type_eq ▸ hlive.2
  have haddrs : ip.addrs = copy.addrs := by
    rw [hip, extended]
    split <;> rfl
  have hiptype : ip.type = copy.type := by
    rw [hip, extended]
    split <;> rfl
  have hcopysize : copy.size = (files.inode inum).size := hwritten.size_eq
  have hsize : ip.size.toNat = max (files.inode inum).size.toNat (off + data.length) := by
    rw [hip, extended, hcopysize]
    split
    next hlt =>
      rw [toNat_ofNat, Nat.mod_eq_of_lt (by omega)]
      omega
    next hlt =>
      rw [hcopysize]
      omega
  have hlay := layout_fields hwritten.layout (by rw [hiptype]) haddrs
  obtain ⟨hlayout', hsame, hupdated⟩ := @iupdate_layout sb inum disk files.inode ip ip
    hlive.1 (by rw [hiptype]; exact htype) hlay
  rw [← hfinal] at hlayout' hsame hupdated
  refine ⟨htot, keepsOthers_update howned hlayout'
    (hwritten.others.trans hupdated) (by rw [hiptype, hwritten.type_eq]) (by
      have hold := howned.size inum hlive
      omega), ?_⟩
  have hbyte : ∀ position, fileByte final ip position = fileByte disk copy position := by
    intro position
    rw [hsame, (file_addrs haddrs).2]
  simp only [content, update_self]
  refine fileBytes_splice hoff hsize (fun index hlow hhigh => ?_) fun index hi => ?_
  · rw [hbyte, hbytes index hlow hhigh, Nat.zero_add]
  · rw [hbyte, hwritten.content index hi]

theorem write_returns (howned : Owned sb files) (hlive : Live sb files inum)
    (source : ℕ → ℕ → Bool × List Byte) (hfits : Fits files inum off n)
    (hroom : Room sb files inum off n) :
    ∃ result files', write sb files inum source off n = .ok (result, files') := by
  have hbig : MAXFILE * BSIZE < 2 ^ 32 := by decide
  have hself := howned.layout
  rw [← update_eq_self inum files.inode] at hself
  obtain ⟨hoff, hmax⟩ := hfits
  obtain ⟨found, hloop⟩ := @writeiLoop_enough sb files.inode inum (rangeSlots off n) source n
    hlive.1 n files.disk (files.inode inum) 0 off hself hlive.2 hroom
    fun position hlow hhigh => reaches_rangeSlots hmax hlow (by omega)
  rw [write, writei, if_neg (by omega), if_neg (by omega), hloop]
  exact ⟨_, _, rfl⟩

theorem read_spec (howned : Owned sb files) (hlive : Live sb files inum)
    (hn : n < 2 ^ 32) (hoverflow : off + n < 2 ^ 32)
    (hroom : Room sb files inum off (min n ((files.inode inum).size.toNat - off))) :
    ∃ files', read sb files inum off n = .ok (((((content files inum).drop off).take n).length : ℤ),
          ((content files inum).drop off).take n, files') ∧
      KeepsOthers sb files files' inum ∧ content files' inum = content files inum := by
  have hself := howned.layout
  rw [← update_eq_self inum files.inode] at hself
  have hsize := howned.size inum hlive
  rw [content, fileBytes_drop]
  obtain ⟨count, hcount⟩ : ∃ count, count = min n ((files.inode inum).size.toNat - off) := ⟨_, rfl⟩
  have hlen : (fileBytes files.disk (files.inode inum) off count).length = count := by
    simp [fileBytes]
  rw [← hcount, hlen]
  by_cases hrange : (files.inode inum).size.toNat < off ∨ (off + n) % 2 ^ 32 < off
  · have hzero : count = 0 := by omega
    refine ⟨files, ?_, ⟨howned, fun _ => Iff.rfl, fun _ _ _ => rfl⟩, rfl⟩
    rw [read, readi, if_pos hrange, hzero]
    simp only [Except.map, pure_eq_ok, update_eq_self]
    rfl
  · obtain ⟨disk', ip', hloop, hgrows⟩ := @readiLoop_enough sb files.inode inum
      (rangeSlots off count) count off hlive.1
      (fun position hlow hhigh => reaches_rangeSlots (by omega) hlow hhigh) count files.disk
      (files.inode inum) 0 hself hlive.2 (by rw [hcount]; exact hroom) (Nat.zero_le count)
      (Nat.sub_le count 0)
    have hn' : (if (files.inode inum).size.toNat < (off + n) % 2 ^ 32 then
        (files.inode inum).size.toNat - off else n) = count := by
      split <;> omega
    refine ⟨⟨disk', update files.inode inum ip'⟩, ?_,
      keepsOthers_update howned hgrows.layout hgrows.others hgrows.type_eq
        (by rw [hgrows.size_eq]; exact hsize), ?_⟩
    · have hread : readi sb copyToKernel files.disk (files.inode inum) [] off n =
          .ok ((count : ℤ), disk', ip', fileBytes files.disk (files.inode inum) off count) := by
        rw [readi, if_neg hrange, hn']
        exact hloop
      rw [read, hread]
      rfl
    · simp only [content, update_self, hgrows.size_eq]
      exact fileBytes_congr fun position _ _ => hgrows.content position

theorem read_refused (hn : n < 2 ^ 32)
    (hoverflow : 2 ^ 32 ≤ off + n) : read sb files inum off n = .ok (0, [], files) := by
  rw [read, readi, if_pos (by omega)]
  simp only [Except.map, pure_eq_ok, update_eq_self]

end

/-! ## Sequences of calls -/

/-- The files after a sequence of writes and reads, and the byte lists they should hold. -/
inductive History (sb : Superblock) (start : Files) : Files → (ℕ → List Byte) → Prop
  | start : History sb start start (content start)
  | write {files files' : Files} {expected : ℕ → List Byte} {inum off : ℕ}
      {data : List Byte} {source : ℕ → ℕ → Bool × List Byte} {result : ℤ} :
      History sb start files expected → Live sb files inum → Supplies source data →
      Fits files inum off data.length →
      ByteArrays.write sb files inum source off data.length = .ok (result, files') →
      History sb start files' (update expected inum (splice (expected inum) off data))
  | read {files files' : Files} {expected : ℕ → List Byte} {inum off n : ℕ}
      {bytes : List Byte} {result : ℤ} :
      History sb start files expected → Live sb files inum → n < 2 ^ 32 →
      off + n < 2 ^ 32 →
      Room sb files inum off (min n ((files.inode inum).size.toNat - off)) →
      ByteArrays.read sb files inum off n = .ok (result, bytes, files') →
      History sb start files' expected

theorem History.spec {sb : Superblock} {start files : Files} {expected : ℕ → List Byte}
    (howned : Owned sb start) (hhistory : History sb start files expected) :
    Owned sb files ∧ ∀ inum, Live sb files inum → content files inum = expected inum := by
  induction hhistory with
  | start => exact ⟨howned, fun _ _ => rfl⟩
  | @write files files' expected inum off data source result _ hlive hsource hfits hwrite
      ih =>
      obtain ⟨howned', hcontent⟩ := ih
      obtain ⟨-, hkeeps, hnew⟩ := write_spec howned' hlive hsource hfits hwrite
      refine ⟨hkeeps.owned, fun other ho => ?_⟩
      have hbefore := (hkeeps.live other).mp ho
      by_cases heq : other = inum
      · rw [heq, hnew, update_self, hcontent inum hlive]
      · rw [update_of_ne heq, hkeeps.others other heq hbefore, hcontent other hbefore]
  | @read files files' expected inum off n bytes result _ hlive hn hoverflow hroom hread
      ih =>
      obtain ⟨howned', hcontent⟩ := ih
      obtain ⟨found, hread', hkeeps, hsame⟩ := read_spec howned' hlive hn hoverflow hroom
      rw [hread, Except.ok.injEq, Prod.mk.injEq, Prod.mk.injEq] at hread'
      obtain ⟨-, -, rfl⟩ := hread'
      refine ⟨hkeeps.owned, fun other ho => ?_⟩
      have hbefore := (hkeeps.live other).mp ho
      by_cases heq : other = inum
      · rw [heq, hsame, hcontent inum hlive]
      · rw [hkeeps.others other heq hbefore, hcontent other hbefore]

/-- Files are byte arrays, after every sequence of calls: every file holds the list that
the writes before have made; a write replaces its range and changes no other file, a read
returns its range, and a range that overflows or passes the largest size is refused.  A
call returns when there are free blocks for those that its range lacks. -/
theorem files_are_byte_arrays {sb : Superblock} {start files : Files}
    {expected : ℕ → List Byte} (howned : Owned sb start)
    (hhistory : History sb start files expected) (inum : ℕ) (hlive : Live sb files inum) :
    content files inum = expected inum ∧
    (∀ off data source, Supplies source data → Fits files inum off data.length →
      (Room sb files inum off data.length → ∃ result files',
        write sb files inum source off data.length = .ok (result, files')) ∧
      ∀ result files', write sb files inum source off data.length = .ok (result, files') →
        result = data.length ∧
        content files' inum = splice (content files inum) off data ∧
        (content files' inum).length = max (content files inum).length (off + data.length) ∧
        ∀ other, other ≠ inum → Live sb files other → content files' other = content files other) ∧
    (∀ off n source, n < 2 ^ 32 → ¬Fits files inum off n →
      write sb files inum source off n = .ok (-1, files)) ∧
    (∀ off n, n < 2 ^ 32 → off + n < 2 ^ 32 →
      Room sb files inum off (min n ((files.inode inum).size.toNat - off)) →
      ∃ files', read sb files inum off n =
          .ok (((((content files inum).drop off).take n).length : ℤ),
            ((content files inum).drop off).take n, files') ∧
        ∀ other, Live sb files other → content files' other = content files other) ∧
    ∀ off n, n < 2 ^ 32 → 2 ^ 32 ≤ off + n → read sb files inum off n = .ok (0, [], files) := by
  obtain ⟨howned', hcontent⟩ := hhistory.spec howned
  refine ⟨hcontent inum hlive, ?_, ?_, ?_, ?_⟩
  · intro off data source hsource hfits
    refine ⟨fun hroom => write_returns howned' hlive source hfits hroom, ?_⟩
    intro result files' hwrite
    obtain ⟨hresult, hkeeps, hnew⟩ := write_spec howned' hlive hsource hfits hwrite
    refine ⟨hresult, hnew, ?_, hkeeps.others⟩
    rw [hnew, length_splice]
    rw [content_length]
    exact hfits.1
  · exact fun off n source hn hfits => write_refused hn hfits
  · intro off n hn hoverflow hroom
    obtain ⟨files', hread, hkeeps, hsame⟩ := read_spec howned' hlive hn hoverflow hroom
    refine ⟨files', hread, fun other hother => ?_⟩
    by_cases hequal : other = inum
    · rw [hequal, hsame]
    · exact hkeeps.others other hequal hother
  · exact fun off n hn hoverflow => read_refused hn hoverflow

/-! ## Two disks -/

def smallSuperblock (size : ℕ) (hlow : 4 ≤ size) (hhigh : size < BPB) : Superblock where
  size := size
  ninodes := 2
  inodestart := 2
  bmapstart := 3
  inodesFit := by decide
  bitmapFits := by
    rw [Nat.div_eq_of_lt hhigh]
    omega
  size_lt := lt_trans hhigh (by decide)

/-- The four blocks of metadata are marked, and inode 1 is an empty file. -/
def emptyFile : Files where
  disk := fun b position => if b = 3 ∧ position.val = 0 then 0x0f else 0
  inode := fun inum => ⟨if inum = 1 then 2 else 0, 0, 0, 1, 0, fun _ => 0⟩

theorem held_emptyFile (sb : Superblock) (position : ℕ × ℕ) :
    held sb emptyFile.disk emptyFile.inode position = none := by
  have haddr : ∀ inum index, addr (emptyFile.inode inum) index = 0 := by
    intro inum index
    rw [addr]
    split <;> rfl
  rw [held]
  split
  next =>
    rw [inodeSlot, haddr, haddr]
    split
    next => rfl
    next => simp
  next => rfl

theorem owned_emptyFile {size : ℕ} (hlow : 4 ≤ size) (hhigh : size < BPB)
    (hclear : ∀ b, 4 ≤ b → b < size →
      bitSet (smallSuperblock size hlow hhigh) emptyFile.disk b = false)
    (hset : ∀ b < 4, bitSet (smallSuperblock size hlow hhigh) emptyFile.disk b = true) :
    Owned (smallSuperblock size hlow hhigh) emptyFile := by
  have hstart : (smallSuperblock size hlow hhigh).dataStart = 4 := by
    simp only [Superblock.dataStart, smallSuperblock, Nat.div_eq_of_lt hhigh]
  refine ⟨⟨⟨?_, ?_, ?_⟩, ?_⟩, fun inum _ => ?_⟩
  · intro position b hheld
    rw [held_emptyFile] at hheld
    cases hheld
  · rintro b ⟨hdata, hsize, hused⟩
    rw [hstart] at hdata
    rw [hclear b hdata hsize] at hused
    cases hused
  · intro left right b hheld
    rw [held_emptyFile] at hheld
    cases hheld
  · intro b hb
    rw [hstart] at hb
    exact hset b hb
  · exact Nat.zero_le _

theorem live_emptyFile {size : ℕ} (hlow : 4 ≤ size) (hhigh : size < BPB) :
    Live (smallSuperblock size hlow hhigh) emptyFile 1 :=
  ⟨Nat.one_lt_two, by decide⟩

theorem owned_fullDisk : Owned (smallSuperblock 4 (by decide) (by decide)) emptyFile :=
  owned_emptyFile _ _ (fun b hb hsize => by omega) (by decide)

theorem supplies_copyFromKernel (data : List Byte) : Supplies (copyFromKernel data) data := by
  refine ⟨fun tot m => length_take_le m _, fun tot m hle => ?_⟩
  rw [copyFromKernel, Prod.mk.injEq]
  refine ⟨rfl, ext_getElem? fun index => ?_⟩
  rw [List.getElem?_take, List.getElem?_drop, List.getElem?_map]
  by_cases hi : index < m
  · rw [if_pos hi, List.getElem?_range hi,
      List.getElem?_eq_getElem (show tot + index < data.length by omega), map_some]
    dsimp only
    rw [getD_eq_getElem?_getD, List.getElem?_eq_getElem (show tot + index < data.length by omega)]
    rfl
  · rw [if_neg hi, List.getElem?_eq_none (by rw [length_range]; omega)]
    rfl

theorem write_fullDisk : write (smallSuperblock 4 (by decide) (by decide)) emptyFile 1
    (copyFromKernel [7]) 0 1 = .error .balloc := by
  have hballoc : balloc (smallSuperblock 4 (by decide) (by decide)) emptyFile.disk =
      .error .balloc := by
    have hnone : ((List.range 4).find? fun b =>
        !bitSet (smallSuperblock 4 (by decide) (by decide)) emptyFile.disk b) = none := by
      decide +kernel
    rw [balloc, show (smallSuperblock 4 (by decide) (by decide)).size = 4 from rfl, hnone]
  have hmap : bmap (smallSuperblock 4 (by decide) (by decide)) emptyFile.disk
      (emptyFile.inode 1) 0 = .error .balloc := by
    rw [bmap, if_pos (by decide), bmapAddr, if_pos (by decide), hballoc]
    rfl
  rw [write, writei, if_neg (by decide), if_neg (by decide), writeiLoop,
    if_pos (by decide), Nat.zero_div, hmap]
  rfl

/-- On a disk without a free block a write that passes all checks does not return. -/
theorem write_panics_on_a_full_disk : Owned (smallSuperblock 4 (by decide) (by decide)) emptyFile ∧
      Live (smallSuperblock 4 (by decide) (by decide)) emptyFile 1 ∧
      Supplies (copyFromKernel [7]) [7] ∧ Fits emptyFile 1 0 1 ∧
      write (smallSuperblock 4 (by decide) (by decide)) emptyFile 1 (copyFromKernel [7])
        0 1 = .error .balloc :=
  ⟨owned_fullDisk, live_emptyFile _ _, supplies_copyFromKernel [7],
    ⟨by decide, by decide⟩, write_fullDisk⟩

theorem owned_eightBlocks : Owned (smallSuperblock 8 (by decide) (by decide)) emptyFile :=
  owned_emptyFile _ _ (by decide +kernel) (by decide)

theorem room_eightBlocks : Room (smallSuperblock 8 (by decide) (by decide)) emptyFile 1 0 2 := by
  have hmissing : (missing (rangeSlots 0 2) emptyFile.disk (emptyFile.inode 1)).card ≤ 1 := by
    have hslots : rangeSlots 0 2 = {0} := by decide +kernel
    rw [hslots]
    exact Finset.card_filter_le _ _
  have hfree : 1 ≤ (freeBlocks (smallSuperblock 8 (by decide) (by decide))
      emptyFile.disk).card := by
    decide +kernel
  exact hmissing.trans hfree

theorem files_are_byte_arrays_small :
    ∃ result files', write (smallSuperblock 8 (by decide) (by decide)) emptyFile 1
        (copyFromKernel [7, 9]) 0 2 = .ok (result, files') ∧ result = 2 ∧
      content files' 1 = [7, 9] := by
  have hlive := live_emptyFile (show 4 ≤ 8 by decide) (show 8 < BPB by decide)
  obtain ⟨-, hwrite, -⟩ := files_are_byte_arrays owned_eightBlocks History.start 1 hlive
  obtain ⟨hreturns, hspec⟩ := hwrite 0 [7, 9] (copyFromKernel [7, 9])
    (supplies_copyFromKernel [7, 9]) ⟨by decide, by decide⟩
  obtain ⟨result, files', hfiles⟩ := hreturns room_eightBlocks
  obtain ⟨hresult, hcontent, -⟩ := hspec result files' hfiles
  refine ⟨result, files', hfiles, hresult, ?_⟩
  rw [hcontent]
  rfl

end Xv6.ByteArrays
