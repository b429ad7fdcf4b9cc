import Xv6.Fs.ByteArrays

/-!
# The transactions of `filewrite`

`filewrite` cuts a write into chunks, each a transaction of its own, and reserves
`MAXOPBLOCKS` blocks of the log for each.  The functions below list the blocks that one
transaction passes to `log_write`.  A new data block costs itself and its bitmap block; the
indirect block is logged at most once more, with one bitmap block if it is new.  A chunk
that starts inside of a block reaches one block more, but then the first block is there.
-/

namespace Xv6.WriteReservation

open LittleEndian DiskLog DiskFormat InodeContent BlockOwnership FileContent ReadWrite List
open FileSystem ByteArrays Outcome Function

variable {off b index bn n : ℕ} {panic : Panic} {source : ℕ → ℕ → Bool × List Byte}

/-! ## The calls of `log_write` -/

/-- `balloc` logs the bitmap block, and `bzero` the new block. -/
def ballocLog (sb : Superblock) (disk : Disk) : List ℕ :=
  match balloc sb disk with
  | .ok (b, _) => [BBLOCK sb b, b]
  | .error _ => []

def bmapAddrLog (sb : Superblock) (disk : Disk) (ip : Dinode) (index : ℕ) : List ℕ :=
  if addr ip index = 0 then ballocLog sb disk else []

/-- `bmap` also logs the indirect block when it stores an entry. -/
def bmapLog (sb : Superblock) (disk : Disk) (ip : Dinode) (bn : ℕ) : List ℕ :=
  if bn < NDIRECT then
    bmapAddrLog sb disk ip bn
  else if bn - NDIRECT < NINDIRECT then
    bmapAddrLog sb disk ip NDIRECT ++
      match bmapAddr sb disk ip NDIRECT with
      | .ok (indirect, disk, _) =>
        if indirectEntry (disk indirect) (bn - NDIRECT) = 0 then
          match balloc sb disk with
          | .ok _ => ballocLog sb disk ++ [indirect]
          | .error _ => []
        else []
      | .error _ => []
  else []

/-- The loop of `writei`; a block is not logged when its copy fails. -/
def writeiLoopLog (sb : Superblock) (source : ℕ → ℕ → Bool × List Byte) (n : ℕ) :
    ℕ → Disk → Dinode → ℕ → ℕ → List ℕ
  | 0, _, _, _, _ => []
  | fuel + 1, disk, ip, tot, off =>
    if tot < n then
      bmapLog sb disk ip (off / BSIZE) ++
        match bmap sb disk ip (off / BSIZE) with
        | .ok (b, disk, ip) =>
          let m := min (n - tot) (BSIZE - off % BSIZE)
          let (complete, bytes) := source tot m
          let disk := update disk b (overwrite (disk b) (off % BSIZE) bytes)
          if complete then
            b :: writeiLoopLog sb source n fuel disk ip (tot + m) (off + m)
          else []
        | .error _ => []
    else []

def writeiLog (sb : Superblock) (source : ℕ → ℕ → Bool × List Byte) (disk : Disk)
    (inum : ℕ) (ip : Dinode) (off n : ℕ) : List ℕ :=
  if ip.size.toNat < off ∨ (off + n) % 2 ^ 32 < off then []
  else if MAXFILE * BSIZE < (off + n) % 2 ^ 32 then []
  else
    writeiLoopLog sb source n n disk ip 0 off ++
      match writeiLoop sb source n n disk ip 0 off with
      | .ok _ => [IBLOCK sb inum]
      | .error _ => []

def maxChunk : ℕ := (MAXOPBLOCKS - 1 - 1 - 2) / 2 * BSIZE

/-- The loop of `filewrite`: the blocks logged by each of its transactions. -/
def filewriteLoop (sb : Superblock) (source : ℕ → ℕ → Bool × List Byte)
    (inum n : ℕ) : ℕ → Disk → Dinode → ℕ → ℕ → List (List ℕ)
  | 0, _, _, _, _ => []
  | fuel + 1, disk, ip, off, i =>
    if i < n then
      let n1 := min (n - i) maxChunk
      let chunk := fun tot m => source (i + tot) m
      writeiLog sb chunk disk inum ip off n1 ::
        match writei sb chunk disk inum ip off n1 with
        | .ok (r, disk, ip) =>
          if r = n1 then
            filewriteLoop sb source inum n fuel disk ip (off + n1) (i + n1)
          else []
        | .error _ => []
    else []

/-- `filewrite` of an inode; `n` is an `int`, and every iteration that does not end the
loop writes at least one byte. -/
def filewriteLog (sb : Superblock) (source : ℕ → ℕ → Bool × List Byte) (disk : Disk)
    (inum : ℕ) (ip : Dinode) (off : ℕ) (n : ℤ) : List (List ℕ) :=
  filewriteLoop sb source inum n.toNat n.toNat disk ip off 0

theorem maxChunk_eq : maxChunk = 3072 := rfl

/-! ## The blocks of one transaction -/

/-- The indirect block, and its bitmap block if it is still to be allocated. -/
def indirectBlocks (sb : Superblock) (ip : Dinode) (new : ℕ) : Finset ℕ :=
  if addr ip NDIRECT = 0 then {BBLOCK sb new, new} else {(addr ip NDIRECT).toNat}

/-- A block of the file, and its bitmap block if the file lacks it. -/
def dataBlocks (sb : Superblock) (disk : Disk) (ip : Dinode) (bn b : ℕ) : Finset ℕ :=
  if fileBlock disk ip bn = none then {BBLOCK sb b, b} else {b}

def touched (off left : ℕ) : Finset ℕ :=
  if left = 0 then ∅ else Finset.Icc (off / BSIZE) ((off + left - 1) / BSIZE)

def absent (disk : Disk) (ip : Dinode) (off left : ℕ) : Finset ℕ :=
  (touched off left).filter fun bn => fileBlock disk ip bn = none

theorem card_indirectBlocks (sb : Superblock) (ip : Dinode) (new : ℕ) :
    (indirectBlocks sb ip new).card ≤ 2 := by
  rw [indirectBlocks]
  split
  · exact Finset.card_le_two
  · rw [Finset.card_singleton]
    omega

theorem card_dataBlocks (sb : Superblock) (disk : Disk) (ip : Dinode) (bn b : ℕ) :
    (dataBlocks sb disk ip bn b).card ≤ 1 + if fileBlock disk ip bn = none then 1 else 0 := by
  rw [dataBlocks]
  split
  · exact Finset.card_le_two
  · exact (Finset.card_singleton b).le

theorem mem_dataBlocks (sb : Superblock) (disk : Disk) (ip : Dinode) (bn b : ℕ) :
    b ∈ dataBlocks sb disk ip bn b := by
  rw [dataBlocks]
  split <;> simp

theorem touched_step {left m : ℕ} (hleft : 0 < left) (hm : m = min left (BSIZE - off % BSIZE)) :
    touched off left = insert (off / BSIZE) (touched (off + m) (left - m)) ∧
      off / BSIZE ∉ touched (off + m) (left - m) := by
  simp only [BSIZE_eq] at hm
  rw [touched, if_neg (by omega), touched]
  by_cases hlast : left - m = 0
  · rw [if_pos hlast]
    have hsame : (off + left - 1) / BSIZE = off / BSIZE := by
      simp only [BSIZE_eq]
      omega
    rw [hsame, Finset.Icc_self]
    exact ⟨rfl, Finset.notMem_empty _⟩
  · rw [if_neg hlast]
    have hend : off + m + (left - m) - 1 = off + left - 1 := by omega
    have hnext : (off + m) / BSIZE = off / BSIZE + 1 := by
      simp only [BSIZE_eq]
      omega
    have hle : off / BSIZE ≤ (off + left - 1) / BSIZE := Nat.div_le_div_right (by omega)
    rw [hend, hnext]
    refine ⟨?_, ?_⟩
    · ext bn
      simp only [Finset.mem_insert, Finset.mem_Icc]
      omega
    · simp only [Finset.mem_Icc]
      omega

section
variable {sb : Superblock} {cur : ℕ → Dinode} {inum : ℕ} {disk disk' : Disk} {ip ip' : Dinode}

theorem ballocLog_of_ok (hballoc : balloc sb disk = .ok (b, disk')) :
    ballocLog sb disk = [BBLOCK sb b, b] := by
  rw [ballocLog, hballoc]

theorem fileBlock_of_indirect {bn : ℕ} (hbn : ¬bn < NDIRECT) (hnil : addr ip NDIRECT = 0 ∨
      indirectEntry (disk (addr ip NDIRECT).toNat) (bn - NDIRECT) = 0) :
    fileBlock disk ip bn = none := by
  rw [fileBlock, blockSlot, if_neg hbn, inodeSlot, if_neg (by omega)]
  split
  next => rfl
  next hpres =>
    rw [not_or] at hpres
    have hi : bn + 1 - (NDIRECT + 1) = bn - NDIRECT := by omega
    rw [hi]
    exact pointer_eq_none.mpr (hnil.resolve_left hpres.1)

theorem bmapAddrLog_of_error (hmap : bmapAddr sb disk ip index = .error panic) :
    bmapAddrLog sb disk ip index = [] := by
  rw [bmapAddr] at hmap
  rw [bmapAddrLog]
  split at hmap
  case isFalse => cases hmap
  case isTrue hnil =>
    rw [if_pos hnil, ballocLog]
    cases hballoc : balloc sb disk with
    | ok found =>
      rw [hballoc] at hmap
      cases hmap
    | error => rfl

theorem bmapAddrLog_of_ok (hmap : bmapAddr sb disk ip index = .ok (b, disk', ip')) :
    (addr ip index = 0 ∧ bmapAddrLog sb disk ip index = [BBLOCK sb b, b] ∧
        balloc sb disk = .ok (b, disk') ∧ ip' = setAddr ip index (BitVec.ofNat 32 b)) ∨
      (addr ip index ≠ 0 ∧ bmapAddrLog sb disk ip index = [] ∧
        b = (addr ip index).toNat ∧ disk' = disk ∧ ip' = ip) := by
  rw [bmapAddr] at hmap
  rw [bmapAddrLog]
  split at hmap
  case isTrue hnil =>
    obtain ⟨⟨found, middle⟩, hballoc, hrest⟩ := bind_eq_ok.mp hmap
    cases hrest
    rw [if_pos hnil]
    exact Or.inl ⟨hnil, ballocLog_of_ok hballoc, hballoc, rfl⟩
  case isFalse hfull =>
    cases hmap
    rw [if_neg hfull]
    exact Or.inr ⟨hfull, rfl, rfl, rfl, rfl⟩

theorem bmapLog_of_error (hmap : bmap sb disk ip bn = .error panic) :
    ∃ new, ∀ c ∈ bmapLog sb disk ip bn, c ∈ indirectBlocks sb ip new := by
  rw [bmap] at hmap
  rw [bmapLog]
  split at hmap
  case isTrue hdirect =>
    rw [if_pos hdirect, bmapAddrLog_of_error hmap]
    exact ⟨0, fun c hc => absurd hc not_mem_nil⟩
  case isFalse hdirect =>
    rw [if_neg hdirect]
    split at hmap
    case isFalse hrange =>
      rw [if_neg hrange]
      exact ⟨0, fun c hc => absurd hc not_mem_nil⟩
    case isTrue hrange =>
      rw [if_pos hrange]
      cases haddr : bmapAddr sb disk ip NDIRECT with
      | error =>
        rw [bmapAddrLog_of_error haddr]
        exact ⟨0, fun c hc => absurd hc not_mem_nil⟩
      | ok found =>
        obtain ⟨indirect, disk₁, ip₁⟩ := found
        rw [haddr, ok_bind] at hmap
        dsimp only at hmap ⊢
        split at hmap
        case isFalse => cases hmap
        case isTrue he =>
          rw [if_pos he]
          cases hballoc : balloc sb disk₁ with
          | ok found =>
            rw [hballoc] at hmap
            cases hmap
          | error =>
            rw [append_nil]
            refine ⟨indirect, fun c hc => ?_⟩
            rcases bmapAddrLog_of_ok haddr with ⟨hnil, hlog, -⟩ | ⟨-, hlog, -⟩
            · rw [hlog] at hc
              rw [indirectBlocks, if_pos hnil]
              simpa using hc
            · rw [hlog] at hc
              cases hc

variable (hlayout : Layout sb disk (update cur inum ip))
  (hinum : inum < sb.ninodes) (htype : ip.type ≠ 0)
include hlayout

theorem addr_of_balloc {b : ℕ} (hballoc : balloc sb disk = .ok (b, disk')) :
    addr (setAddr ip NDIRECT (BitVec.ofNat 32 b)) NDIRECT ≠ 0 ∧
      (addr (setAddr ip NDIRECT (BitVec.ofNat 32 b)) NDIRECT).toNat = b := by
  have halloc := balloc_spec hlayout.metadata hballoc
  rw [addr_setAddr ip _ (Nat.lt_succ_self NDIRECT), if_pos rfl]
  exact eq_of_pointer (pointer_ofNat sb halloc.low halloc.high)

/-- What `bmap` logs: the block and its bitmap block if it is new, and the blocks of the
indirect block.  The indirect block of the inode it leaves is among them. -/
theorem bmapLog_of_ok (hmap : bmap sb disk ip bn = .ok (b, disk', ip')) (later : ℕ) :
    ∃ new, indirectBlocks sb ip' later ⊆ indirectBlocks sb ip new ∧ ∀ c ∈ bmapLog sb disk ip bn,
        c ∈ dataBlocks sb disk ip bn b ∨ c ∈ indirectBlocks sb ip new := by
  rw [bmap] at hmap
  rw [bmapLog]
  split at hmap
  case isTrue hdirect =>
    rw [if_pos hdirect]
    rcases bmapAddrLog_of_ok hmap with ⟨hnil, hlog, -, rfl⟩ | ⟨-, hlog, -, -, rfl⟩
    · have hindir : addr (setAddr ip bn (BitVec.ofNat 32 b)) NDIRECT =
          addr ip NDIRECT := by
        rw [addr_setAddr ip _ (Nat.lt_succ_of_lt hdirect), if_neg (by omega)]
      have hnone : fileBlock disk ip bn = none := by
        rw [fileBlock, blockSlot, if_pos hdirect,
          inodeSlot_addr disk ip (Nat.lt_succ_of_lt hdirect)]
        exact pointer_eq_none.mpr hnil
      refine ⟨later, ?_, fun c hc => Or.inl ?_⟩
      · rw [indirectBlocks, indirectBlocks, hindir]
      · rw [hlog] at hc
        rw [dataBlocks, if_pos hnone]
        simpa using hc
    · refine ⟨later, Finset.Subset.refl _, fun c hc => ?_⟩
      rw [hlog] at hc
      cases hc
  case isFalse hdirect =>
    rw [if_neg hdirect]
    split at hmap
    case isFalse => cases hmap
    case isTrue hrange =>
      rw [if_pos hrange]
      obtain ⟨⟨indirect, disk₁, ip₁⟩, haddr, hrest⟩ := bind_eq_ok.mp hmap
      dsimp only at hrest
      have hip : ip' = ip₁ := by
        split at hrest
        case isTrue =>
          obtain ⟨⟨found, middle⟩, -, hlast⟩ := bind_eq_ok.mp hrest
          cases hlast
          rfl
        case isFalse =>
          cases hrest
          rfl
      -- The entry part: a new block, its bitmap block and the indirect block.
      have hentries : ∀ c, c ∈ (if indirectEntry (disk₁ indirect) (bn - NDIRECT) = 0 then
            match balloc sb disk₁ with
            | .ok _ => ballocLog sb disk₁ ++ [indirect]
            | .error _ => []
          else []) →
          indirectEntry (disk₁ indirect) (bn - NDIRECT) = 0 ∧
            (c ∈ ({BBLOCK sb b, b} : Finset ℕ) ∨ c = indirect) := by
        intro c hc
        split at hc
        case isFalse => cases hc
        case isTrue he =>
          rw [if_pos he] at hrest
          obtain ⟨⟨found, middle⟩, hballoc, hlast⟩ := bind_eq_ok.mp hrest
          cases hlast
          rw [hballoc, ballocLog_of_ok hballoc, mem_append, mem_singleton] at hc
          exact ⟨he, hc.imp_left fun hmem => by simpa using hmem⟩
      rw [haddr]
      dsimp only
      rcases bmapAddrLog_of_ok haddr with
        ⟨hnil, hlog, hballoc, hset⟩ | ⟨hfull, hlog, hindir, hdisk, hset⟩
      · obtain ⟨hne, hvalue⟩ := @addr_of_balloc sb cur inum disk disk₁ ip hlayout indirect hballoc
        have hnone := @fileBlock_of_indirect disk ip bn hdirect (Or.inl hnil)
        refine ⟨indirect, ?_, fun c hc => ?_⟩
        · rw [hip, hset, indirectBlocks, if_neg hne, hvalue, indirectBlocks, if_pos hnil]
          exact Finset.singleton_subset_iff.mpr (by simp)
        · rw [hlog, mem_append] at hc
          rw [dataBlocks, if_pos hnone, indirectBlocks, if_pos hnil]
          rcases hc with hc | hc
          · exact Or.inr (by simpa using hc)
          · exact (hentries c hc).2.imp_right fun heq => by simp [heq]
      · refine ⟨later, ?_, fun c hc => ?_⟩
        · rw [hip, hset]
        · rw [hlog, nil_append] at hc
          obtain ⟨he, hc⟩ := hentries c hc
          rw [hdisk, hindir] at he
          have hnone := fileBlock_of_indirect hdirect (Or.inr he)
          rw [dataBlocks, if_pos hnone, indirectBlocks, if_neg hfull, Finset.mem_singleton,
            ← hindir]
          exact hc

include hinum htype

theorem absent_step {off left m b : ℕ} {data : Block} (hleft : 0 < left)
    (hm : m = min left (BSIZE - off % BSIZE))
    (hmap : bmap sb disk ip (off / BSIZE) = .ok (b, disk', ip')) :
    (absent (update disk' b data) ip' (off + m) (left - m)).card +
        (if fileBlock disk ip (off / BSIZE) = none then 1 else 0) ≤
      (absent disk ip off left).card := by
  obtain ⟨hinsert, hnot⟩ := touched_step hleft hm
  obtain ⟨hgrows, hb⟩ := bmap_spec hlayout hinum htype hmap
  have htype' : ip'.type ≠ 0 := hgrows.type_eq ▸ htype
  have hsubset : absent (update disk' b data) ip' (off + m) (left - m) ⊆
      absent disk ip (off + m) (left - m) := by
    refine Finset.monotone_filter_right _ fun bn _ hnone => ?_
    rw [fileBlock, inodeSlot_store hgrows.layout hinum htype' hb] at hnone
    cases hold : fileBlock disk ip bn with
    | none => rfl
    | some c =>
      have hkept := hgrows.blocks bn c hold
      rw [fileBlock, hnone] at hkept
      cases hkept
  have hcard := Finset.card_le_card hsubset
  have hout : off / BSIZE ∉ absent disk ip (off + m) (left - m) :=
    fun hmem => hnot (Finset.mem_filter.mp hmem).1
  have hwhole : absent disk ip off left =
      if fileBlock disk ip (off / BSIZE) = none then
        insert (off / BSIZE) (absent disk ip (off + m) (left - m))
      else absent disk ip (off + m) (left - m) := by
    rw [absent, hinsert, Finset.filter_insert]
    rfl
  rw [hwhole]
  split
  next =>
    rw [Finset.card_insert_of_notMem hout]
    exact Nat.add_le_add_right hcard 1
  next => exact hcard

omit hlayout htype

/-- The loop of `writei` logs one block for each block of the range and one more for each
that the file lacks, apart from the indirect block. -/
theorem writeiLoopLog_blocks {source : ℕ → ℕ → Bool × List Byte} {n : ℕ} (fuel : ℕ) :
    ∀ (disk : Disk) (ip : Dinode) (tot off : ℕ), Layout sb disk (update cur inum ip) → ip.type ≠ 0 →
      ∃ (blocks : Finset ℕ) (new : ℕ),
        blocks.card ≤ (touched off (n - tot)).card + (absent disk ip off (n - tot)).card ∧
        ∀ c ∈ writeiLoopLog sb source n fuel disk ip tot off,
          c ∈ blocks ∨ c ∈ indirectBlocks sb ip new := by
  induction fuel with
  | zero =>
    intro disk ip tot off _ _
    exact ⟨∅, 0, Nat.zero_le _, fun c hc => absurd hc not_mem_nil⟩
  | succ fuel ih =>
    intro disk ip tot off hlayout htype
    rw [writeiLoopLog]
    by_cases hleft : tot < n
    case neg =>
      rw [if_neg hleft]
      exact ⟨∅, 0, Nat.zero_le _, fun c hc => absurd hc not_mem_nil⟩
    case pos =>
      rw [if_pos hleft]
      cases hmap : bmap sb disk ip (off / BSIZE) with
      | error panic =>
        obtain ⟨new, hlog⟩ := bmapLog_of_error hmap
        refine ⟨∅, new, Nat.zero_le _, fun c hc => Or.inr (hlog c ?_)⟩
        simpa using hc
      | ok found =>
        obtain ⟨b, disk₁, ip₁⟩ := found
        dsimp only
        obtain ⟨m, hm⟩ : ∃ m, m = min (n - tot) (BSIZE - off % BSIZE) := ⟨_, rfl⟩
        rw [← hm]
        have hgrows := (bmap_spec hlayout hinum htype hmap).1
        have hb := (bmap_spec hlayout hinum htype hmap).2
        have htype₁ : ip₁.type ≠ 0 := hgrows.type_eq ▸ htype
        obtain ⟨hinsert, hnot⟩ := touched_step (show 0 < n - tot by omega) hm
        have htouched : (touched off (n - tot)).card =
            (touched (off + m) (n - tot - m)).card + 1 := by
          rw [hinsert, Finset.card_insert_of_notMem hnot]
        obtain ⟨rest, later, hrest, hlater⟩ := ih (update disk₁ b
            (overwrite (disk₁ b) (off % BSIZE) (source tot m).2)) ip₁ (tot + m)
          (off + m) (layout_store hgrows.layout hinum htype₁ hb _) htype₁
        rw [show n - (tot + m) = n - tot - m by omega] at hrest
        obtain ⟨new, hsubset, hlog⟩ := bmapLog_of_ok hlayout hmap later
        have habsent := @absent_step sb cur inum disk disk₁ ip ip₁ hlayout hinum htype
          off (n - tot) m b (overwrite (disk₁ b) (off % BSIZE) (source tot m).2)
          (by omega) hm hmap
        have hdata := card_dataBlocks sb disk ip (off / BSIZE) b
        have hunion := Finset.card_union_le (dataBlocks sb disk ip (off / BSIZE) b) rest
        refine ⟨dataBlocks sb disk ip (off / BSIZE) b ∪ rest, new, by omega, fun c hc => ?_⟩
        rw [Finset.mem_union]
        rcases mem_append.mp hc with hc | hc
        · exact (hlog c hc).imp_left Or.inl
        · split at hc
          case isFalse => cases hc
          case isTrue =>
            rcases mem_cons.mp hc with rfl | hc
            · exact Or.inl (Or.inl (mem_dataBlocks sb disk ip _ c))
            · exact (hlater c hc).imp Or.inr fun hmem => hsubset hmem

omit hinum

/-- A chunk reaches four blocks if it starts inside of one, and that one is there;
otherwise it reaches three. -/
theorem card_touched_absent (hcovered : Covered disk ip)
    (hoff : off ≤ ip.size.toNat) (hn : n ≤ maxChunk) :
    (touched off n).card + (absent disk ip off n).card ≤ 7 := by
  have hle : (absent disk ip off n).card ≤ (touched off n).card := Finset.card_filter_le _ _
  rw [maxChunk_eq] at hn
  by_cases hzero : n = 0
  · have hnone : (touched off n).card = 0 := by rw [touched, if_pos hzero, Finset.card_empty]
    omega
  have hcard : (touched off n).card = (off + n - 1) / BSIZE + 1 - off / BSIZE := by
    rw [touched, if_neg hzero, Nat.card_Icc]
  simp only [BSIZE_eq] at hcard
  by_cases halign : off % 1024 = 0
  · omega
  · -- The block of the byte before `off` lies below the size of the file.
    have hfst : (fileBlock disk ip (off / BSIZE)).isSome := by
      have hsame : (off - 1) / BSIZE = off / BSIZE := by
        simp only [BSIZE_eq]
        omega
      rw [← hsame]
      exact hcovered (off - 1) (by omega)
    have hmem : off / BSIZE ∈ touched off n := by
      rw [touched, if_neg hzero, Finset.mem_Icc]
      exact ⟨Nat.le_refl _, Nat.div_le_div_right (by omega)⟩
    have hstrict : (absent disk ip off n).card < (touched off n).card := by
      refine Finset.card_lt_card (Finset.filter_ssubset.mpr ⟨_, hmem, ?_⟩)
      intro hnone
      rw [hnone] at hfst
      cases hfst
    omega

theorem card_writeiLog (hlayout : Layout sb disk (update cur inum ip))
    (hinum : inum < sb.ninodes) (htype : ip.type ≠ 0) (hcovered : Covered disk ip)
    (source : ℕ → ℕ → Bool × List Byte) (hn : n ≤ maxChunk) :
    (writeiLog sb source disk inum ip off n).toFinset.card ≤ MAXOPBLOCKS := by
  rw [writeiLog]
  by_cases hrange : ip.size.toNat < off ∨ (off + n) % 2 ^ 32 < off
  · rw [if_pos hrange]
    exact Nat.zero_le _
  rw [if_neg hrange]
  split
  next => exact Nat.zero_le _
  next =>
    obtain ⟨blocks, new, hcard, hlog⟩ := @writeiLoopLog_blocks sb cur inum hinum source n n
      disk ip 0 off hlayout htype
    have hbound := card_touched_absent hcovered (show off ≤ ip.size.toNat by omega) hn
    have hsubset : (writeiLoopLog sb source n n disk ip 0 off ++
        (match writeiLoop sb source n n disk ip 0 off with
          | .ok _ => [IBLOCK sb inum]
          | .error _ => [])).toFinset ⊆
        insert (IBLOCK sb inum) (blocks ∪ indirectBlocks sb ip new) := by
      intro c hc
      rw [mem_toFinset, mem_append] at hc
      rcases hc with hc | hc
      · exact Finset.mem_insert_of_mem (Finset.mem_union.mpr (hlog c hc))
      · split at hc
        next =>
          rw [mem_singleton.mp hc]
          exact Finset.mem_insert_self _ _
        next => cases hc
    calc _ ≤ (insert (IBLOCK sb inum) (blocks ∪ indirectBlocks sb ip new)).card :=
          Finset.card_le_card hsubset
      _ ≤ (blocks ∪ indirectBlocks sb ip new).card + 1 := Finset.card_insert_le _ _
      _ ≤ blocks.card + (indirectBlocks sb ip new).card + 1 :=
          Nat.add_le_add_right (Finset.card_union_le _ _) 1
      _ ≤ MAXOPBLOCKS := by
          have hindir := card_indirectBlocks sb ip new
          rw [Nat.sub_zero] at hcard
          simp only [MAXOPBLOCKS]
          omega

theorem writei_covered (hlayout : Layout sb disk (update cur inum ip))
    (hinum : inum < sb.ninodes) (htype : ip.type ≠ 0) (hcovered : Covered disk ip)
    (hbounded : Bounded source) (hn : n < 2 ^ 32) {result : ℤ}
    (hwritei : writei sb source disk inum ip off n = .ok (result, disk', ip')) :
    Layout sb disk' (update cur inum ip') ∧ ip'.type ≠ 0 ∧ Covered disk' ip' := by
  rcases writei_spec hbounded hlayout hinum htype hn hwritei with
    ⟨-, rfl, rfl⟩ | ⟨middle, copy, tot, hwrote, -, rfl, rfl, hoff, hfits⟩
  · exact ⟨hlayout, htype, hcovered⟩
  · have hwritten := hwrote.written
    have htype' : (extended copy (off + tot)).type ≠ 0 := by
      rw [extended_type, hwritten.type_eq]
      exact htype
    have hlayout' := layout_fields hwritten.layout (by rw [extended_type])
      (extended_addrs copy (off + tot))
    have hcovered' := covered_written hcovered hwrote hoff hfits
    refine ⟨(iupdate_layout hinum htype' hlayout').1, htype', fun position hpos => ?_⟩
    have hsame := (@file_congr middle _ (extended copy (off + tot)) fun slot b hslot =>
      @iupdate_above sb inum middle hinum (extended copy (off + tot)) b
        ((bmapstart_lt_dataStart sb).le.trans (hlayout'.used_slot hinum htype' hslot).1)).1
    rw [hsame]
    exact hcovered' position hpos

theorem filewriteLoop_fits (hinum : inum < sb.ninodes) (hbounded : Bounded source) (n fuel : ℕ) :
    ∀ (disk : Disk) (ip : Dinode) (off i : ℕ),
      Layout sb disk (update cur inum ip) → ip.type ≠ 0 → Covered disk ip →
      ∀ log ∈ filewriteLoop sb source inum n fuel disk ip off i,
        log.toFinset.card ≤ MAXOPBLOCKS := by
  induction fuel with
  | zero =>
    intro disk ip off i _ _ _ log hlog
    cases hlog
  | succ fuel ih =>
    intro disk ip off i hlayout htype hcovered log hlog
    rw [filewriteLoop] at hlog
    split at hlog
    case isFalse => cases hlog
    case isTrue hleft =>
      dsimp only at hlog
      have hchunk : min (n - i) maxChunk ≤ maxChunk := Nat.min_le_right _ _
      have hsource : Bounded fun tot m => source (i + tot) m := fun tot m => hbounded (i + tot) m
      rcases mem_cons.mp hlog with rfl | hlog
      · exact card_writeiLog hlayout hinum htype hcovered _ hchunk
      · split at hlog
        next r disk' ip' hwritei =>
          obtain ⟨hlayout', htype', hcovered'⟩ := writei_covered hlayout hinum htype
            hcovered hsource (hchunk.trans_lt (by decide)) hwritei
          split at hlog
          next => exact ih disk' ip' _ _ hlayout' htype' hcovered' log hlog
          next => cases hlog
        next => cases hlog

end

/-- Every transaction of `filewrite` stays inside of its reservation: for every file
without holes, every offset (past the size `writei` refuses the chunk) and every
length. -/
theorem filewrite_fits_reservation (sb : Superblock) (files : Files) (inum : ℕ)
    (howned : Layout sb files.disk files.inode) (hlive : Live sb files inum)
    (hcovered : Covered files.disk (files.inode inum))
    (source : ℕ → ℕ → Bool × List Byte) (hbounded : Bounded source) (off : ℕ) (n : ℤ) :
    ∀ log ∈ filewriteLog sb source files.disk inum (files.inode inum) off n,
      log.toFinset.card ≤ MAXOPBLOCKS := by
  have hself := howned
  rw [← update_eq_self inum files.inode] at hself
  exact filewriteLoop_fits hlive.1 hbounded n.toNat n.toNat files.disk _ off 0 hself hlive.2
    hcovered

/-- An empty file gets 3073 bytes in two transactions. -/
theorem filewrite_fits_reservation_twice :
    filewriteLog (smallSuperblock 12 (by decide) (by decide))
        (copyFromKernel (List.replicate 3073 7)) emptyFile.disk 1 (emptyFile.inode 1) 0 3073 =
      [[3, 4, 4, 3, 5, 5, 3, 6, 6, 2], [3, 7, 7, 2]] ∧
    ∀ log ∈ filewriteLog (smallSuperblock 12 (by decide) (by decide))
        (copyFromKernel (List.replicate 3073 7)) emptyFile.disk 1 (emptyFile.inode 1) 0 3073,
      log.toFinset.card ≤ MAXOPBLOCKS := by
  refine ⟨by decide +kernel, ?_⟩
  have howned := @owned_emptyFile 12 (by decide) (by decide) (by decide +kernel) (by decide +kernel)
  exact filewrite_fits_reservation _ emptyFile 1 howned.layout (live_emptyFile _ _)
    (fun position hposition => absurd hposition (Nat.not_lt_zero _)) _
    (supplies_copyFromKernel _).1 0 3073

end Xv6.WriteReservation
