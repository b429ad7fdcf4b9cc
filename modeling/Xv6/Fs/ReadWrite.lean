import Xv6.Fs.FileContent

/-!
# Reading and writing files

Specifications of `readi` and `writei` in terms of the bytes of the file.
-/

namespace Xv6.ReadWrite

open LittleEndian DiskLog DiskFormat InodeContent BlockOwnership FileContent Outcome Function

variable {off count position limit reached b n tot : ℕ} {bytes : List Byte}
  {source : ℕ → ℕ → Bool × List Byte} {disk : Disk} {ip : Dinode}

/-! ## Writing -/

/-- The inode may have gained blocks, and the file may have changed between
`off` and `limit`; the blocks from `off` to `reached` are there. -/
structure Written (sb : Superblock) (cur : ℕ → Dinode) (inum : ℕ)
    (disk disk' : Disk) (ip ip' : Dinode) (off reached limit : ℕ) : Prop where
  layout : Layout sb disk' (update cur inum ip')
  others : OthersKept sb cur inum disk disk'
  inodes : ∀ c < sb.bmapstart, disk' c = disk c
  fields : ∃ addrs, ip' = { ip with addrs := addrs }
  blocks : ∀ bn b, fileBlock disk ip bn = some b → fileBlock disk' ip' bn = some b
  mapped : ∀ position, off ≤ position → position < reached →
    (fileBlock disk' ip' (position / BSIZE)).isSome
  content : ∀ position, position < off ∨ limit ≤ position →
    fileByte disk' ip' position = fileByte disk ip position

theorem same_block_iff (hcount : count ≤ BSIZE - off % BSIZE) :
    (position / BSIZE = off / BSIZE ∧ off % BSIZE ≤ position % BSIZE ∧
        position % BSIZE < off % BSIZE + count) ↔ off ≤ position ∧ position < off + count := by
  simp only [BSIZE_eq] at *
  omega

theorem block_of_chunk (hcount : count ≤ BSIZE - off % BSIZE) (hlow : off ≤ position)
    (hhigh : position < off + count) : position / BSIZE = off / BSIZE :=
  ((same_block_iff hcount).mpr ⟨hlow, hhigh⟩).1

section
variable {sb : Superblock} {cur : ℕ → Dinode} {inum : ℕ}
  {disk disk' disk'' : Disk} {ip ip' ip'' : Dinode}

theorem Written.refl (hlayout : Layout sb disk (update cur inum ip)) :
    Written sb cur inum disk disk ip ip off off limit where
  layout := hlayout
  others := OthersKept.refl sb cur inum disk
  inodes _ _ := rfl
  fields := ⟨ip.addrs, rfl⟩
  blocks _ _ hb := hb
  mapped _ hlow hhigh := absurd hhigh (Nat.not_lt_of_le hlow)
  content _ _ := rfl

theorem Written.trans {middle : ℕ} (hmiddle : off ≤ middle)
    (hfst : Written sb cur inum disk disk' ip ip' off middle limit)
    (hsnd : Written sb cur inum disk' disk'' ip' ip'' middle reached limit) :
    Written sb cur inum disk disk'' ip ip'' off reached limit where
  layout := hsnd.layout
  others := hfst.others.trans hsnd.others
  inodes c hc := (hsnd.inodes c hc).trans (hfst.inodes c hc)
  fields := by
    obtain ⟨_, rfl⟩ := hfst.fields
    obtain ⟨addrs, rfl⟩ := hsnd.fields
    exact ⟨addrs, rfl⟩
  blocks bn b hb := hsnd.blocks bn b (hfst.blocks bn b hb)
  mapped position hlow hhigh := by
    by_cases hsplit : position < middle
    · obtain ⟨b, hb⟩ := Option.isSome_iff_exists.mp (hfst.mapped position hlow hsplit)
      rw [hsnd.blocks _ b hb]
      rfl
    · exact hsnd.mapped position (Nat.le_of_not_lt hsplit) hhigh
  content position hpos := by rw [hsnd.content position (by omega), hfst.content position hpos]

theorem Written.stopped {stopped : ℕ}
    (hwritten : Written sb cur inum disk disk' ip ip' off reached limit)
    (hstopped : stopped ≤ reached) : Written sb cur inum disk disk' ip ip' off stopped limit :=
  { hwritten with
    mapped := fun position hlow hhigh => hwritten.mapped position hlow (hhigh.trans_le hstopped) }

theorem Written.type_eq (hwritten : Written sb cur inum disk disk' ip ip' off reached limit) :
    ip'.type = ip.type := by
  obtain ⟨addrs, rfl⟩ := hwritten.fields
  rfl

theorem Written.size_eq (hwritten : Written sb cur inum disk disk' ip ip' off reached limit) :
    ip'.size = ip.size := by
  obtain ⟨addrs, rfl⟩ := hwritten.fields
  rfl

variable (hlayout : Layout sb disk (update cur inum ip))
  (hinum : inum < sb.ninodes) (htype : ip.type ≠ 0)
include hlayout hinum htype

theorem fileByte_chunk (hmap : bmap sb disk ip (off / BSIZE) = .ok (b, disk', ip'))
    (hlen : bytes.length ≤ BSIZE - off % BSIZE) (position : ℕ) :
    fileByte (update disk' b (overwrite (disk' b) (off % BSIZE) bytes)) ip' position =
      if off ≤ position ∧ position < off + bytes.length then
        bytes.getD (position - off) 0
      else fileByte disk ip position := by
  obtain ⟨hgrows, hb⟩ := bmap_spec hlayout hinum htype hmap
  have htype' : ip'.type ≠ 0 := hgrows.type_eq ▸ htype
  have hmod : off % BSIZE < BSIZE := Nat.mod_lt off (by decide)
  rw [fileByte_store hgrows.layout hinum htype' hb,
    byteAt_overwrite _ _ (by omega), ← hgrows.content position]
  by_cases hpos : position / BSIZE = off / BSIZE
  · have hsplit : position % BSIZE - off % BSIZE = position - off := by
      simp only [BSIZE_eq] at hpos ⊢
      omega
    rw [if_pos hpos, hsplit]
    by_cases hin : off % BSIZE ≤ position % BSIZE ∧ position % BSIZE < off % BSIZE + bytes.length
    · rw [if_pos hin, if_pos ((same_block_iff hlen).mp ⟨hpos, hin⟩)]
    · rw [if_neg hin, if_neg fun h => hin ((same_block_iff hlen).mpr h).2]
      exact (fileByte_of_block (hpos ▸ hb)).symm
  · rw [if_neg hpos, if_neg fun h => hpos ((same_block_iff hlen).mpr h).1]

theorem written_chunk (hmap : bmap sb disk ip (off / BSIZE) = .ok (b, disk', ip'))
    (hcount : count ≤ BSIZE - off % BSIZE) (hlen : bytes.length ≤ count)
    (hlimit : off + count ≤ limit) :
    Written sb cur inum disk (update disk' b (overwrite (disk' b) (off % BSIZE) bytes))
      ip ip' off (off + count) limit := by
  obtain ⟨hgrows, hb⟩ := bmap_spec hlayout hinum htype hmap
  have htype' : ip'.type ≠ 0 := hgrows.type_eq ▸ htype
  have hslots := inodeSlot_store hgrows.layout hinum htype' hb
    (overwrite (disk' b) (off % BSIZE) bytes)
  constructor
  case layout => exact layout_store hgrows.layout hinum htype' hb _
  case others => exact hgrows.others.trans (othersKept_store hgrows.layout hinum htype' hb _)
  case inodes =>
    intro c hc
    rw [inodes_store hgrows.layout hinum htype' hb _ (hc.trans (bmapstart_lt_dataStart sb))]
    exact hgrows.inodes c hc
  case fields => exact hgrows.fields
  case blocks =>
    intro bn c hc
    exact (hslots _).trans (hgrows.blocks bn c hc)
  case mapped =>
    intro position hlow hhigh
    rw [fileBlock, hslots, block_of_chunk hcount hlow hhigh]
    exact Option.isSome_iff_exists.mpr ⟨b, hb⟩
  case content =>
    intro position hpos
    rw [fileByte_chunk hlayout hinum htype hmap (hlen.trans hcount), if_neg (by omega)]

omit hlayout hinum htype

/-- A source whose copies stay inside the requested length. -/
def Bounded (source : ℕ → ℕ → Bool × List Byte) : Prop := ∀ tot m, (source tot m).2.length ≤ m

/-- A source that delivers the first `n` bytes of a stream. -/
def Delivers (source : ℕ → ℕ → Bool × List Byte) (n : ℕ) (stream : ℕ → Byte) : Prop :=
  ∀ tot m, tot + m ≤ n → source tot m = (true, (List.range m).map fun index => stream (tot + index))

/-- What the loop of `writei` has done when it stops after `tot'` bytes. -/
structure WroteTo (sb : Superblock) (source : ℕ → ℕ → Bool × List Byte)
    (n : ℕ) (cur : ℕ → Dinode) (inum : ℕ) (disk : Disk) (ip : Dinode)
    (tot off : ℕ) (result : ℕ × ℕ × Disk × Dinode) : Prop where
  advanced : tot ≤ result.1
  bounded : result.1 ≤ n
  moved : result.2.1 = off + (result.1 - tot)
  written : Written sb cur inum disk result.2.2.1 ip result.2.2.2 off result.2.1 (off + (n - tot))
  delivered : ∀ stream, Delivers source n stream → result.1 = n ∧
    ∀ position, off ≤ position → position < result.2.1 →
      fileByte result.2.2.1 result.2.2.2 position = stream (tot + (position - off))

theorem WroteTo.stop (htot : tot = n) (hlayout : Layout sb disk (update cur inum ip)) :
    WroteTo sb source n cur inum disk ip tot off (tot, off, disk, ip) where
  advanced := Nat.le_refl tot
  bounded := htot.le
  moved := by simp
  written := Written.refl hlayout
  delivered stream _ := ⟨htot, fun _ hlow hhigh => absurd hhigh (Nat.not_lt_of_le hlow)⟩

theorem WroteTo.after_chunk {m : ℕ} {result : ℕ × ℕ × Disk × Dinode} (hpositive : 0 < m)
    (hleft : tot + m ≤ n)
    (hnext : WroteTo sb source n cur inum disk' ip' (tot + m) (off + m) result)
    (hchunk : Written sb cur inum disk disk' ip ip' off (off + m) (off + (n - tot)))
    (hbytes : ∀ position, fileByte disk' ip' position =
      if off ≤ position ∧ position < off + (source tot m).2.length then
        (source tot m).2.getD (position - off) 0
      else fileByte disk ip position) :
    WroteTo sb source n cur inum disk ip tot off result := by
  have hadvanced := hnext.advanced
  have hmoved := hnext.moved
  have hwritten := hnext.written
  rw [show off + m + (n - (tot + m)) = off + (n - tot) by omega] at hwritten
  constructor
  case advanced => omega
  case bounded => exact hnext.bounded
  case moved => omega
  case written => exact hchunk.trans (by omega) hwritten
  case delivered =>
    intro stream hstream
    obtain ⟨hall, hrest⟩ := hnext.delivered stream hstream
    refine ⟨hall, fun position hlow hhigh => ?_⟩
    by_cases hpos : position < off + m
    · -- The rest of the loop starts past this position.
      have hlen : (source tot m).2.length = m := by
        rw [hstream tot m hleft]
        simp
      rw [hwritten.content position (Or.inl hpos), hbytes, hlen,
        if_pos ⟨hlow, hpos⟩, hstream tot m hleft]
      simp [List.getD_eq_getElem?_getD, show position - off < m by omega]
    · rw [hrest position (by omega) hhigh]
      congr 1
      omega

theorem writeiLoop_spec (hbounded : Bounded source) (hinum : inum < sb.ninodes) (fuel : ℕ) :
    ∀ (disk : Disk) (ip : Dinode) (tot off : ℕ) (result : ℕ × ℕ × Disk × Dinode),
      Layout sb disk (update cur inum ip) → ip.type ≠ 0 → tot ≤ n → n - tot ≤ fuel →
      writeiLoop sb source n fuel disk ip tot off = .ok result →
        WroteTo sb source n cur inum disk ip tot off result := by
  induction fuel with
  | zero =>
    intro disk ip tot off result hlayout htype htot hfuel hloop
    cases hloop
    exact WroteTo.stop (by omega) hlayout
  | succ fuel ih =>
    intro disk ip tot off result hlayout htype htot hfuel hloop
    rw [writeiLoop] at hloop
    split at hloop
    case isFalse hdone =>
      cases hloop
      exact WroteTo.stop (by omega) hlayout
    case isTrue hleft =>
      obtain ⟨⟨b, disk₁, ip₁⟩, hmap, hrest⟩ := bind_eq_ok.mp hloop
      dsimp only at hrest
      obtain ⟨m, hm⟩ : ∃ m, m = min (n - tot) (BSIZE - off % BSIZE) := ⟨_, rfl⟩
      have hmod : off % BSIZE < BSIZE := Nat.mod_lt off (by decide)
      have hpos : 0 < m := by omega
      have hlen := hbounded tot m
      have hchunk : Written sb cur inum disk _ ip ip₁ off (off + m) (off + (n - tot)) :=
        written_chunk hlayout hinum htype hmap (by omega) hlen (by omega)
      have hbytes := fun position => fileByte_chunk hlayout hinum htype hmap
        (show (source tot m).2.length ≤ BSIZE - off % BSIZE by omega)
        position
      rw [← hm] at hrest
      split at hrest
      case isFalse hfailed =>
        cases hrest
        refine ⟨Nat.le_refl tot, htot, by simp,
          hchunk.stopped (Nat.le_add_right off m), fun stream hstream => ?_⟩
        rw [hstream tot m (by omega)] at hfailed
        exact absurd rfl hfailed
      case isTrue hcomplete =>
        have htype₁ : ip₁.type ≠ 0 := hchunk.type_eq ▸ htype
        have hnext := ih _ ip₁ (tot + m) (off + m) result hchunk.layout htype₁
          (by omega) (by omega) hrest
        exact hnext.after_chunk hpos (by omega) hchunk hbytes

end

/-- The inode that `writei` leaves when it stops at `off`. -/
def extended (ip : Dinode) (off : ℕ) : Dinode :=
  if ip.size.toNat < off then { ip with size := BitVec.ofNat 32 off } else ip

/-- `writei` either refuses the range, or writes some of it and calls
`iupdate`. -/
theorem writei_spec {sb : Superblock} {cur : ℕ → Dinode} {inum : ℕ}
    {final : Disk} {ip' : Dinode} {result : ℤ}
    (hbounded : Bounded source) (hlayout : Layout sb disk (update cur inum ip))
    (hinum : inum < sb.ninodes) (htype : ip.type ≠ 0) (hn : n < 2 ^ 32)
    (hwritei : writei sb source disk inum ip off n = .ok (result, final, ip')) :
    (result = -1 ∧ final = disk ∧ ip' = ip) ∨ ∃ disk' copy tot,
        WroteTo sb source n cur inum disk ip 0 off (tot, off + tot, disk', copy) ∧
        result = tot ∧ ip' = extended copy (off + tot) ∧
        final = iupdate sb disk' inum ip' ∧ off ≤ ip.size.toNat ∧ off + n ≤ MAXFILE * BSIZE := by
  have hsize := ip.size.isLt
  rw [writei] at hwritei
  split at hwritei
  case isTrue =>
    cases hwritei
    exact Or.inl ⟨rfl, rfl, rfl⟩
  case isFalse hrange =>
    rw [not_or] at hrange
    split at hwritei
    case isTrue =>
      cases hwritei
      exact Or.inl ⟨rfl, rfl, rfl⟩
    case isFalse hfits =>
      obtain ⟨⟨tot, reached, disk', copy⟩, hloop, hrest⟩ := bind_eq_ok.mp hwritei
      have hwrote := writeiLoop_spec hbounded hinum n disk ip 0 off _ hlayout
        htype (Nat.zero_le n) (Nat.sub_le n 0) hloop
      obtain rfl : reached = off + tot := hwrote.moved
      cases hrest
      exact Or.inr ⟨disk', copy, tot, hwrote, rfl, rfl, rfl, by omega, by omega⟩

section
variable {bad : Panic → Prop} {sb : Superblock} (hballoc : ¬ bad .balloc)
include hballoc

theorem balloc_avoids (disk : Disk) : Avoids bad (balloc sb disk) fun _ => True := by
  rw [balloc]
  split
  · exact Avoids.ok trivial
  · exact Avoids.error hballoc

theorem bmapAddr_avoids (disk : Disk) (ip : Dinode) (index : ℕ) :
    Avoids bad (bmapAddr sb disk ip index) fun _ => True := by
  rw [bmapAddr]
  split
  · exact (balloc_avoids hballoc disk).bind fun _ _ => Avoids.ok trivial
  · exact Avoids.ok trivial

variable (hbmap : ¬ bad .bmap)
include hbmap

theorem bmap_avoids (disk : Disk) (ip : Dinode) (bn : ℕ) :
    Avoids bad (bmap sb disk ip bn) fun _ => True := by
  rw [bmap]
  split
  · exact bmapAddr_avoids hballoc disk ip bn
  · split
    · refine (bmapAddr_avoids hballoc disk ip NDIRECT).bind fun _ _ => ?_
      dsimp only
      split
      · exact (balloc_avoids hballoc _).bind fun _ _ => Avoids.ok trivial
      · exact Avoids.ok trivial
    · exact Avoids.error hbmap

theorem writeiLoop_avoids (source : ℕ → ℕ → Bool × List Byte) (n fuel : ℕ) :
    ∀ (disk : Disk) (ip : Dinode) (tot off : ℕ),
      Avoids bad (writeiLoop sb source n fuel disk ip tot off) fun _ => True := by
  induction fuel with
  | zero =>
    intro disk ip tot off
    exact Avoids.ok trivial
  | succ fuel ih =>
    intro disk ip tot off
    rw [writeiLoop]
    split
    · refine (bmap_avoids hballoc hbmap disk ip _).bind fun _ _ => ?_
      dsimp only
      split
      · exact ih _ _ _ _
      · exact Avoids.ok trivial
    · exact Avoids.ok trivial

theorem writei_avoids (source : ℕ → ℕ → Bool × List Byte) (disk : Disk)
    (inum : ℕ) (ip : Dinode) (off n : ℕ) :
    Avoids bad (writei sb source disk inum ip off n) fun _ => True := by
  rw [writei]
  split
  · exact Avoids.ok trivial
  · split
    · exact Avoids.ok trivial
    · exact (writeiLoop_avoids hballoc hbmap source n n disk ip 0 off).bind
        fun _ _ => Avoids.ok trivial

end

/-! ## Reading -/

section
variable {sb : Superblock} {disk : Disk} {ip : Dinode} {σ : Type}
  {copy : σ → ℕ → List Byte → Bool × σ} {invariant : ℕ → σ → Prop}
  {failed : σ → Prop}

/-- The rule for the loop of `readi`: `invariant tot` holds after `tot` bytes
have been copied, and `failed` after a copy that fails. -/
theorem readiLoop_rule {n start : ℕ} (hcopy : ∀ tot dst m, invariant tot dst → tot + m ≤ n →
      match copy dst tot (fileBytes disk ip (start + tot) m) with
      | (true, dst') => invariant (tot + m) dst'
      | (false, dst') => failed dst')
    (hmapped : ∀ position, start ≤ position → position < start + n →
      (fileBlock disk ip (position / BSIZE)).isSome) (fuel : ℕ) :
    ∀ dst tot, invariant tot dst → tot ≤ n → n - tot ≤ fuel → ∃ result dst',
        readiLoop sb copy n fuel disk ip dst tot (start + tot) = .ok (result, disk, ip, dst') ∧
        (result = n ∧ invariant n dst' ∨ result = -1 ∧ failed dst') := by
  induction fuel with
  | zero =>
    intro dst tot hinv htot hfuel
    obtain rfl : tot = n := by omega
    exact ⟨tot, dst, rfl, Or.inl ⟨rfl, hinv⟩⟩
  | succ fuel ih =>
    intro dst tot hinv htot hfuel
    rw [readiLoop]
    by_cases hleft : tot < n
    · obtain ⟨b, hb⟩ := Option.isSome_iff_exists.mp (hmapped (start + tot) (by omega) (by omega))
      obtain ⟨m, hm⟩ : ∃ m, m = min (n - tot) (BSIZE - (start + tot) % BSIZE) := ⟨_, rfl⟩
      have hmod : (start + tot) % BSIZE < BSIZE := Nat.mod_lt _ (by decide)
      have hstep := hcopy tot dst m hinv (by omega)
      rw [if_pos hleft, bmap_present sb hb, ok_bind]
      dsimp only
      rw [← hm, slice_eq_fileBytes hb (by omega)]
      split at hstep
      case h_1 dst' hdst =>
        rw [hdst, Nat.add_assoc]
        exact ih dst' (tot + m) hstep (by omega) (by omega)
      case h_2 dst' hdst =>
        rw [hdst]
        exact ⟨-1, dst', rfl, Or.inr ⟨rfl, hstep⟩⟩
    · obtain rfl : tot = n := by omega
      rw [if_neg hleft]
      exact ⟨tot, dst, rfl, Or.inl ⟨rfl, hinv⟩⟩

/-- The number of bytes that `readi` copies if no copy fails. -/
def readCount (ip : Dinode) (off n : ℕ) : ℕ :=
  if ip.size.toNat < off ∨ (off + n) % 2 ^ 32 < off then 0
  else if ip.size.toNat < (off + n) % 2 ^ 32 then ip.size.toNat - off else n

theorem readCount_le (ip : Dinode) {off n : ℕ} (hn : n < 2 ^ 32) :
    readCount ip off n = 0 ∨ off + readCount ip off n ≤ ip.size.toNat := by
  have hsize := ip.size.isLt
  rw [readCount]
  split
  · exact Or.inl rfl
  · right
    split <;> omega

/-- The rule for `readi` on a file whose blocks are all there: nothing on the
disk changes. -/
theorem readi_rule {dst : σ} {off n : ℕ} (hn : n < 2 ^ 32) (hcovered : ∀ position < ip.size.toNat,
      (fileBlock disk ip (position / BSIZE)).isSome)
    (hstart : invariant 0 dst)
    (hcopy : ∀ tot dst m, invariant tot dst → tot + m ≤ readCount ip off n →
      match copy dst tot (fileBytes disk ip (off + tot) m) with
      | (true, dst') => invariant (tot + m) dst'
      | (false, dst') => failed dst') :
    ∃ result dst', readi sb copy disk ip dst off n = .ok (result, disk, ip, dst') ∧
      (result = readCount ip off n ∧ invariant (readCount ip off n) dst' ∨
        result = -1 ∧ failed dst') := by
  by_cases hrange : ip.size.toNat < off ∨ (off + n) % 2 ^ 32 < off
  · rw [readi, if_pos hrange, readCount, if_pos hrange]
    exact ⟨0, dst, rfl, Or.inl ⟨rfl, hstart⟩⟩
  · have hbound := @readCount_le ip off n hn
    have hloop := @readiLoop_rule sb disk ip σ copy invariant failed (readCount ip off n) off hcopy
      (fun position hlow hhigh => hcovered position (by omega))
      (readCount ip off n) dst 0 hstart (Nat.zero_le _) (Nat.sub_le _ _)
    rw [readi, if_neg hrange]
    rwa [readCount, if_neg hrange] at hloop ⊢

end

theorem readi_kernel (sb : Superblock) (hn : n < 2 ^ 32)
    (hcovered : ∀ position < ip.size.toNat, (fileBlock disk ip (position / BSIZE)).isSome) :
    readi sb copyToKernel disk ip [] off n = .ok ((readCount ip off n : ℤ), disk, ip,
        fileBytes disk ip off (readCount ip off n)) := by
  obtain ⟨result, bytes, hread, hres⟩ :=
    @readi_rule sb disk ip (List Byte) copyToKernel
      (fun tot dst => dst = fileBytes disk ip off tot) (fun _ => False) [] off n
      hn hcovered rfl (by
        rintro tot dst m rfl -
        exact (fileBytes_append disk ip off tot m).symm)
  rcases hres with ⟨rfl, rfl⟩ | ⟨-, hfalse⟩
  · exact hread
  · exact hfalse.elim

end Xv6.ReadWrite
