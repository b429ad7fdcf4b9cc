import Xv6.Fs.WriteReservation
import Xv6.Vm.UserMemory

/-!
# Writes that stop early

`writei` copies the user's bytes straight into the cached block, and calls `log_write`
only if `either_copyin` succeeds.  A copy that faults in the middle of a block leaves the
bytes before the fault in the buffer, where they are neither logged nor counted in the
result.  The buffers are therefore kept twice: as the cache holds them, and as they were
at their last `log_write`.  A later read of a block sees the first as long as the buffer
is cached, and after a commit if it was pinned; it sees the second once the buffer has
been evicted.
-/

namespace Xv6.ShortWrite

open LittleEndian DiskLog DiskFormat InodeContent BlockOwnership FileContent ReadWrite List
open FileSystem ByteArrays WriteReservation Outcome Riscv Kalloc PageTable UserMemory Function

variable {n b c bn reached : ℕ} {stream : ℕ → Byte} {source : ℕ → ℕ → Bool × List Byte}
  {bytes : List Byte}

/-! ## The buffers and the log -/

/-- The blocks in the cache, and as of their last `log_write`. -/
structure Buffers where
  cached : Disk
  logged : Disk

def logWrites (blocks : List ℕ) (bufs : Buffers) : Buffers :=
  { bufs with logged := fun c => if c ∈ blocks then bufs.cached c else bufs.logged c }

def writeiLoopBuffers (sb : Superblock) (source : ℕ → ℕ → Bool × List Byte) (n : ℕ) :
    ℕ → Buffers → Dinode → ℕ → ℕ → Except Panic (ℕ × ℕ × Buffers × Dinode)
  | 0, bufs, ip, tot, off => return (tot, off, bufs, ip)
  | fuel + 1, bufs, ip, tot, off => do
    if tot < n then
      let (b, disk, ip') ← bmap sb bufs.cached ip (off / BSIZE)
      let bufs := logWrites (bmapLog sb bufs.cached ip (off / BSIZE)) ⟨disk, bufs.logged⟩
      let m := min (n - tot) (BSIZE - off % BSIZE)
      let (complete, bytes) := source tot m
      let bufs : Buffers :=
        ⟨update bufs.cached b (overwrite (bufs.cached b) (off % BSIZE) bytes), bufs.logged⟩
      if complete then
        writeiLoopBuffers sb source n fuel (logWrites [b] bufs) ip' (tot + m) (off + m)
      else return (tot, off, bufs, ip')
    else return (tot, off, bufs, ip)

def writeiBuffers (sb : Superblock) (source : ℕ → ℕ → Bool × List Byte) (bufs : Buffers)
    (inum : ℕ) (ip : Dinode) (off n : ℕ) : Except Panic (ℤ × Buffers × Dinode) := do
  if ip.size.toNat < off ∨ (off + n) % 2 ^ 32 < off then
    return (-1, bufs, ip)
  if MAXFILE * BSIZE < (off + n) % 2 ^ 32 then
    return (-1, bufs, ip)
  let (tot, off, bufs, ip) ← writeiLoopBuffers sb source n n bufs ip 0 off
  let ip := extended ip off
  return (tot, logWrites [IBLOCK sb inum] ⟨iupdate sb bufs.cached inum ip, bufs.logged⟩, ip)

/-- What later reads can find: each block from the cache or from the log. -/
def Shows (bufs : Buffers) (view : Disk) : Prop :=
  ∀ c, view c = bufs.cached c ∨ view c = bufs.logged c

/-- `either_copyin` from the user address `src + tot`. -/
def userSource (memory : Memory) (pagetable src : ℕ) (tot m : ℕ) : Bool × List Byte :=
  copyin memory pagetable (src + tot) m

def userByte (memory : Memory) (pagetable va : ℕ) : Byte :=
  match walkaddr memory pagetable (PGROUNDDOWN va) with
  | some pa => byteAt (memory.page pa) (va % PGSIZE)
  | none => 0

/-- Where the loop stops, and the bytes of the copy that failed. -/
def shortCopy (source : ℕ → ℕ → Bool × List Byte) (off n : ℕ) : ℕ → ℕ → ℕ × List Byte
  | 0, tot => (tot, [])
  | fuel + 1, tot =>
    if tot < n then
      let m := min (n - tot) (BSIZE - (off + tot) % BSIZE)
      if (source tot m).1 then shortCopy source off n fuel (tot + m)
      else (tot, (source tot m).2)
    else (tot, [])

/-- The failed copy stored only what the file holds already. -/
def Harmless (disk : Disk) (ip : Dinode) (off : ℕ) (stop : ℕ × List Byte) : Prop :=
  ∀ index < stop.2.length, stop.2.getD index 0 = fileByte disk ip (off + stop.1 + index)

/-- The result `tot` of `writei` is the whole effect: no buffer differs from the log, and
later reads find the first `tot` bytes of the source in the place of the old ones. -/
def ChangesOnlyReported (disk : Disk) (ip : Dinode) (off tot : ℕ) (stream : ℕ → Byte)
    (bufs : Buffers) (ip' : Dinode) : Prop :=
  bufs.cached = bufs.logged ∧ ∀ view, Shows bufs view → fileBytes view ip' 0 ip'.size.toNat =
      splice (fileBytes disk ip 0 ip.size.toNat) off ((List.range tot).map stream)

/-! ## The cache is that of `writei` -/

theorem writeiLoopBuffers_cached (sb : Superblock) (source : ℕ → ℕ → Bool × List Byte)
    (n fuel : ℕ) : ∀ (bufs : Buffers) (ip : Dinode) (tot off : ℕ),
      (writeiLoopBuffers sb source n fuel bufs ip tot off).map
          (fun found => (found.1, found.2.1, found.2.2.1.cached, found.2.2.2)) =
        writeiLoop sb source n fuel bufs.cached ip tot off := by
  induction fuel with
  | zero =>
    intro bufs ip tot off
    rfl
  | succ fuel ih =>
    intro bufs ip tot off
    rw [writeiLoopBuffers, writeiLoop]
    by_cases hleft : tot < n
    · rw [if_pos hleft, if_pos hleft]
      cases hmap : bmap sb bufs.cached ip (off / BSIZE) with
      | error panic => rfl
      | ok found =>
        rw [ok_bind, ok_bind]
        dsimp only
        split
        · exact ih _ _ _ _
        · rfl
    · rw [if_neg hleft, if_neg hleft]
      rfl

theorem writeiBuffers_cached (sb : Superblock) (source : ℕ → ℕ → Bool × List Byte)
    (bufs : Buffers) (inum : ℕ) (ip : Dinode) (off n : ℕ) :
    (writeiBuffers sb source bufs inum ip off n).map
        (fun found => (found.1, found.2.1.cached, found.2.2)) =
      writei sb source bufs.cached inum ip off n := by
  rw [writeiBuffers, writei]
  split
  · rfl
  · split
    · rfl
    · rw [← writeiLoopBuffers_cached]
      cases writeiLoopBuffers sb source n n bufs ip 0 off with
      | error panic => rfl
      | ok found => rfl

/-! ## User memory as a source -/

/-- Complete copies deliver a stream, and no copy is longer than requested. -/
def Streams (source : ℕ → ℕ → Bool × List Byte) (stream : ℕ → Byte) : Prop :=
  ∀ tot m, (source tot m).2.length ≤ m ∧ ((source tot m).1 = true →
    (source tot m).2 = (List.range m).map fun index => stream (tot + index))

theorem loadBytes_eq_userByte {memory : Memory} {pagetable va pa : ℕ}
    (hwalk : walkaddr memory pagetable (PGROUNDDOWN va) = some pa)
    (hn : n ≤ PGSIZE - va % PGSIZE) :
    loadBytes memory pa (va - PGROUNDDOWN va) n =
      (List.range n).map fun index => userByte memory pagetable (va + index) := by
  rw [loadBytes, slice]
  refine map_congr_left fun index hi => ?_
  rw [mem_range] at hi
  have hpage : PGROUNDDOWN (va + index) = PGROUNDDOWN va := by
    simp only [PGROUNDDOWN, PGSIZE_eq] at *
    omega
  have hoffset : (va + index) % PGSIZE = va - PGROUNDDOWN va + index := by
    simp only [PGROUNDDOWN, PGSIZE_eq] at *
    omega
  simp only [userByte, hpage, hwalk, hoffset]

theorem copyinLoop_bytes (memory : Memory) (pagetable fuel : ℕ) : ∀ va len, len ≤ fuel →
      ∃ count ≤ len, (copyinLoop memory pagetable fuel va len).2 =
          ((List.range count).map fun index => userByte memory pagetable (va + index)) ∧
        ((copyinLoop memory pagetable fuel va len).1 = true → count = len) := by
  induction fuel with
  | zero =>
    intro va len hfuel
    exact ⟨0, Nat.zero_le _, rfl, fun _ => by omega⟩
  | succ fuel ih =>
    intro va len hfuel
    rw [copyinLoop]
    by_cases hlen : len = 0
    · rw [if_pos hlen]
      exact ⟨0, Nat.zero_le _, rfl, fun _ => hlen.symm⟩
    rw [if_neg hlen]
    dsimp only
    cases hwalk : walkaddr memory pagetable (PGROUNDDOWN va) with
    | none => exact ⟨0, Nat.zero_le _, rfl, fun hfalse => by cases hfalse⟩
    | some pa =>
      dsimp only
      have hoffset : va - PGROUNDDOWN va = va % PGSIZE := by
        simp only [PGROUNDDOWN, PGSIZE_eq]
        omega
      obtain ⟨n, hn⟩ : ∃ n, n = min (PGSIZE - (va - PGROUNDDOWN va)) len := ⟨_, rfl⟩
      have hmod : va % PGSIZE < PGSIZE := Nat.mod_lt va (by decide)
      rw [← hn]
      obtain ⟨count, hcount, hbytes, hall⟩ := ih (PGROUNDDOWN va + PGSIZE) (len - n) (by omega)
      refine ⟨n + count, by omega, ?_, fun htrue => by have := hall htrue; omega⟩
      rw [loadBytes_eq_userByte hwalk (by omega), hbytes, range_add, map_append, map_map]
      refine congrArg _ (map_congr_left fun index hi => ?_)
      -- The next round starts at the next page.
      rw [mem_range] at hi
      have hnext : PGROUNDDOWN va + PGSIZE = va + n := by
        simp only [PGROUNDDOWN, PGSIZE_eq] at *
        omega
      rw [hnext, Nat.add_assoc]
      rfl

theorem streams_userSource (memory : Memory) (pagetable src : ℕ) :
    Streams (userSource memory pagetable src)
      fun index => userByte memory pagetable (src + index) := by
  intro tot m
  obtain ⟨count, hcount, hbytes, hall⟩ :=
    copyinLoop_bytes memory pagetable m (src + tot) m (Nat.le_refl m)
  rw [userSource, copyin]
  refine ⟨?_, fun htrue => ?_⟩
  · rw [hbytes, length_map, length_range]
    exact hcount
  · rw [hbytes, hall htrue]
    simp only [Nat.add_assoc]

/-! ## One call -/

section
variable {sb : Superblock} {cur : ℕ → Dinode} {inum : ℕ} {disk disk' : Disk} {ip ip' : Dinode}

theorem balloc_frame (hballoc : balloc sb disk = .ok (b, disk'))
    (hc : c ∉ ballocLog sb disk) : disk' c = disk c := by
  rw [ballocLog_of_ok hballoc, mem_pair, not_or] at hc
  rw [balloc] at hballoc
  split at hballoc
  case h_2 => cases hballoc
  case h_1 =>
    cases hballoc
    rw [bzero, update_of_ne hc.2, markUsed, update_of_ne hc.1]

theorem bmapAddr_frame {index : ℕ} (hmap : bmapAddr sb disk ip index = .ok (b, disk', ip'))
    (hc : c ∉ bmapAddrLog sb disk ip index) : disk' c = disk c := by
  rw [bmapAddr] at hmap
  rw [bmapAddrLog] at hc
  split at hmap
  case isTrue hnil =>
    rw [if_pos hnil] at hc
    obtain ⟨⟨found, middle⟩, hballoc, hrest⟩ := bind_eq_ok.mp hmap
    cases hrest
    exact balloc_frame hballoc hc
  case isFalse =>
    cases hmap
    rfl

theorem bmap_frame (hmap : bmap sb disk ip bn = .ok (b, disk', ip'))
    (hc : c ∉ bmapLog sb disk ip bn) : disk' c = disk c := by
  rw [bmap] at hmap
  rw [bmapLog] at hc
  split at hmap
  case isTrue hdirect =>
    rw [if_pos hdirect] at hc
    exact bmapAddr_frame hmap hc
  case isFalse hdirect =>
    rw [if_neg hdirect] at hc
    split at hmap
    case isFalse => cases hmap
    case isTrue hrange =>
      obtain ⟨⟨indirect, disk₁, ip₁⟩, haddr, hrest⟩ := bind_eq_ok.mp hmap
      rw [if_pos hrange, haddr, mem_append, not_or] at hc
      dsimp only at hrest hc
      have hfst := bmapAddr_frame haddr hc.1
      split at hrest
      case isFalse =>
        cases hrest
        exact hfst
      case isTrue he =>
        obtain ⟨⟨found, middle⟩, hballoc, hlast⟩ := bind_eq_ok.mp hrest
        cases hlast
        have hlog := hc.2
        rw [if_pos he, hballoc, mem_append, not_or, mem_singleton] at hlog
        dsimp only
        rw [update_of_ne hlog.2, balloc_frame hballoc hlog.1, hfst]

theorem logWrites_bmap (hmap : bmap sb disk ip bn = .ok (b, disk', ip')) :
    logWrites (bmapLog sb disk ip bn) ⟨disk', disk⟩ = ⟨disk', disk'⟩ := by
  rw [logWrites, Buffers.mk.injEq]
  refine ⟨rfl, funext fun c => ?_⟩
  dsimp only
  split
  next => rfl
  next hc => exact (bmap_frame hmap hc).symm

theorem logWrites_store (disk : Disk) (b : ℕ) (data : Block) :
    logWrites [b] ⟨update disk b data, disk⟩ = ⟨update disk b data, update disk b data⟩ := by
  rw [logWrites, Buffers.mk.injEq]
  refine ⟨rfl, funext fun c => ?_⟩
  dsimp only
  split
  next => rfl
  next hc => exact (update_of_ne (fun h => hc (mem_singleton.mpr h)) _ _).symm

/-- Two versions of the blocks that differ at most by a failed copy at `reached`. -/
def Differs (bufs : Buffers) (ip : Dinode) (reached : ℕ) (bytes : List Byte) : Prop :=
  (bytes = [] ∧ bufs.cached = bufs.logged) ∨
    ∃ b, fileBlock bufs.logged ip (reached / BSIZE) = some b ∧
      bytes.length ≤ BSIZE - reached % BSIZE ∧
      bufs.cached = update bufs.logged b (overwrite (bufs.logged b) (reached % BSIZE) bytes)

/-- What the loop of `writei` has done when it stops. -/
structure WroteShort (sb : Superblock) (cur : ℕ → Dinode) (inum : ℕ) (disk : Disk)
    (ip : Dinode) (stream : ℕ → Byte) (start tot n : ℕ) (stop : ℕ × List Byte)
    (result : ℕ × ℕ × Buffers × Dinode) : Prop where
  advanced : tot ≤ result.1
  bounded : result.1 ≤ n
  stopped : result.1 = stop.1
  moved : result.2.1 = start + result.1
  written : Written sb cur inum disk result.2.2.1.logged ip result.2.2.2 (start + tot)
    (start + result.1) (start + result.1)
  bytes : ∀ position, start + tot ≤ position → position < start + result.1 →
    fileByte result.2.2.1.logged result.2.2.2 position = stream (position - start)
  differs : Differs result.2.2.1 result.2.2.2 (start + result.1) stop.2

theorem WroteShort.finish {start tot : ℕ} (htot : tot ≤ n)
    (hlay : Layout sb disk (update cur inum ip)) :
    WroteShort sb cur inum disk ip stream start tot n (tot, [])
      (tot, start + tot, ⟨disk, disk⟩, ip) where
  advanced := Nat.le_refl tot
  bounded := htot
  stopped := rfl
  moved := rfl
  written := Written.refl hlay
  bytes _ hlow hhigh := absurd hhigh (Nat.not_lt_of_le hlow)
  differs := Or.inl ⟨rfl, rfl⟩

theorem writeiLoopBuffers_spec
    (hstreams : Streams source stream) (hinum : inum < sb.ninodes) (start n fuel : ℕ) :
    ∀ (disk : Disk) (ip : Dinode) (tot : ℕ) (result : ℕ × ℕ × Buffers × Dinode),
      Layout sb disk (update cur inum ip) → ip.type ≠ 0 → tot ≤ n →
      writeiLoopBuffers sb source n fuel ⟨disk, disk⟩ ip tot (start + tot) = .ok result →
        WroteShort sb cur inum disk ip stream start tot n
          (shortCopy source start n fuel tot) result := by
  induction fuel with
  | zero =>
    intro disk ip tot result hlay _ htot hloop
    cases hloop
    exact WroteShort.finish htot hlay
  | succ fuel ih =>
    intro disk ip tot result hlay htype htot hloop
    rw [writeiLoopBuffers] at hloop
    rw [shortCopy]
    by_cases hleft : tot < n
    case neg =>
      rw [if_neg hleft] at hloop ⊢
      cases hloop
      exact WroteShort.finish htot hlay
    case pos =>
      rw [if_pos hleft] at hloop ⊢
      obtain ⟨⟨b, disk₁, ip₁⟩, hmap, hrest⟩ := bind_eq_ok.mp hloop
      dsimp only at hmap hrest ⊢
      rw [logWrites_bmap hmap] at hrest
      dsimp only at hrest
      obtain ⟨m, hm⟩ : ∃ m, m = min (n - tot) (BSIZE - (start + tot) % BSIZE) := ⟨_, rfl⟩
      rw [← hm] at hrest ⊢
      have hmod : (start + tot) % BSIZE < BSIZE := Nat.mod_lt _ (by decide)
      obtain ⟨hlen, hcopied⟩ := hstreams tot m
      obtain ⟨hgrows, hb⟩ := bmap_spec hlay hinum htype hmap
      have htype₁ : ip₁.type ≠ 0 := hgrows.type_eq ▸ htype
      by_cases hcomplete : (source tot m).1 = true
      case pos =>
        rw [if_pos hcomplete] at hrest ⊢
        rw [logWrites_store, Nat.add_assoc] at hrest
        have hnext := ih _ ip₁ (tot + m) result
          (layout_store hgrows.layout hinum htype₁ hb _) htype₁ (by omega) hrest
        have hadvanced := hnext.advanced
        have hchunk : Written sb cur inum disk _ ip ip₁ (start + tot)
            (start + tot + m) (start + result.1) :=
          written_chunk hlay hinum htype hmap (by omega) hlen (by omega)
        have hwritten := hnext.written
        rw [← Nat.add_assoc] at hwritten
        refine ⟨by omega, hnext.bounded, hnext.stopped, hnext.moved,
          hchunk.trans (by omega) hwritten, fun position hlow hhigh => ?_, hnext.differs⟩
        by_cases hpos : position < start + tot + m
        · -- The rest of the loop starts past this position.
          have hall : (source tot m).2.length = m := by
            rw [hcopied hcomplete, length_map, length_range]
          rw [hwritten.content position (Or.inl hpos),
            fileByte_chunk hlay hinum htype hmap (by omega), hall,
            if_pos ⟨hlow, hpos⟩, hcopied hcomplete, getD_eq_getElem?_getD,
            List.getElem?_map,
            List.getElem?_range (show position - (start + tot) < m by omega)]
          show stream (tot + (position - (start + tot))) = _
          congr 1
          omega
        · exact hnext.bytes position (by omega) hhigh
      case neg =>
        rw [if_neg hcomplete] at hrest ⊢
        cases hrest
        refine ⟨Nat.le_refl tot, htot, rfl, rfl,
          ⟨hgrows.layout, hgrows.others, hgrows.inodes, hgrows.fields, hgrows.blocks,
            fun _ hlow hhigh => absurd hhigh (Nat.not_lt_of_le hlow),
            fun position _ => hgrows.content position⟩,
          fun _ hlow hhigh => absurd hhigh (Nat.not_lt_of_le hlow), ?_⟩
        exact Or.inr ⟨b, hb, by dsimp only; omega, rfl⟩

theorem Differs.eq_iff {bufs : Buffers}
    (hdiffers : Differs bufs ip reached bytes) : bufs.cached = bufs.logged ↔ ∀ index < bytes.length,
      bytes.getD index 0 = fileByte bufs.logged ip (reached + index) := by
  rcases hdiffers with ⟨rfl, heq⟩ | ⟨b, hb, hlen, hcache⟩
  · exact iff_of_true heq fun index hi => absurd hi (Nat.not_lt_zero index)
  have hmod : reached % BSIZE < BSIZE := Nat.mod_lt _ (by decide)
  have hbyte : ∀ index < bytes.length, fileByte bufs.logged ip (reached + index) =
      byteAt (bufs.logged b) (reached % BSIZE + index) := by
    intro index hi
    have hsame : (reached + index) / BSIZE = reached / BSIZE :=
      block_of_chunk hlen (Nat.le_add_right _ _) (by omega)
    have hoffset : (reached + index) % BSIZE = reached % BSIZE + index := by
      simp only [BSIZE_eq] at *
      omega
    rw [fileByte_of_block (hsame ▸ hb), hoffset]
  have hover := byteAt_overwrite (bufs.logged b) (reached % BSIZE)
    (show reached % BSIZE + bytes.length ≤ BSIZE by omega)
  constructor
  · intro heq index hi
    have hstored := hover (reached % BSIZE + index)
    rw [if_pos (by omega), Nat.add_sub_cancel_left] at hstored
    rw [hbyte index hi, ← hstored]
    have hdata : bufs.cached b = overwrite (bufs.logged b) (reached % BSIZE) bytes := by
      rw [hcache, update_self]
    rw [← hdata, heq]
  · intro hsame
    have hdata : overwrite (bufs.logged b) (reached % BSIZE) bytes = bufs.logged b := by
      funext index
      rw [overwrite]
      split
      next hin =>
        have hbytes := hsame (index.val - reached % BSIZE) (by omega)
        rw [hbyte _ (by omega), Nat.add_sub_cancel' hin.1, byteAt, dif_pos index.isLt] at hbytes
        exact hbytes
      next => rfl
    rw [hcache, hdata, update_eq_self]

theorem Differs.iupdate {bufs : Buffers}
    (hdiffers : Differs bufs ip reached bytes) (hinum : inum < sb.ninodes) (htype : ip.type ≠ 0)
    (hlay : Layout sb bufs.logged (update cur inum ip)) {copy : Dinode}
    (haddrs : copy.addrs = ip.addrs) :
    (logWrites [IBLOCK sb inum] ⟨iupdate sb bufs.cached inum copy, bufs.logged⟩).logged =
      iupdate sb bufs.logged inum copy ∧ Differs (logWrites [IBLOCK sb inum]
      ⟨iupdate sb bufs.cached inum copy, bufs.logged⟩) copy reached bytes := by
  have harea := IBLOCK_lt_bmapstart sb hinum
  have hdata := bmapstart_lt_dataStart sb
  have hinode : bufs.cached (IBLOCK sb inum) = bufs.logged (IBLOCK sb inum) := by
    rcases hdiffers with ⟨-, heq⟩ | ⟨b, hb, -, hcache⟩
    · rw [heq]
    · have hlow := (hlay.used_slot hinum htype hb).1
      rw [hcache, update_of_ne (by omega)]
  have hlog : (logWrites [IBLOCK sb inum]
      ⟨InodeContent.iupdate sb bufs.cached inum copy, bufs.logged⟩).logged =
      InodeContent.iupdate sb bufs.logged inum copy := by
    funext c
    simp only [logWrites, mem_singleton, InodeContent.iupdate, writeDinode]
    split
    next hc => rw [hc, update_self, update_self, hinode]
    next hc => rw [update_of_ne hc]
  refine ⟨hlog, ?_⟩
  rcases hdiffers with ⟨hnil, heq⟩ | ⟨b, hb, hlen, hcache⟩
  · refine Or.inl ⟨hnil, ?_⟩
    rw [hlog]
    simp only [logWrites, heq]
  · have hlow := (hlay.used_slot hinum htype hb).1
    have hne : b ≠ IBLOCK sb inum := by omega
    refine Or.inr ⟨b, ?_, hlen, ?_⟩
    · rw [hlog, (file_congr fun slot c hslot => @iupdate_above sb inum bufs.logged hinum
        copy c (hdata.le.trans (hlay.used_slot hinum htype
          ((inodeSlot_addrs haddrs slot).symm.trans hslot)).1)).1, (file_addrs haddrs).1]
      exact hb
    · rw [hlog]
      simp only [logWrites, InodeContent.iupdate, writeDinode, hcache]
      rw [update_of_ne (Ne.symm hne), update_of_ne hne, update_comm hne]

end

/-- A write from user memory changes exactly what it reports if and only if a copy that
fails in the middle has stored nothing but the bytes that the file held there before. -/
theorem short_write_exact_iff (sb : Superblock) (files : Files) (inum : ℕ)
    (hlayout : Layout sb files.disk files.inode) (hlive : Live sb files inum)
    (memory : Memory) (pagetable src off n : ℕ) (hn : n < 2 ^ 32) (tot : ℕ)
    (bufs : Buffers) (ip' : Dinode)
    (hwritei : writeiBuffers sb (userSource memory pagetable src)
      ⟨files.disk, files.disk⟩ inum (files.inode inum) off n = .ok (tot, bufs, ip')) :
    ChangesOnlyReported files.disk (files.inode inum) off tot
        (fun index => userByte memory pagetable (src + index)) bufs ip' ↔
      Harmless files.disk (files.inode inum) off
        (shortCopy (userSource memory pagetable src) off n n 0) := by
  have hself := hlayout
  rw [← update_eq_self inum files.inode] at hself
  have hsize := (files.inode inum).size.isLt
  rw [writeiBuffers] at hwritei
  split at hwritei
  case isTrue => cases hwritei
  case isFalse hrange =>
  split at hwritei
  case isTrue => cases hwritei
  case isFalse hfits =>
  rw [not_or] at hrange
  obtain ⟨⟨count, reached, middle, copy⟩, hloop, hrest⟩ := bind_eq_ok.mp hwritei
  have hshort := writeiLoopBuffers_spec (streams_userSource memory pagetable src) hlive.1
    off n n files.disk _ 0 _ hself hlive.2 (Nat.zero_le n) hloop
  generalize hstop : shortCopy (userSource memory pagetable src) off n n 0 = stop at hshort ⊢
  simp only [pure, Except.pure, Except.ok.injEq, Prod.mk.injEq, Nat.cast_inj] at hrest
  obtain ⟨rfl, rfl, rfl⟩ := hrest
  have hwritten := hshort.written
  have hcount := hshort.bounded
  obtain rfl : reached = off + count := hshort.moved
  have hstopped : count = stop.1 := hshort.stopped
  dsimp only [Nat.add_zero] at hwritten hcount
  have haddrs := extended_addrs copy (off + count)
  have htype : copy.type ≠ 0 := hwritten.type_eq ▸ hlive.2
  obtain ⟨hlogged, hdiffers⟩ := hshort.differs.iupdate hlive.1 htype hwritten.layout haddrs
  have hbyte : ∀ position, fileByte (iupdate sb middle.logged inum
      (extended copy (off + count))) (extended copy (off + count)) position =
      fileByte middle.logged copy position := by
    intro position
    have hlayout' := layout_fields hwritten.layout (by rw [extended_type]) haddrs
    rw [(iupdate_layout hlive.1 (by rw [extended_type]; exact htype) hlayout').2.1,
      (file_addrs haddrs).2]
  have hagree := hdiffers.eq_iff
  simp only [hlogged, hbyte] at hagree
  have hharmless : Harmless files.disk (files.inode inum) off stop ↔ ∀ index < stop.2.length,
        stop.2.getD index 0 = fileByte middle.logged copy (off + count + index) := by
    rw [Harmless, ← hstopped]
    refine forall₂_congr fun index _ => ?_
    rw [hwritten.content _ (Or.inr (by omega))]
  rw [hharmless, ← hagree, ChangesOnlyReported, hlogged]
  refine ⟨fun hreported => hreported.1, fun hequal => ⟨hequal, fun view hview => ?_⟩⟩
  have hview' : view = iupdate sb middle.logged inum (extended copy (off + count)) := by
    funext c
    rcases hview c with hc | hc
    · rw [hc, hequal]
    · rw [hc, hlogged]
  rw [hview']
  have hlength : ((List.range count).map fun index =>
      userByte memory pagetable (src + index)).length = count := by
    rw [length_map, length_range]
  refine fileBytes_splice (by omega) ?_ (fun index hlow hhigh => ?_) fun index hindex => ?_
  · rw [extended_size (by omega), hwritten.size_eq, hlength]
  · rw [hlength] at hhigh
    rw [hbyte, hshort.bytes index hlow hhigh, getD_eq_getElem?_getD, List.getElem?_map,
      List.getElem?_range (show index - off < count by omega)]
    rfl
  · rw [hlength] at hindex
    rw [hbyte, hwritten.content index hindex]

/-! ## A fault in the middle of a copy -/

/-- One user page at address 0, full of sevens; the next page is not mapped. -/
def onePageMemory : Memory where
  kernelEnd := KERNBASE
  page pa :=
    if pa = KERNBASE then
      writeU64 (fun _ => 0) 0 (PA2PTE (KERNBASE + 0x1000) ||| PTE_V)
    else if pa = KERNBASE + 0x1000 then
      writeU64 (fun _ => 0) 0 (PA2PTE (KERNBASE + 0x2000) ||| PTE_V)
    else if pa = KERNBASE + 0x2000 then
      writeU64 (fun _ => 0) 0 (leafPte (KERNBASE + 0x3000) (PTE_R ||| PTE_U))
    else if pa = KERNBASE + 0x3000 then fun _ => 7
    else fun _ => 0
  freelist := []

def twoZeros : Files where
  disk := fun b position => if b = 3 ∧ position.val = 0 then 0x1f else 0
  inode := fun inum =>
    ⟨if inum = 1 then 2 else 0, 0, 0, 1, 2, fun index => if index.val = 0 then 4 else 0⟩

theorem held_twoZeros (position : ℕ × ℕ) :
    held (smallSuperblock 8 (by decide) (by decide)) twoZeros.disk twoZeros.inode position =
      if position = (1, 0) then some 4 else none := by
  obtain ⟨inum, slot⟩ := position
  have haddr : ∀ inum index, addr (twoZeros.inode inum) index =
      if index = 0 then 4 else 0 := by
    intro inum index
    rw [addr]
    split
    next => rfl
    next hi =>
      rw [if_neg]
      rintro rfl
      exact hi (Nat.succ_pos _)
  have hslot : inodeSlot twoZeros.disk (twoZeros.inode inum) slot =
      if slot = 0 then some 4 else none := by
    rw [inodeSlot, haddr, haddr]
    by_cases hzero : slot = 0
    · subst hzero
      decide
    · rw [if_neg hzero, if_neg hzero]
      simp [pointer, NDIRECT]
  rw [held, hslot]
  simp only [twoZeros, smallSuperblock, Prod.mk.injEq]
  by_cases hinum : inum = 1
  · subst hinum
    simp
  · simp [hinum]

theorem layout_twoZeros :
    Layout (smallSuperblock 8 (by decide) (by decide)) twoZeros.disk twoZeros.inode := by
  have hstart : (smallSuperblock 8 (by decide) (by decide)).dataStart = 4 := by decide
  have hfree : ∀ b, 5 ≤ b → b < 8 →
      bitSet (smallSuperblock 8 (by decide) (by decide)) twoZeros.disk b = false := by
    decide +kernel
  refine ⟨⟨fun position b hheld => ?_, fun b hused => ?_, fun left right b hleft hright => ?_⟩,
    fun b hb => ?_⟩
  · rw [held_twoZeros] at hheld
    split at hheld
    next =>
      cases hheld
      exact ⟨hstart.le, by decide, by decide +kernel⟩
    next => cases hheld
  · obtain ⟨hlow, hhigh, hset⟩ := hused
    rw [hstart] at hlow
    have hfour : b = 4 := by
      by_contra hne
      rw [hfree b (by omega) hhigh] at hset
      cases hset
    exact ⟨(1, 0), by rw [held_twoZeros, if_pos rfl, hfour]⟩
  · rw [held_twoZeros] at hleft hright
    split at hleft
    next heq =>
      split at hright
      next hequal' => rw [heq, hequal']
      next => cases hright
    next => cases hleft
  · rw [hstart] at hb
    have hmarked : ∀ b < 4,
        bitSet (smallSuperblock 8 (by decide) (by decide)) twoZeros.disk b = true := by
      decide +kernel
    exact hmarked b hb

theorem live_twoZeros : Live (smallSuperblock 8 (by decide) (by decide)) twoZeros 1 :=
  ⟨Nat.one_lt_two, by decide⟩

theorem copyin_across : userSource onePageMemory KERNBASE 4095 0 2 = (false, [7]) := by
  decide +kernel

theorem copyin_beyond : userSource onePageMemory KERNBASE 4096 0 2 = (false, []) := by
  decide +kernel

theorem fileBlock_twoZeros : fileBlock twoZeros.disk (twoZeros.inode 1) 0 = some 4 := by
  decide +kernel

theorem writeiBuffers_twoZeros (hsource : source 0 2 = (false, bytes)) :
    writeiBuffers (smallSuperblock 8 (by decide) (by decide)) source
        ⟨twoZeros.disk, twoZeros.disk⟩ 1 (twoZeros.inode 1) 0 2 =
      .ok (0, logWrites [2] ⟨iupdate (smallSuperblock 8 (by decide) (by decide))
        (update twoZeros.disk 4 (overwrite (twoZeros.disk 4) 0 bytes)) 1
        (twoZeros.inode 1), twoZeros.disk⟩, twoZeros.inode 1) := by
  have hmap := bmap_present (smallSuperblock 8 (by decide) (by decide)) fileBlock_twoZeros
  have hloop : writeiLoopBuffers (smallSuperblock 8 (by decide) (by decide)) source 2 2
      ⟨twoZeros.disk, twoZeros.disk⟩ (twoZeros.inode 1) 0 0 =
      .ok (0, 0, ⟨update twoZeros.disk 4 (overwrite (twoZeros.disk 4) 0 bytes),
        twoZeros.disk⟩, twoZeros.inode 1) := by
    rw [writeiLoopBuffers, if_pos (by decide), show 0 / BSIZE = 0 from rfl, hmap, ok_bind]
    dsimp only
    rw [logWrites_bmap hmap, show min (2 - 0) (BSIZE - 0 % BSIZE) = 2 from rfl, hsource]
    rfl
  rw [writeiBuffers, if_neg (by decide), if_neg (by decide), hloop]
  rfl

/-- The write reports no byte, but the next read of the file finds the first one. -/
theorem short_write_leaves_a_byte :
    Layout (smallSuperblock 8 (by decide) (by decide)) twoZeros.disk twoZeros.inode ∧
      Live (smallSuperblock 8 (by decide) (by decide)) twoZeros 1 ∧
      ∃ bufs ip', writeiBuffers (smallSuperblock 8 (by decide) (by decide))
          (userSource onePageMemory KERNBASE 4095) ⟨twoZeros.disk, twoZeros.disk⟩ 1
          (twoZeros.inode 1) 0 2 = .ok (0, bufs, ip') ∧
        fileBytes bufs.cached ip' 0 2 = [7, 0] ∧ fileBytes bufs.logged ip' 0 2 = [0, 0] ∧
        ¬ChangesOnlyReported twoZeros.disk (twoZeros.inode 1) 0 0
          (fun index => userByte onePageMemory KERNBASE (4095 + index)) bufs ip' := by
  refine ⟨layout_twoZeros, live_twoZeros, _, _, writeiBuffers_twoZeros copyin_across, ?_⟩
  generalize hbufs : logWrites [2] _ = bufs
  have hcached : fileBytes bufs.cached (twoZeros.inode 1) 0 2 = [7, 0] := by
    rw [← hbufs]
    decide +kernel
  have hlogged : fileBytes bufs.logged (twoZeros.inode 1) 0 2 = [0, 0] := by
    rw [← hbufs]
    decide +kernel
  refine ⟨hcached, hlogged, fun hreported => ?_⟩
  rw [hreported.1, hlogged] at hcached
  exact absurd hcached (by decide)

/-- A write whose source is not mapped at all changes nothing. -/
theorem short_write_exact_iff_unmapped :
    ∃ bufs ip', writeiBuffers (smallSuperblock 8 (by decide) (by decide))
        (userSource onePageMemory KERNBASE 4096) ⟨twoZeros.disk, twoZeros.disk⟩ 1
        (twoZeros.inode 1) 0 2 = .ok (0, bufs, ip') ∧
      ChangesOnlyReported twoZeros.disk (twoZeros.inode 1) 0 0
        (fun index => userByte onePageMemory KERNBASE (4096 + index)) bufs ip' := by
  have hwritei := writeiBuffers_twoZeros copyin_beyond
  refine ⟨_, _, hwritei, ?_⟩
  have hstop : shortCopy (userSource onePageMemory KERNBASE 4096) 0 2 2 0 = (0, []) := by
    decide +kernel
  refine (short_write_exact_iff _ twoZeros 1 layout_twoZeros live_twoZeros onePageMemory
    KERNBASE 4096 0 2 (by decide) 0 _ _ hwritei).mpr fun index hindex => ?_
  rw [hstop] at hindex
  exact absurd hindex (Nat.not_lt_zero index)

end Xv6.ShortWrite
