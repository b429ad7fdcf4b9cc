import Xv6.Core.Interleaving
import Xv6.Fs.WriteReservation

/-!
# Calls that share a file offset

`filewrite` and `fileread` of `kernel/file.c` on one `struct file`, by any number of
calls.  `filewrite` goes through its buffer in chunks; `f->off` is read and advanced while
the inode is locked, so the section of a chunk is one action.  `fileread` has one such
section.  The chunks are recorded in the order in which the lock was taken.
-/

namespace Xv6.SharedOffset

open Interleaving LittleEndian DiskLog DiskFormat InodeContent BlockOwnership ByteArrays Function
open WriteReservation List Option

/-! ## Writers -/

/-- The buffer of a call of `filewrite`; `source` is what `either_copyin` finds there. -/
structure Call where
  data : List Byte
  source : ℕ → ℕ → Bool × List Byte

structure Shared (C : Type) where
  files : Files
  /-- `f->off` -/
  off : ℕ
  /-- `i` of `filewrite`. -/
  i : C → ℕ
  /-- What a call has returned. -/
  ret : C → Option ℤ
  /-- History: the chunks that were written. -/
  log : List (C × List Byte)

section
variable {C : Type} [DecidableEq C]

def chunkSize (calls : C → Call) (t : Shared C) (c : C) : ℕ :=
  min ((calls c).data.length - t.i c) maxChunk

def chunk (calls : C → Call) (t : Shared C) (c : C) : List Byte :=
  ((calls c).data.drop (t.i c)).take (chunkSize calls t c)

def advance (calls : C → Call) (t : Shared C) (c : C) (r : ℤ) (files : Files) :
    Shared C :=
  let off := if 0 < r then t.off + r.toNat else t.off
  if r = chunkSize calls t c then
    { t with
      files := files
      off := off
      i := update t.i c (t.i c + r.toNat)
      log := t.log ++ [(c, chunk calls t c)] }
  else
    { t with
      files := files
      off := off
      ret := update t.ret c
        (some (if t.i c = (calls c).data.length then (calls c).data.length else -1)) }

/-- The next iteration of the loop of a call, or its return. -/
def exec (sb : Superblock) (inum : ℕ) (calls : C → Call) (t : Shared C) (c : C) :
    Option (Except Panic (Shared C)) :=
  if t.ret c = none then
    if t.i c < (calls c).data.length then
      some ((write sb t.files inum (fun tot m => (calls c).source (t.i c + tot) m) t.off
        (chunkSize calls t c)).map fun found => advance calls t c found.1 found.2)
    else
      some (.ok { t with
        ret := update t.ret c (some ((calls c).data.length : ℤ)) })
  else none

end

/-- The offset is at the end of the file, the buffers are valid, and all of them fit. -/
structure Ready {C : Type} [Fintype C] (sb : Superblock) (inum : ℕ) (calls : C → Call)
    (t : Shared C) : Prop where
  owned : Owned sb t.files
  live : Live sb t.files inum
  off : t.off = (content t.files inum).length
  valid : ∀ c, Supplies (calls c).source (calls c).data
  total : (content t.files inum).length + ∑ c, (calls c).data.length ≤ MAXFILE * BSIZE
  i : ∀ c, t.i c = 0
  ret : ∀ c, t.ret c = none
  log : t.log = []

def chunksOf {C : Type} [DecidableEq C] (log : List (C × List Byte)) (c : C) : List (List Byte) :=
  (log.filter fun entry => entry.1 = c).map Prod.snd

/-- The file is the old one followed by all chunks, the offset is at its end, the chunks
of a call are its buffer from the beginning, and a call that fits in one chunk has one. -/
structure Appended {C : Type} [Fintype C] [DecidableEq C] (sb : Superblock) (inum : ℕ)
    (calls : C → Call) (start t : Shared C) : Prop where
  owned : Owned sb t.files
  live : Live sb t.files inum
  content : content t.files inum = content start.files inum ++ (t.log.map Prod.snd).flatten
  off : t.off = (ByteArrays.content t.files inum).length
  lives : ∀ other, Live sb t.files other ↔ Live sb start.files other
  others : ∀ other, other ≠ inum → Live sb start.files other →
    ByteArrays.content t.files other = ByteArrays.content start.files other
  bytes : ((t.log.map Prod.snd).flatten).length = ∑ c, t.i c
  le : ∀ c, t.i c ≤ (calls c).data.length
  order : ∀ c, (chunksOf t.log c).flatten = (calls c).data.take (t.i c)
  small : ∀ c, (calls c).data.length ≤ maxChunk → t.i c ≠ 0 → chunksOf t.log c = [(calls c).data]
  unused : ∀ c, t.i c = 0 → chunksOf t.log c = []
  returned : ∀ c value, t.ret c = some value →
    value = (calls c).data.length ∧ t.i c = (calls c).data.length

section
variable {C : Type} [Fintype C] [DecidableEq C] {sb : Superblock} {inum : ℕ}
  {calls : C → Call} {start t after : Shared C}

theorem Ready.appended (hready : Ready sb inum calls start) :
    Appended sb inum calls start start where
  owned := hready.owned
  live := hready.live
  content := by
    rw [hready.log]
    exact (append_nil _).symm
  off := hready.off
  lives _ := Iff.rfl
  others other _ hlive := rfl
  bytes := by
    rw [hready.log, Finset.sum_eq_zero fun c _ => hready.i c]
    rfl
  le c := by
    rw [hready.i c]
    exact Nat.zero_le _
  order c := by
    rw [hready.log, hready.i c]
    rfl
  small c _ hne := absurd (hready.i c) hne
  unused c _ := by
    rw [hready.log]
    rfl
  returned c value hvalue := by
    rw [hready.ret c] at hvalue
    cases hvalue

theorem supplies_rest {source : ℕ → ℕ → Bool × List Byte} {data : List Byte}
    (hval : Supplies source data) (i count : ℕ) (hcount : i + count ≤ data.length) :
    Supplies (fun tot m => source (i + tot) m) ((data.drop i).take count) := by
  have hlen : ((data.drop i).take count).length = count := by
    rw [length_take, length_drop]
    omega
  constructor
  · intro tot m
    exact hval.1 (i + tot) m
  · intro tot m hle
    rw [hlen] at hle
    dsimp only
    rw [hval.2 (i + tot) m (by omega), Prod.mk.injEq]
    refine ⟨rfl, map_congr_left fun index hi => ?_⟩
    rw [mem_range] at hi
    dsimp only
    rw [getD_eq_getElem?_getD, getD_eq_getElem?_getD,
      List.getElem?_take_of_lt (by omega), List.getElem?_drop, Nat.add_assoc]

theorem splice_end (content data : List Byte) :
    splice content content.length data = content ++ data := by
  rw [splice, take_length, drop_eq_nil_of_le (Nat.le_add_right _ _), append_nil]

omit [Fintype C] in
theorem chunksOf_append (log : List (C × List Byte)) (c other : C) (data : List Byte) :
    chunksOf (log ++ [(c, data)]) other =
      if other = c then chunksOf log other ++ [data] else chunksOf log other := by
  rw [chunksOf, chunksOf, filter_append, map_append]
  by_cases ho : other = c
  · rw [if_pos ho]
    simp [ho]
  · rw [if_neg ho]
    simp [Ne.symm ho]

theorem Appended.fits (hready : Ready sb inum calls start)
    (happ : Appended sb inum calls start t) (c : C) :
    Fits t.files inum t.off (chunkSize calls t c) := by
  have htotal := hready.total
  have hlen := congrArg List.length happ.content
  rw [length_append, happ.bytes] at hlen
  have hle := happ.le c
  have hsum : ∑ other, t.i other + chunkSize calls t c ≤ ∑ other, (calls other).data.length := by
    have hrest : ∑ other ∈ Finset.univ.erase c, t.i other ≤
        ∑ other ∈ Finset.univ.erase c, (calls other).data.length :=
      Finset.sum_le_sum fun other _ => happ.le other
    rw [← Finset.sum_erase_add _ _ (Finset.mem_univ c),
      ← Finset.sum_erase_add _ (fun other => (calls other).data.length) (Finset.mem_univ c)]
    rw [chunkSize]
    omega
  have hoff := happ.off
  constructor
  · rw [hoff, content_length]
  · omega

theorem Appended.chunk (hready : Ready sb inum calls start)
    (happ : Appended sb inum calls start t) {c : C}
    (hmore : t.i c < (calls c).data.length) {result : ℤ} {files : Files}
    (hwrite : write sb t.files inum (fun tot m => (calls c).source (t.i c + tot) m) t.off
      (chunkSize calls t c) = .ok (result, files)) :
    result = chunkSize calls t c ∧
      Appended sb inum calls start (advance calls t c result files) := by
  have hin : t.i c + chunkSize calls t c ≤ (calls c).data.length := by
    rw [chunkSize]
    omega
  have hpositive : 0 < chunkSize calls t c := by
    rw [chunkSize, maxChunk_eq]
    omega
  have hlength : (SharedOffset.chunk calls t c).length = chunkSize calls t c := by
    rw [SharedOffset.chunk, length_take, length_drop]
    omega
  have hsupplies : Supplies (fun tot m => (calls c).source (t.i c + tot) m)
      (SharedOffset.chunk calls t c) :=
    supplies_rest (hready.valid c) (t.i c) (chunkSize calls t c) hin
  have hfits := happ.fits hready c
  rw [← hlength] at hfits hwrite
  obtain ⟨hres, hkeeps, hcontent⟩ := write_spec happ.owned happ.live hsupplies hfits hwrite
  rw [hlength] at hres
  rw [happ.off, splice_end] at hcontent
  have hpos : 0 < result := by omega
  have htoNat : result.toNat = chunkSize calls t c := by omega
  refine ⟨hres, ?_⟩
  rw [advance, if_pos hpos, if_pos hres, htoNat]
  constructor
  · exact hkeeps.owned
  · exact (hkeeps.live inum).mpr happ.live
  · dsimp only
    rw [hcontent, happ.content, map_append, flatten_append, append_assoc]
    simp [SharedOffset.chunk]
  · dsimp only
    rw [hcontent, length_append, happ.off]
    exact congrArg _ hlength.symm
  · exact fun other => (hkeeps.live other).trans (happ.lives other)
  · intro other ho hlive
    exact (hkeeps.others other ho ((happ.lives other).mpr hlive)).trans (happ.others other ho hlive)
  · dsimp only
    rw [map_append, flatten_append, length_append, happ.bytes,
      Finset.sum_update_of_mem (Finset.mem_univ c),
      ← Finset.sum_erase_add _ _ (Finset.mem_univ c), Finset.erase_eq]
    simp only [map_cons, map_nil, flatten_cons, flatten_nil, append_nil, hlength]
    omega
  · intro other
    dsimp only
    by_cases ho : other = c
    · rw [ho, update_self]
      exact hin
    · rw [update_of_ne ho]
      exact happ.le other
  · intro other
    dsimp only
    rw [chunksOf_append]
    by_cases ho : other = c
    · rw [if_pos ho, ho, update_self, flatten_append, happ.order, take_add]
      simp [SharedOffset.chunk]
    · rw [if_neg ho, update_of_ne ho]
      exact happ.order other
  · intro other hsmall hne
    dsimp only at hne ⊢
    rw [chunksOf_append]
    by_cases ho : other = c
    · subst ho
      -- A call that fits in one chunk is at its beginning.
      have hzero : t.i other = 0 := by
        by_contra hstarted
        have hwhole := happ.order other
        rw [happ.small other hsmall hstarted] at hwhole
        have hsame := congrArg List.length hwhole
        simp only [flatten_cons, flatten_nil, append_nil, length_take] at hsame
        omega
      rw [if_pos rfl, happ.unused other hzero, SharedOffset.chunk, chunkSize, hzero,
        drop_zero, Nat.sub_zero, min_eq_left hsmall, take_length]
      rfl
    · rw [if_neg ho]
      rw [update_of_ne ho] at hne
      exact happ.small other hsmall hne
  · intro other hzero
    dsimp only at hzero ⊢
    rw [chunksOf_append]
    by_cases ho : other = c
    · rw [ho, update_self] at hzero
      omega
    · rw [if_neg ho]
      rw [update_of_ne ho] at hzero
      exact happ.unused other hzero
  · intro other value hvalue
    dsimp only at hvalue ⊢
    obtain ⟨hlen, hall⟩ := happ.returned other value hvalue
    by_cases ho : other = c
    · rw [ho] at hall
      omega
    · rw [update_of_ne ho]
      exact ⟨hlen, hall⟩

theorem exec_appended (hready : Ready sb inum calls start)
    (happ : Appended sb inum calls start t) {c : C}
    (hexec : exec sb inum calls t c = some (.ok after)) : Appended sb inum calls start after := by
  rw [exec] at hexec
  by_cases hret : t.ret c = none
  · rw [if_pos hret] at hexec
    by_cases hmore : t.i c < (calls c).data.length
    · rw [if_pos hmore, some.injEq] at hexec
      cases hwrite : write sb t.files inum
          (fun tot m => (calls c).source (t.i c + tot) m) t.off (chunkSize calls t c) with
      | error panic =>
        rw [hwrite] at hexec
        cases hexec
      | ok found =>
        rw [hwrite] at hexec
        cases hexec
        exact (happ.chunk hready hmore hwrite).2
    · rw [if_neg hmore, some.injEq, Except.ok.injEq] at hexec
      rw [← hexec]
      have hall : t.i c = (calls c).data.length := by
        have hle := happ.le c
        omega
      refine ⟨happ.owned, happ.live, happ.content, happ.off,
        happ.lives, happ.others, happ.bytes, happ.le, happ.order, happ.small,
        happ.unused, ?_⟩
      intro other value hvalue
      dsimp only at hvalue ⊢
      by_cases ho : other = c
      · rw [ho, update_self, some.injEq] at hvalue
        rw [ho]
        exact ⟨hvalue.symm, hall⟩
      · rw [update_of_ne ho] at hvalue
        exact happ.returned other value hvalue
  · rw [if_neg hret] at hexec
    cases hexec

theorem runs_appended (hready : Ready sb inum calls start)
    (hruns : Reachable (exec sb inum calls) (fun _ _ => True) (fun t => t = start) t) :
    Appended sb inum calls start t := by
  apply hruns.invariant
  · rintro t rfl
    exact hready.appended
  · intro t c after happ _ hexec
    exact exec_appended hready happ hexec

/-- A call that has not returned can go on when there are blocks for its next chunk. -/
theorem exec_enabled (hready : Ready sb inum calls start)
    (happ : Appended sb inum calls start t) {c : C} (hret : t.ret c = none)
    (hroom : t.i c < (calls c).data.length → Room sb t.files inum t.off (chunkSize calls t c)) :
    ∃ after, exec sb inum calls t c = some (.ok after) := by
  rw [exec, if_pos hret]
  by_cases hmore : t.i c < (calls c).data.length
  · obtain ⟨result, files, hwrite⟩ := write_returns happ.owned happ.live
      (fun tot m => (calls c).source (t.i c + tot) m) (happ.fits hready c)
      (hroom hmore)
    rw [if_pos hmore, hwrite]
    exact ⟨_, rfl⟩
  · rw [if_neg hmore]
    exact ⟨_, rfl⟩

/-- What a call still has to do: its bytes, and to return. -/
def left (calls : C → Call) (t : Shared C) (c : C) : ℕ :=
  (calls c).data.length - t.i c + if t.ret c = none then 1 else 0

theorem exec_decreases (hready : Ready sb inum calls start)
    (happ : Appended sb inum calls start t) {c : C}
    (hexec : exec sb inum calls t c = some (.ok after)) :
    ∑ other, left calls after other < ∑ other, left calls t other := by
  rw [exec] at hexec
  by_cases hret : t.ret c = none
  · rw [if_pos hret] at hexec
    have hsmaller : left calls after c < left calls t c ∧
        ∀ other, other ≠ c → left calls after other = left calls t other := by
      by_cases hmore : t.i c < (calls c).data.length
      · rw [if_pos hmore, some.injEq] at hexec
        cases hwrite : write sb t.files inum (fun tot m => (calls c).source (t.i c + tot) m) t.off
            (chunkSize calls t c) with
        | error panic =>
          rw [hwrite] at hexec
          cases hexec
        | ok found =>
          obtain ⟨hres, -⟩ := happ.chunk hready hmore hwrite
          rw [hwrite, Except.map, Except.ok.injEq] at hexec
          have hpos : 0 < chunkSize calls t c := by
            rw [chunkSize, maxChunk_eq]
            omega
          rw [← hexec, advance, if_pos hres]
          constructor
          · simp only [left, update_self]
            omega
          · intro other ho
            simp only [left, update_of_ne ho]
      · rw [if_neg hmore, some.injEq, Except.ok.injEq] at hexec
        rw [← hexec]
        constructor
        · simp [left, hret]
        · intro other ho
          simp only [left, update_of_ne ho]
    apply Finset.sum_lt_sum
    · intro other _
      by_cases ho : other = c
      · rw [ho]
        exact hsmaller.1.le
      · exact (hsmaller.2 other ho).le
    · exact ⟨c, Finset.mem_univ c, hsmaller.1⟩
  · rw [if_neg hret] at hexec
    cases hexec

end

/-! ## Readers -/

structure Reading (C : Type) where
  files : Files
  /-- `f->off` -/
  off : ℕ
  /-- What a call has returned, and the bytes it has stored. -/
  got : C → Option (ℤ × List Byte)
  /-- History: the bytes of the calls. -/
  log : List (C × List Byte)

section
variable {C : Type} [DecidableEq C]

def received (t : Reading C) (c : C) (r : ℤ) (bytes : List Byte) (files : Files) : Reading C where
  files := files
  off := if 0 < r then t.off + r.toNat else t.off
  got := update t.got c (some (r, bytes))
  log := t.log ++ [(c, bytes)]

/-- The section of `fileread` under the lock of the inode. -/
def readExec (sb : Superblock) (inum : ℕ) (n : C → ℕ) (t : Reading C) (c : C) :
    Option (Except Panic (Reading C)) :=
  if t.got c = none then
    some ((read sb t.files inum t.off (n c)).map fun found =>
      received t c found.1 found.2.1 found.2.2)
  else none

/-- There are free blocks for the holes that the call reads. -/
def HasRoom (sb : Superblock) (inum : ℕ) (n : C → ℕ) (t : Reading C) (c : C) : Prop :=
  Room sb t.files inum t.off (min (n c) ((t.files.inode inum).size.toNat - t.off))

structure ReadReady (sb : Superblock) (inum : ℕ) (n : C → ℕ) (t : Reading C) : Prop where
  owned : Owned sb t.files
  live : Live sb t.files inum
  off : t.off ≤ (content t.files inum).length
  lengths : ∀ c, n c < 2 ^ 31
  got : ∀ c, t.got c = none
  log : t.log = []

/-- The bytes of the calls, in lock order, are the bytes of the file from where the
offset was to where it is, each call has one piece of them, and a piece is shorter than
the call asked for only at the end of the file. -/
structure Partitioned (sb : Superblock) (inum : ℕ) (n : C → ℕ) (start t : Reading C) :
    Prop where
  owned : Owned sb t.files
  live : Live sb t.files inum
  same : content t.files inum = content start.files inum
  low : start.off ≤ t.off
  high : t.off ≤ (content start.files inum).length
  bytes : (t.log.map Prod.snd).flatten =
    ((content start.files inum).drop start.off).take (t.off - start.off)
  once : ∀ c, chunksOf t.log c = ((t.got c).map Prod.snd).toList
  returned : ∀ c value bytes, t.got c = some (value, bytes) →
    value = bytes.length ∧ bytes.length ≤ n c ∧
      (bytes.length < n c → t.off = (content start.files inum).length)

variable {sb : Superblock} {inum : ℕ} {n : C → ℕ} {start t after : Reading C}

theorem ReadReady.partitioned (hready : ReadReady sb inum n start) :
    Partitioned sb inum n start start where
  owned := hready.owned
  live := hready.live
  same := rfl
  low := le_refl _
  high := hready.off
  bytes := by
    rw [hready.log, Nat.sub_self]
    rfl
  once c := by
    rw [hready.log, hready.got c]
    rfl
  returned c value bytes hgot := by
    rw [hready.got c] at hgot
    cases hgot

theorem Partitioned.read (hready : ReadReady sb inum n start)
    (hpart : Partitioned sb inum n start t) (c : C) (hroom : HasRoom sb inum n t c) :
    ∃ files, read sb t.files inum t.off (n c) =
        .ok ((((content start.files inum).drop t.off).take (n c)).length,
          ((content start.files inum).drop t.off).take (n c), files) ∧
      KeepsOthers sb t.files files inum ∧ content files inum = content start.files inum := by
  have hn := hready.lengths c
  have hsize := hpart.owned.size inum hpart.live
  have hmax : MAXFILE * BSIZE < 2 ^ 31 := by decide
  have hoff := hpart.high
  rw [← hpart.same, content_length] at hoff
  obtain ⟨files, hread, hkeeps, hsame⟩ := read_spec hpart.owned hpart.live
    (show n c < 2 ^ 32 by omega) (by omega) hroom
  rw [hpart.same] at hread hsame
  exact ⟨files, hread, hkeeps, hsame⟩

theorem readExec_partitioned (hready : ReadReady sb inum n start)
    (hpart : Partitioned sb inum n start t) {c : C} (hroom : HasRoom sb inum n t c)
    (hexec : readExec sb inum n t c = some (.ok after)) : Partitioned sb inum n start after := by
  rw [readExec] at hexec
  by_cases hgot : t.got c = none
  · obtain ⟨files, hread, hkeeps, hsame⟩ := hpart.read hready c hroom
    rw [if_pos hgot, hread, some.injEq] at hexec
    cases hexec
    have hlow := hpart.low
    have hhigh := hpart.high
    generalize hbytes : ((content start.files inum).drop t.off).take (n c) = bytes
    have hlen : bytes.length = min (n c) ((content start.files inum).length - t.off) := by
      rw [← hbytes, length_take, length_drop]
    have hoff : (if 0 < (bytes.length : ℤ) then t.off + (bytes.length : ℤ).toNat
        else t.off) = t.off + bytes.length := by
      split <;> omega
    dsimp only
    rw [received, hoff]
    constructor
    · exact hkeeps.owned
    · exact (hkeeps.live inum).mpr hpart.live
    · exact hsame
    · dsimp only
      omega
    · dsimp only
      omega
    · dsimp only
      have hsplit : t.off + bytes.length - start.off =
          (t.off - start.off) + bytes.length := by omega
      have hwhole : bytes = ((content start.files inum).drop t.off).take bytes.length := by
        rw [hlen, ← hbytes]
        apply take_eq_take_iff.mpr
        rw [length_drop]
        omega
      rw [map_append, flatten_append, hpart.bytes, hsplit, take_add,
        drop_drop, Nat.add_sub_cancel' hlow, ← hwhole]
      simp
    · intro other
      dsimp only
      rw [chunksOf_append]
      by_cases ho : other = c
      · subst ho
        rw [if_pos rfl, hpart.once, hgot, update_self]
        rfl
      · rw [if_neg ho, update_of_ne ho]
        exact hpart.once other
    · intro other value found hf
      dsimp only at hf ⊢
      by_cases ho : other = c
      · subst ho
        rw [update_self, some.injEq, Prod.mk.injEq] at hf
        rw [← hf.1, ← hf.2]
        refine ⟨rfl, by omega, fun hshort => by omega⟩
      · rw [update_of_ne ho] at hf
        obtain ⟨hvalue, hle, hend⟩ := hpart.returned other value found hf
        refine ⟨hvalue, hle, fun hshort => ?_⟩
        have hreached := hend hshort
        omega
  · rw [if_neg hgot] at hexec
    cases hexec

theorem reads_partitioned (hready : ReadReady sb inum n start)
    (hruns : Reachable (readExec sb inum n) (HasRoom sb inum n) (fun t => t = start) t) :
    Partitioned sb inum n start t := by
  apply hruns.invariant
  · rintro t rfl
    exact hready.partitioned
  · intro t c after hpart hroom hexec
    exact readExec_partitioned hready hpart hroom hexec

theorem readExec_enabled (hready : ReadReady sb inum n start)
    (hpart : Partitioned sb inum n start t) {c : C} (hgot : t.got c = none)
    (hroom : HasRoom sb inum n t c) : ∃ after, readExec sb inum n t c = some (.ok after) := by
  obtain ⟨files, hread, -⟩ := hpart.read hready c hroom
  rw [readExec, if_pos hgot, hread]
  exact ⟨_, rfl⟩

end

/-- Calls that share a `struct file`, in any interleaving of their sections.  Writers:
the file is the old one followed by their chunks in lock order; a call goes on when there
are free blocks for its next chunk, every action brings its call nearer to its end, and
when all calls have returned, each has returned its length and has written its buffer in
order.  Readers: their pieces are the bytes of the file, in lock order. -/
theorem shared_offset_exact (sb : Superblock) (inum : ℕ) (C : Type) [Fintype C] [DecidableEq C] :
    (∀ (calls : C → Call) (start t : Shared C), Ready sb inum calls start →
      Reachable (exec sb inum calls) (fun _ _ => True) (fun t => t = start) t →
      Appended sb inum calls start t ∧
      (∀ c, t.ret c = none → (t.i c < (calls c).data.length →
          Room sb t.files inum t.off (chunkSize calls t c)) →
        ∃ after, exec sb inum calls t c = some (.ok after) ∧
          ∑ other, left calls after other < ∑ other, left calls t other) ∧
      ((∀ c, t.ret c ≠ none) → ∀ c, t.ret c = some ((calls c).data.length : ℤ) ∧
        (chunksOf t.log c).flatten = (calls c).data)) ∧
    (∀ (n : C → ℕ) (start t : Reading C), ReadReady sb inum n start →
      Reachable (readExec sb inum n) (HasRoom sb inum n) (fun t => t = start) t →
      Partitioned sb inum n start t ∧
      ∀ c, t.got c = none → HasRoom sb inum n t c →
        ∃ after, readExec sb inum n t c = some (.ok after)) := by
  constructor
  · intro calls start t hready hruns
    have happended := runs_appended hready hruns
    refine ⟨happended, fun c hret hroom => ?_, fun hall c => ?_⟩
    · obtain ⟨after, hexec⟩ := exec_enabled hready happended hret hroom
      exact ⟨after, hexec, exec_decreases hready happended hexec⟩
    · obtain ⟨value, hvalue⟩ := ne_none_iff_exists'.mp (hall c)
      obtain ⟨hlength, hdone⟩ := happended.returned c value hvalue
      rw [hvalue, hlength, happended.order c, hdone, take_length]
      exact ⟨rfl, rfl⟩
  · intro n start t hready hruns
    have hpartitioned := reads_partitioned hready hruns
    exact ⟨hpartitioned, fun c hgot hroom => readExec_enabled hready hpartitioned hgot hroom⟩

/-! ## Calls on an empty file -/

def callsOf {C : Type} (data : C → List Byte) (c : C) : Call := ⟨data c, copyFromKernel (data c)⟩

def emptyShared (C : Type) : Shared C where
  files := emptyFile
  off := 0
  i _ := 0
  ret _ := none
  log := []

theorem ready_emptyShared {C : Type} [Fintype C] {sb : Superblock} (howned : Owned sb emptyFile)
    (hlive : Live sb emptyFile 1) {data : C → List Byte}
    (hdata : ∑ c, (data c).length ≤ MAXFILE * BSIZE) :
    Ready sb 1 (callsOf data) (emptyShared C) where
  owned := howned
  live := hlive
  off := rfl
  valid c := supplies_copyFromKernel (data c)
  total := by
    have hnil : (content (emptyShared C).files 1).length = 0 := rfl
    rwa [hnil, Nat.zero_add]
  i _ := rfl
  ret _ := rfl
  log := rfl

/-- The buffers of two processes, of which one writes more than a chunk. -/
def twoBuffers (big : Bool) : List Byte := if big then replicate 3100 7 else [5]

def smallDisk : Superblock := smallSuperblock 12 (by decide) (by decide)

theorem ready_twoBuffers : Ready smallDisk 1 (callsOf twoBuffers) (emptyShared Bool) := by
  refine ready_emptyShared (owned_emptyFile _ _ (by decide +kernel) (by decide))
    (live_emptyFile _ _) ?_
  rw [Fintype.sum_bool, twoBuffers, twoBuffers, if_pos rfl, length_replicate]
  decide

instance (n : Bool → ℕ) (t : Reading Bool) (c : Bool) : Decidable (HasRoom smallDisk 1 n t c) :=
  inferInstanceAs (Decidable (_ ≤ _))

def readersOf (t : Shared Bool) : Reading Bool := ⟨t.files, 0, fun _ => none, []⟩

/-- What the calls below have done. -/
def shared (t : Shared Bool) : Bool :=
  decide (t.log.map Prod.fst = [true, false, true] ∧ t.off = 3101 ∧ ∀ c, t.ret c ≠ none) &&
    (runActions (readExec smallDisk 1 fun _ : Bool => 3080)
      (fun readers c => decide (HasRoom smallDisk 1 (fun _ => 3080) readers c)) (readersOf t)
      [false, true]).any fun readers => decide (readers.off = 3101 ∧
        readers.log.map (fun piece => (piece.1, piece.2.length)) = [(false, 3080), (true, 21)])

/-- A writer writes between the chunks of another one, and two readers share what they have
written. -/
theorem shared_offset_exact_twoBuffers : ∃ t readers,
    Reachable (exec smallDisk 1 (callsOf twoBuffers)) (fun _ _ => True)
      (fun t => t = emptyShared Bool) t ∧ t.log.map Prod.fst = [true, false, true] ∧
    t.ret true = some 3100 ∧ (chunksOf t.log true).flatten = replicate 3100 7 ∧
    Reachable (readExec smallDisk 1 fun _ : Bool => 3080) (HasRoom smallDisk 1 fun _ => 3080)
      (fun readers => readers = readersOf t) readers ∧
    readers.log.map (fun piece => (piece.1, piece.2.length)) = [(false, 3080), (true, 21)] ∧
    (readers.log.map Prod.snd).flatten = content t.files 1 := by
  obtain ⟨t, hruns, hshared⟩ := @exists_reachable _ _ _ (exec smallDisk 1 (callsOf twoBuffers))
    (fun _ _ => True) (fun t => t = emptyShared Bool) (fun _ _ => true) shared (emptyShared Bool)
    [true, false, true, true, false] rfl (fun _ _ _ => trivial) (by decide +kernel)
  rw [shared, Bool.and_eq_true, decide_eq_true_eq] at hshared
  obtain ⟨⟨howners, hoff, hret⟩, hreads⟩ := hshared
  obtain ⟨readers, hreads, hpieces⟩ := @exists_reachable _ _ _ _ (HasRoom smallDisk 1 fun _ => 3080)
    (fun readers => readers = readersOf t) _ _ _ [false, true] rfl
    (fun _ _ => of_decide_eq_true) hreads
  obtain ⟨hend, hpieces⟩ := of_decide_eq_true hpieces
  obtain ⟨hwriters, hreaders⟩ := shared_offset_exact smallDisk 1 Bool
  obtain ⟨happ, -, hdone⟩ := hwriters _ _ _ ready_twoBuffers hruns
  obtain ⟨hpart, -⟩ := hreaders _ (readersOf t) readers
    ⟨happ.owned, happ.live, Nat.zero_le _, fun _ => by decide, fun _ => rfl, rfl⟩ hreads
  refine ⟨t, readers, hruns, howners, ?_, (hdone hret true).2, hreads, hpieces, ?_⟩
  · rw [(hdone hret true).1]
    exact congrArg (fun length : ℕ => some (length : ℤ)) length_replicate
  · have hall : readers.off - (readersOf t).off = (content t.files 1).length := by
      rw [← happ.off, hoff, hend]
      rfl
    rw [hpart.bytes, hall]
    exact take_length

def oneBuffer (_ : Unit) : List Byte := [7]

/-- On a disk without a free block the call does not return. -/
theorem filewrite_panics_on_a_full_disk :
    Ready (smallSuperblock 4 (by decide) (by decide)) 1 (callsOf oneBuffer) (emptyShared Unit) ∧
      exec (smallSuperblock 4 (by decide) (by decide)) 1 (callsOf oneBuffer) (emptyShared Unit)
        () = some (.error .balloc) := by
  constructor
  · exact ready_emptyShared owned_fullDisk (live_emptyFile _ _) (by decide)
  · have hsource : (fun tot m => (callsOf oneBuffer ()).source ((emptyShared Unit).i () + tot) m) =
        copyFromKernel [7] := by
      funext tot m
      change copyFromKernel [7] (0 + tot) m = copyFromKernel [7] tot m
      rw [Nat.zero_add]
    have hret : (emptyShared Unit).ret () = none := rfl
    have hmore : (emptyShared Unit).i () < (callsOf oneBuffer ()).data.length := Nat.one_pos
    have hsize : chunkSize (callsOf oneBuffer) (emptyShared Unit) () = 1 := rfl
    rw [exec, if_pos hret, if_pos hmore, hsource, hsize]
    exact congrArg (fun outcome => some (Except.map _ outcome)) write_fullDisk

end Xv6.SharedOffset
