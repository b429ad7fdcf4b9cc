import Xv6.Core.LinkedRing
import Xv6.Log.DiskLog
import Xv6.Panic

/-!
# The list of the buffer cache

`kernel/bio.c` with the list through `next` and `prev` as it is in memory.  For every
sequence of calls the list is a ring of all buffers, no block is cached twice, a buffer
in use is left alone, and a miss recycles the unused buffer that was released longest ago.
-/

namespace Xv6.LruCache

open List Nat LinkedRing
open DiskLog (MAXOPBLOCKS)

def NBUF : ℕ := MAXOPBLOCKS * 3

instance : NeZero NBUF := ⟨by decide⟩

/-- `struct buf`, without its pointers and its lock. -/
structure Buf (D : Type) where
  valid : Bool
  dev : BitVec 32
  blockno : BitVec 32
  refcnt : BitVec 32
  data : D

/-- `bcache` -/
structure Cache (D : Type) where
  buf : Fin NBUF → Buf D
  links : Links (Fin NBUF)

section
variable {D : Type}

def setBuf (cache : Cache D) (b : Fin NBUF) (buf : Buf D) : Cache D :=
  { cache with buf := Function.update cache.buf b buf }

def binit (zero : D) : Cache D where
  buf := fun _ => ⟨false, 0, 0, 0, zero⟩
  links := (List.finRange NBUF).foldl pushFront ⟨fun _ => none, fun _ => none⟩

def isBlock (cache : Cache D) (dev blockno : BitVec 32) (b : Fin NBUF) : Bool :=
  (cache.buf b).dev == dev && (cache.buf b).blockno == blockno

def isUnused (cache : Cache D) (b : Fin NBUF) : Bool := (cache.buf b).refcnt == 0

def hit (cache : Cache D) (b : Fin NBUF) : Cache D :=
  setBuf cache b { cache.buf b with refcnt := (cache.buf b).refcnt + 1 }

def recycle (cache : Cache D) (dev blockno : BitVec 32) (b : Fin NBUF) : Cache D :=
  setBuf cache b { cache.buf b with dev := dev, blockno := blockno, valid := false, refcnt := 1 }

def bget (cache : Cache D) (dev blockno : BitVec 32) : Except Panic (Fin NBUF × Cache D) :=
  match scan cache.links.next (isBlock cache dev blockno) (NBUF + 1) (cache.links.next none) with
  | some b => .ok (b, hit cache b)
  | none =>
    match scan cache.links.prev (isUnused cache) (NBUF + 1) (cache.links.prev none) with
    | some b => .ok (b, recycle cache dev blockno b)
    | none => .error .bget

/-- The rest of `bread`; `block` is what `virtio_disk_rw` reads. -/
def fill (cache : Cache D) (b : Fin NBUF) (block : D) : Cache D :=
  if (cache.buf b).valid then cache
  else setBuf cache b { cache.buf b with data := block, valid := true }

def bread (cache : Cache D) (dev blockno : BitVec 32) (block : D) :
    Except Panic (Fin NBUF × Cache D) :=
  (bget cache dev blockno).map fun (b, cache) => (b, fill cache b block)

def brelse (cache : Cache D) (b : Fin NBUF) : Cache D :=
  let refcnt := (cache.buf b).refcnt - 1
  let cache := setBuf cache b { cache.buf b with refcnt := refcnt }
  if refcnt = 0 then { cache with links := pushFront (unlink cache.links b) b }
  else cache

def bpin (cache : Cache D) (b : Fin NBUF) : Cache D :=
  setBuf cache b { cache.buf b with refcnt := (cache.buf b).refcnt + 1 }

def bunpin (cache : Cache D) (b : Fin NBUF) : Cache D :=
  setBuf cache b { cache.buf b with refcnt := (cache.buf b).refcnt - 1 }

inductive Call (D : Type) where
  | bread (dev blockno : BitVec 32) (block : D)
  | brelse (b : Fin NBUF)
  | bpin (b : Fin NBUF)
  | bunpin (b : Fin NBUF)

def exec (cache : Cache D) : Call D → Except Panic (Cache D)
  | .bread dev blockno block => (bread cache dev blockno block).map Prod.snd
  | .brelse b => .ok (brelse cache b)
  | .bpin b => .ok (bpin cache b)
  | .bunpin b => .ok (bunpin cache b)

/-- Only a buffer that the caller holds is released, pinned and unpinned. -/
def Allowed (cache : Cache D) : Call D → Prop
  | .bread _ _ _ => True
  | .brelse b => (cache.buf b).refcnt ≠ 0
  | .bpin b => (cache.buf b).refcnt ≠ 0
  | .bunpin b => (cache.buf b).refcnt ≠ 0

/-- The buffer that a call releases for the last time. -/
def released (cache : Cache D) : Call D → List (Fin NBUF)
  | .brelse b => if (cache.buf b).refcnt - 1 = 0 then [b] else []
  | _ => []

/-- The cache after a sequence of calls, with the releases to `refcnt` 0 that happened,
the last one first. -/
inductive Reaches (zero : D) : Cache D → List (Fin NBUF) → Prop
  | binit : Reaches zero (binit zero) []
  | call {cache after : Cache D} {log : List (Fin NBUF)} {call : Call D} :
      Reaches zero cache log → Allowed cache call → exec cache call = .ok after →
      Reaches zero after (released cache call ++ log)

/-! ## The invariant -/

/-- The list from `head.next` on, and from `head.prev` on. -/
def nextList (cache : Cache D) : List (Fin NBUF) :=
  collect cache.links.next (NBUF + 1) (cache.links.next none)

def prevList (cache : Cache D) : List (Fin NBUF) :=
  collect cache.links.prev (NBUF + 1) (cache.links.prev none)

def Unique (cache : Cache D) : Prop :=
  ∀ a b, (cache.buf a).dev ≠ 0 → (cache.buf a).dev = (cache.buf b).dev →
    (cache.buf a).blockno = (cache.buf b).blockno → a = b

structure Invariant (cache : Cache D) (log order : List (Fin NBUF)) : Prop where
  ring : Ring cache.links order
  complete : ∀ b, b ∈ order
  sorted : order.Pairwise fun a b => log.idxOf a ≤ log.idxOf b
  unique : Unique cache
  valid : ∀ b, (cache.buf b).refcnt ≠ 0 → (cache.buf b).valid = true

theorem ring_foldl {links : Links (Fin NBUF)} {order list : List (Fin NBUF)}
    (hring : Ring links order) (hnd : (list.reverse ++ order).Nodup) :
    Ring (list.foldl pushFront links) (list.reverse ++ order) := by
  induction list generalizing links order with
  | nil => exact hring
  | cons b list ih =>
    rw [reverse_cons, append_assoc, singleton_append] at hnd ⊢
    have hb := (nodup_cons.mp (nodup_append.mp hnd).2.1).1
    exact ih (hring.pushFront hb) hnd

theorem Invariant.binit (zero : D) : Invariant (binit zero) [] (List.finRange NBUF).reverse := by
  refine ⟨?_, fun b => by simp, ?_, fun a b hdev => absurd rfl hdev,
    fun b hrefcnt => absurd rfl hrefcnt⟩
  · have hnil : Ring (⟨fun _ => none, fun _ => none⟩ : Links (Fin NBUF)) [] :=
      ⟨⟨rfl, rfl⟩, nodup_nil⟩
    have hring := ring_foldl hnil (show ((List.finRange NBUF).reverse ++ []).Nodup by
      rw [append_nil, nodup_reverse]
      exact nodup_finRange NBUF)
    rwa [append_nil] at hring
  · exact pairwise_of_forall fun a b => le_refl 0

variable {cache after : Cache D} {log order : List (Fin NBUF)}

theorem Invariant.length (hinv : Invariant cache log order) : order.length < NBUF + 1 := by
  have hle := hinv.ring.nodup.length_le_card
  rw [Fintype.card_fin] at hle
  omega

theorem bget_eq (hinv : Invariant cache log order) (dev blockno : BitVec 32) :
    bget cache dev blockno =
      match order.find? (isBlock cache dev blockno) with
      | some b => .ok (b, hit cache b)
      | none =>
        match order.reverse.find? (isUnused cache) with
        | some b => .ok (b, recycle cache dev blockno b)
        | none => .error .bget := by
  rw [bget, hinv.ring.scan_next _ hinv.length, hinv.ring.scan_prev _ hinv.length]

theorem setBuf_self (cache : Cache D) (b : Fin NBUF) (buf : Buf D) :
    (setBuf cache b buf).buf b = buf := Function.update_self _ _ _

theorem setBuf_of_ne (cache : Cache D) {b other : Fin NBUF} (hne : other ≠ b)
    (buf : Buf D) : (setBuf cache b buf).buf other = cache.buf other :=
  Function.update_of_ne hne _ _

theorem Invariant.setBuf (hinv : Invariant cache log order) {b : Fin NBUF} {buf : Buf D}
    (hdev : buf.dev = (cache.buf b).dev) (hblockno : buf.blockno = (cache.buf b).blockno)
    (hval : buf.refcnt ≠ 0 → buf.valid = true) : Invariant (setBuf cache b buf) log order := by
  have hkeys : ∀ c, ((LruCache.setBuf cache b buf).buf c).dev = (cache.buf c).dev ∧
      ((LruCache.setBuf cache b buf).buf c).blockno = (cache.buf c).blockno := by
    intro c
    by_cases heq : c = b
    · rw [heq, setBuf_self]
      exact ⟨hdev, hblockno⟩
    · rw [setBuf_of_ne cache heq]
      exact ⟨rfl, rfl⟩
  refine ⟨hinv.ring, hinv.complete, hinv.sorted, ?_, ?_⟩
  · intro a c hnonzero hsame hb
    rw [(hkeys a).1] at hnonzero hsame
    rw [(hkeys c).1] at hsame
    rw [(hkeys a).2, (hkeys c).2] at hb
    exact hinv.unique a c hnonzero hsame hb
  · intro c hrefcnt
    by_cases heq : c = b
    · rw [heq, setBuf_self] at hrefcnt ⊢
      exact hval hrefcnt
    · rw [setBuf_of_ne cache heq] at hrefcnt ⊢
      exact hinv.valid c hrefcnt

theorem Invariant.recycle (hinv : Invariant cache log order) {dev blockno : BitVec 32}
    (hmiss : ∀ b, isBlock cache dev blockno b = false) {b : Fin NBUF} {block : D} :
    Invariant (fill (recycle cache dev blockno b) b block) log order := by
  have hfill : fill (LruCache.recycle cache dev blockno b) b block =
      LruCache.setBuf cache b ⟨true, dev, blockno, 1, block⟩ := by
    simp [fill, LruCache.recycle, LruCache.setBuf]
  have ho : ∀ c, ¬((cache.buf c).dev = dev ∧ (cache.buf c).blockno = blockno) := by
    intro c
    have hnot := hmiss c
    simp only [isBlock, Bool.and_eq_false_iff, beq_eq_false_iff_ne] at hnot
    tauto
  rw [hfill]
  refine ⟨hinv.ring, hinv.complete, hinv.sorted, ?_, ?_⟩
  · intro a c hnonzero hsame hb
    by_cases ha : a = b
    · by_cases hc : c = b
      · rw [ha, hc]
      · rw [ha, setBuf_self, setBuf_of_ne cache hc] at hsame hb
        exact absurd ⟨hsame.symm, hb.symm⟩ (ho c)
    · rw [setBuf_of_ne cache ha] at hnonzero hsame hb
      by_cases hc : c = b
      · rw [hc, setBuf_self] at hsame hb
        exact absurd ⟨hsame, hb⟩ (ho a)
      · rw [setBuf_of_ne cache hc] at hsame hb
        exact hinv.unique a c hnonzero hsame hb
  · intro c hrefcnt
    by_cases heq : c = b
    · rw [heq, setBuf_self]
    · rw [setBuf_of_ne cache heq] at hrefcnt ⊢
      exact hinv.valid c hrefcnt

/-- Moving a released buffer to the front keeps the list sorted by the last release. -/
theorem sorted_release {b : Fin NBUF} (hnd : order.Nodup)
    (hsorted : order.Pairwise fun a c => log.idxOf a ≤ log.idxOf c) :
    (b :: order.erase b).Pairwise fun a c => (b :: log).idxOf a ≤ (b :: log).idxOf c := by
  refine pairwise_cons.mpr ⟨fun a _ => ?_, ?_⟩
  · rw [idxOf_cons_self]
    exact zero_le _
  · have hrest := hsorted.sublist (show (order.erase b).Sublist order from erase_sublist)
    refine hrest.imp_of_mem ?_
    intro a c ha hc hle
    have hane : b ≠ a := fun heq => hnd.not_mem_erase (heq ▸ ha)
    have hcne : b ≠ c := fun heq => hnd.not_mem_erase (heq ▸ hc)
    rw [idxOf_cons_ne _ hane, idxOf_cons_ne _ hcne]
    exact succ_le_succ hle

theorem Invariant.brelse (hinv : Invariant cache log order) {b : Fin NBUF}
    (hheld : (cache.buf b).refcnt ≠ 0) :
    ∃ order', Invariant (brelse cache b) (released cache (.brelse b) ++ log) order' := by
  have hset : Invariant (LruCache.setBuf cache b
      { cache.buf b with refcnt := (cache.buf b).refcnt - 1 }) log order :=
    hinv.setBuf rfl rfl fun _ => hinv.valid b hheld
  by_cases hlast : (cache.buf b).refcnt - 1 = 0
  · rw [LruCache.brelse, released, if_pos hlast]
    dsimp only
    rw [if_pos hlast]
    refine ⟨b :: order.erase b, hset.ring.toFront (hinv.complete b), ?_,
      sorted_release hinv.ring.nodup hinv.sorted, hset.unique, hset.valid⟩
    intro c
    by_cases heq : c = b
    · rw [heq]
      exact mem_cons_self
    · exact mem_cons_of_mem b ((mem_erase_of_ne heq).mpr (hinv.complete c))
  · rw [LruCache.brelse, released, if_neg hlast]
    dsimp only
    rw [if_neg hlast]
    exact ⟨order, hset⟩

theorem bread_cases (hinv : Invariant cache log order) {dev blockno : BitVec 32} {block : D}
    {b : Fin NBUF} (hbread : bread cache dev blockno block = .ok (b, after)) :
    (isBlock cache dev blockno b = true ∧ after = fill (hit cache b) b block) ∨
    ((∀ c, isBlock cache dev blockno c = false) ∧ order.reverse.find? (isUnused cache) = some b ∧
      after = fill (recycle cache dev blockno b) b block) := by
  rw [bread, bget_eq hinv] at hbread
  cases hf : order.find? (isBlock cache dev blockno) with
  | some c =>
    rw [hf] at hbread
    cases hbread
    exact Or.inl ⟨List.find?_some hf, rfl⟩
  | none =>
    rw [hf] at hbread
    have hmiss : ∀ c, isBlock cache dev blockno c = false := fun c => by
      simpa using List.find?_eq_none.mp hf c (hinv.complete c)
    cases hvictim : order.reverse.find? (isUnused cache) with
    | some c =>
      rw [hvictim] at hbread
      cases hbread
      exact Or.inr ⟨hmiss, rfl, rfl⟩
    | none =>
      rw [hvictim] at hbread
      cases hbread

theorem fill_valid (cache : Cache D) {b : Fin NBUF} (block : D)
    (hval : (cache.buf b).valid = true) : fill cache b block = cache := by
  rw [fill, if_pos hval]

theorem Invariant.hit (hinv : Invariant cache log order) {b : Fin NBUF} {block : D} :
    Invariant (fill (hit cache b) b block) log order := by
  rw [fill]
  split
  next hval =>
    refine hinv.setBuf rfl rfl fun _ => ?_
    rwa [LruCache.hit, setBuf_self] at hval
  next =>
    have htwice : LruCache.setBuf (LruCache.hit cache b) b
        { (LruCache.hit cache b).buf b with data := block, valid := true } =
        LruCache.setBuf cache b ⟨true, (cache.buf b).dev, (cache.buf b).blockno,
          (cache.buf b).refcnt + 1, block⟩ := by
      simp [LruCache.hit, LruCache.setBuf]
    rw [htwice]
    exact hinv.setBuf rfl rfl fun _ => rfl

theorem Invariant.exec (hinv : Invariant cache log order) {call : Call D}
    (hallow : Allowed cache call) (hexec : exec cache call = .ok after) :
    ∃ order', Invariant after (released cache call ++ log) order' := by
  cases call with
  | bread dev blockno block =>
    rw [LruCache.exec] at hexec
    cases hbread : bread cache dev blockno block with
    | error panic =>
      rw [hbread] at hexec
      cases hexec
    | ok result =>
      rw [hbread] at hexec
      cases hexec
      rcases bread_cases hinv hbread with ⟨-, hafter⟩ | ⟨hmiss, -, hafter⟩
      · rw [hafter]
        exact ⟨order, hinv.hit⟩
      · rw [hafter]
        exact ⟨order, hinv.recycle hmiss⟩
  | brelse b =>
    cases hexec
    exact hinv.brelse hallow
  | bpin b | bunpin b =>
    cases hexec
    exact ⟨order, hinv.setBuf rfl rfl fun _ => hinv.valid b hallow⟩

theorem Reaches.invariant {zero : D} (hreaches : Reaches zero cache log) :
    ∃ order, Invariant cache log order := by
  induction hreaches with
  | binit => exact ⟨_, Invariant.binit zero⟩
  | call _ hallow hexec ih =>
    obtain ⟨order, hinv⟩ := ih
    exact hinv.exec hallow hexec

/-! ## What the callers see -/

theorem exec_keeps (hinv : Invariant cache log order) {call : Call D}
    (hexec : exec cache call = .ok after) {b : Fin NBUF} (hused : (cache.buf b).refcnt ≠ 0) :
    (after.buf b).dev = (cache.buf b).dev ∧ (after.buf b).blockno = (cache.buf b).blockno ∧
      (after.buf b).data = (cache.buf b).data := by
  have hset : ∀ (c : Fin NBUF) (refcnt : BitVec 32),
      ((setBuf cache c { cache.buf c with refcnt := refcnt }).buf b).dev = (cache.buf b).dev ∧
      ((setBuf cache c { cache.buf c with refcnt := refcnt }).buf b).blockno =
        (cache.buf b).blockno ∧
      ((setBuf cache c { cache.buf c with refcnt := refcnt }).buf b).data = (cache.buf b).data := by
    intro c refcnt
    by_cases heq : b = c
    · rw [← heq, setBuf_self]
      exact ⟨rfl, rfl, rfl⟩
    · rw [setBuf_of_ne cache heq]
      exact ⟨rfl, rfl, rfl⟩
  cases call with
  | brelse c =>
    cases hexec
    rw [brelse]
    dsimp only
    split
    next => exact hset c _
    next => exact hset c _
  | bpin c | bunpin c =>
    cases hexec
    exact hset c _
  | bread dev blockno block =>
    rw [exec] at hexec
    cases hbread : bread cache dev blockno block with
    | error panic =>
      rw [hbread] at hexec
      cases hexec
    | ok result =>
      rw [hbread] at hexec
      cases hexec
      obtain ⟨c, found⟩ := result
      rcases bread_cases hinv hbread with ⟨-, hafter⟩ | ⟨-, hvictim, hafter⟩
      · have ho : ∀ d, d ≠ c → found.buf d = cache.buf d := by
          intro d hne
          rw [hafter, fill]
          split
          next => exact setBuf_of_ne cache hne _
          next => rw [setBuf_of_ne _ hne]; exact setBuf_of_ne cache hne _
        by_cases heq : b = c
        · subst heq
          have hval : ((hit cache b).buf b).valid = true := by
            rw [hit, setBuf_self]
            exact hinv.valid b hused
          rw [hafter, fill_valid _ _ hval]
          exact hset b _
        · rw [ho b heq]
          exact ⟨rfl, rfl, rfl⟩
      · have hunused : isUnused cache c = true := List.find?_some hvictim
        have hne : b ≠ c := by
          rintro rfl
          rw [isUnused, beq_iff_eq] at hunused
          exact hused hunused
        have hsame : found.buf b = cache.buf b := by
          rw [hafter, fill]
          split
          next => exact setBuf_of_ne cache hne _
          next => rw [setBuf_of_ne _ hne]; exact setBuf_of_ne cache hne _
        rw [hsame]
        exact ⟨rfl, rfl, rfl⟩

/-- The last unused buffer of the list is the one that was released longest ago. -/
theorem victim_oldest (hinv : Invariant cache log order) {b : Fin NBUF}
    (hvictim : order.reverse.find? (isUnused cache) = some b) {other : Fin NBUF}
    (hne : other ≠ b) (hunused : (cache.buf other).refcnt = 0) :
    b ∉ log ∨ other ∈ log ∧ log.idxOf other < log.idxOf b := by
  obtain ⟨-, front, back, hsplit, hfront⟩ := List.find?_eq_some_iff_append.mp hvictim
  have hmem : other ∈ order.reverse := mem_reverse.mpr (hinv.complete other)
  rw [hsplit] at hmem
  have hback : other ∈ back := by
    rcases mem_append.mp hmem with hbefore | hafter
    · have hnot := hfront other hbefore
      simp [isUnused, hunused] at hnot
    · exact (mem_cons.mp hafter).resolve_left hne
  have hsorted := pairwise_reverse.mpr (hinv.sorted.imp fun hle => hle)
  rw [hsplit] at hsorted
  have hle : log.idxOf other ≤ log.idxOf b :=
    (pairwise_cons.mp (pairwise_append.mp hsorted).2.1).1 other hback
  by_cases hlog : b ∈ log
  · right
    have hlt := idxOf_lt_length_of_mem hlog
    have ho : other ∈ log := idxOf_lt_length_iff.mp (by omega)
    refine ⟨ho, lt_of_le_of_ne hle fun heq => hne ?_⟩
    exact (idxOf_inj ho).mp heq
  · exact Or.inl hlog

/-- The buffer cache is a well-formed LRU cache without duplicates, after every sequence
of calls: the ring in both directions, one buffer for a block, no change to a buffer in
use, and the oldest unused buffer for a miss. -/
theorem cache_wellFormed {zero : D} (hreaches : Reaches zero cache log) :
    ((nextList cache).Nodup ∧ (∀ b, b ∈ nextList cache) ∧
      prevList cache = (nextList cache).reverse) ∧
    Unique cache ∧
    (∀ call after, Allowed cache call → exec cache call = .ok after →
      ∀ b, (cache.buf b).refcnt ≠ 0 → (after.buf b).dev = (cache.buf b).dev ∧
        (after.buf b).blockno = (cache.buf b).blockno ∧
        (after.buf b).data = (cache.buf b).data) ∧
    ∀ dev blockno block b after, (∀ c, isBlock cache dev blockno c = false) →
      bread cache dev blockno block = .ok (b, after) →
      (cache.buf b).refcnt = 0 ∧ ∀ other, other ≠ b → (cache.buf other).refcnt = 0 →
        b ∉ log ∨ other ∈ log ∧ log.idxOf other < log.idxOf b := by
  obtain ⟨order, hinv⟩ := hreaches.invariant
  have hnext : nextList cache = order := hinv.ring.collect_next hinv.length
  have hprev : prevList cache = order.reverse := hinv.ring.collect_prev hinv.length
  rw [hnext, hprev]
  refine ⟨⟨hinv.ring.nodup, hinv.complete, rfl⟩, hinv.unique, ?_, ?_⟩
  · intro call after _ hexec b hused
    exact exec_keeps hinv hexec hused
  · intro dev blockno block b after hmiss hbread
    rcases bread_cases hinv hbread with ⟨hblock, -⟩ | ⟨-, hvictim, -⟩
    · rw [hmiss b] at hblock
      cases hblock
    · have hunused : isUnused cache b = true := List.find?_some hvictim
      rw [isUnused, beq_iff_eq] at hunused
      exact ⟨hunused, fun other hne hother => victim_oldest hinv hvictim hne hother⟩

end

/-- A block is read and released. -/
theorem cache_wellFormed_once : ∃ (cache : Cache ℕ) (log : List (Fin NBUF)),
    Reaches 0 cache log ∧ log = [0] ∧ Unique cache ∧ prevList cache = (nextList cache).reverse := by
  obtain ⟨first, hfirst, hcount⟩ : ∃ first, exec (binit 0) (.bread 1 5 7) = .ok first ∧
      (first.buf 0).refcnt = 1 := by
    have hcheck : (exec (binit 0) (.bread 1 5 7)).map (fun cache =>
        (cache.buf 0).refcnt) = .ok 1 := by decide +kernel
    cases hexec : exec (binit 0) (.bread 1 5 7) with
    | error panic =>
      rw [hexec] at hcheck
      cases hcheck
    | ok first =>
      rw [hexec] at hcheck
      exact ⟨first, rfl, Except.ok.inj hcheck⟩
  have hheld : (first.buf 0).refcnt ≠ 0 := by
    rw [hcount]
    decide
  have hreleased : released first (.brelse 0) = [0] := by
    rw [released, hcount]
    decide
  have hallowed : Allowed (binit 0) (.bread 1 5 7) := trivial
  have hreaches : Reaches 0 (brelse first 0) (released first (.brelse 0) ++ []) :=
    Reaches.call (Reaches.call Reaches.binit hallowed hfirst) hheld rfl
  obtain ⟨⟨-, -, hprev⟩, hunique, -⟩ := cache_wellFormed hreaches
  exact ⟨_, _, hreaches, by rw [hreleased]; rfl, hunique, hprev⟩

end Xv6.LruCache
