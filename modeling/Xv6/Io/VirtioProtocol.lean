import Xv6.Io.VirtioDisk

/-!
# The virtio request protocol

A request is a chain of three descriptors that belongs to one process.  It goes from
the available ring to the device and from there to the used ring; `Ledger` says
which requests are at each of the three places.  Every step of the driver, of the
interrupt handler and of the device keeps the invariant `Good`, from which the
properties of the protocol follow.
-/

namespace Xv6.VirtioProtocol

open Interleaving RingBuffer VirtioDisk Function

variable {idx : List ℕ} {i i0 i1 i2 : ℕ}

/-- How far a call of `virtio_disk_rw` has come. -/
inductive Stage (B : Type) where
  | none
  | needs (b : B)
  | chained (b : B) (idx : List ℕ)
  | ready (b : B) (idx : List ℕ)
  | written (b : B) (idx : List ℕ)
  | waiting (b : B) (idx : List ℕ)

def stageOf {B : Type} : Pos B → Stage B
  | .idle => .none
  | .acquire b _ | .alloc b _ | .allocSleep b _ | .allocAsleep b _ => .needs b
  | .format b _ idx => .chained b idx
  | .ring b idx => .ready b idx
  | .publish b idx => .written b idx
  | .wait b idx | .waitSleep b idx | .waitAsleep b idx | .waitAcquire b idx => .waiting b idx

def Stage.buffer {B : Type} : Stage B → Option B
  | .none => Option.none
  | .needs b | .chained b _ | .ready b _ | .written b _ | .waiting b _ => some b

def Stage.chain {B : Type} : Stage B → Option (List ℕ)
  | .none | .needs _ => Option.none
  | .chained _ idx | .ready _ idx | .written _ idx | .waiting _ idx => some idx

/-- The buffer and the descriptors of a call after the descriptors are formatted. -/
def Stage.formatted {B : Type} : Stage B → Option (B × List ℕ)
  | .none | .needs _ | .chained _ _ => Option.none
  | .ready b idx | .written b idx | .waiting b idx => some (b, idx)

theorem Stage.chain_of_formatted {B : Type} {stage : Stage B} {b : B}
    (hstage : stage.formatted = some (b, idx)) : stage.chain = some idx := by
  cases stage with
  | none | needs | chained => cases hstage
  | ready | written | waiting =>
    cases hstage
    rfl

/-- A request that was made available. -/
structure Entry (P B : Type) where
  p : P
  b : B
  idx : List ℕ

def Entry.head {P B : Type} (e : Entry P B) : ℕ := e.idx.headD 0

def Entry.request {P B : Type} (e : Entry P B) : Request B := ⟨e.head, .data e.b, .status e.head⟩

section
variable {P B : Type}

def Owners (stage : P → Stage B) (d : Disk P B) : Prop :=
  ∀ p b, (stage p).buffer = some b → d.owner b = some p

/-- The descriptors of the calls. -/
structure Chains (stage : P → Stage B) (d : Disk P B) : Prop where
  three : ∀ p idx, (stage p).chain = some idx → idx.length = 3 ∧ idx.Nodup
  taken : ∀ p idx i, (stage p).chain = some idx → i ∈ idx → i < NUM ∧ d.free i = false
  disjoint : ∀ p q idx other i, (stage p).chain = some idx →
    (stage q).chain = some other → i ∈ idx → i ∈ other → p = q
  free : ∀ i < NUM, d.free i = false → ∃ p idx, (stage p).chain = some idx ∧ i ∈ idx

/-- The chain of a request for a buffer. -/
structure Formatted (d : Disk P B) (b : B) (i0 i1 i2 : ℕ) : Prop where
  next0 : (d.desc i0).flags &&& VRING_DESC_F_NEXT ≠ 0 ∧ (d.desc i0).next = i1
  next1 : (d.desc i1).flags &&& VRING_DESC_F_NEXT ≠ 0 ∧ (d.desc i1).next = i2
  last : (d.desc i2).flags &&& VRING_DESC_F_NEXT = 0
  data : (d.desc i1).addr = .data b
  status : (d.desc i2).addr = .status i0
  info : d.infoB i0 = some b

def Formats (stage : P → Stage B) (d : Disk P B) : Prop :=
  ∀ p b idx, (stage p).formatted = some (b, idx) →
    ∃ i0 i1 i2, idx = [i0, i1, i2] ∧ Formatted d b i0 i1 i2

/-- The requests on the available ring, in the device and on the used ring. -/
structure Ledger (stage : P → Stage B) (d : Disk P B)
    (queued consumed posted : List (Entry P B)) : Prop where
  placed : ∀ e ∈ queued ++ consumed ++ posted, stage e.p = .waiting e.b e.idx
  nodup : (queued ++ consumed ++ posted).Nodup
  waits : ∀ p b idx, stage p = .waiting b idx →
    (d.bufDisk b = true ↔ ⟨p, b, idx⟩ ∈ queued ++ consumed ++ posted)
  finished : ∀ p b idx, stage p = .waiting b idx → d.bufDisk b = false → d.done b = true
  busy : ∀ p b idx, stage p = .ready b idx ∨ stage p = .written b idx → d.bufDisk b = true
  written : ∀ p b idx, stage p = .written b idx → d.availRing (slot NUM d.availIdx) = idx.headD 0
  avail : Holds NUM d.availRing d.lastAvail (queued.map Entry.head)
  availIdx : d.availIdx = advance d.lastAvail queued.length
  pending : d.pending = consumed.map Entry.request
  used : Holds NUM d.usedRing d.seen (posted.map Entry.head)
  usedIdx : d.usedIdx = advance d.seen posted.length
  history : d.posted = posted.map Entry.request
  completed : ∀ e ∈ posted, d.infoStatus e.head = 0 ∧ d.done e.b = true

structure Good (stage : P → Stage B) (d : Disk P B)
    (queued consumed posted : List (Entry P B)) : Prop where
  owners : Owners stage d
  chains : Chains stage d
  formats : Formats stage d
  ledger : Ledger stage d queued consumed posted

variable {stage after : P → Stage B} {d : Disk P B}
  {queued consumed posted : List (Entry P B)} {p q : P} {b other : B} {idx : List ℕ}

theorem NUM_dvd : NUM ∣ 2 ^ 16 := ⟨2 ^ 13, by norm_num [NUM]⟩

theorem NUM_lt : NUM < 2 ^ 16 := by norm_num [NUM]

/-! ## Consequences -/

theorem Owners.unique (howners : Owners stage d) (hp : (stage p).buffer = some b)
    (hq : (stage q).buffer = some b) : p = q := by
  have heq := (howners p b hp).symm.trans (howners q b hq)
  exact Option.some.inj heq

theorem Owners.buffer_ne (howners : Owners stage d) (hp : (stage p).buffer = some b)
    (hq : (stage q).buffer = some other) (hne : p ≠ q) : b ≠ other := by
  rintro rfl
  exact hne (howners.unique hp hq)

theorem Chains.head_mem (hchains : Chains stage d)
    (hchain : (stage p).chain = some idx) : idx.headD 0 ∈ idx := by
  have hlen := (hchains.three p idx hchain).1
  cases idx with
  | nil => cases hlen
  | cons first rest => exact List.mem_cons_self

theorem Chains.head_ne (hchains : Chains stage d) {others : List ℕ}
    (hp : (stage p).chain = some idx) (hq : (stage q).chain = some others)
    (hne : p ≠ q) (hi : i ∈ others) : idx.headD 0 ≠ i := by
  rintro rfl
  exact hne (hchains.disjoint p q idx others _ hp hq (hchains.head_mem hp) hi)

variable (hgood : Good stage d queued consumed posted)
include hgood

theorem Good.placed {e : Entry P B} (he : e ∈ queued ++ consumed ++ posted) :
    stage e.p = .waiting e.b e.idx :=
  hgood.ledger.placed e he

theorem Good.formatted {e : Entry P B} (he : e ∈ queued ++ consumed ++ posted) :
    ∃ i1 i2, e.idx = [e.head, i1, i2] ∧ Formatted d e.b e.head i1 i2 := by
  obtain ⟨i0, i1, i2, hidx, hfmt⟩ := hgood.formats e.p e.b e.idx (by rw [hgood.placed he]; rfl)
  have hhead : e.head = i0 := by rw [Entry.head, hidx]; rfl
  rw [hhead]
  exact ⟨i1, i2, hidx, hfmt⟩

theorem Good.heads_nodup : ((queued ++ consumed ++ posted).map Entry.head).Nodup := by
  refine List.Nodup.map_on ?_ hgood.ledger.nodup
  intro e he e' he' hhead
  have hstage := hgood.placed he
  have hstage' := hgood.placed he'
  have hchain : (stage e.p).chain = some e.idx := by rw [hstage]; rfl
  have hchain' : (stage e'.p).chain = some e'.idx := by rw [hstage']; rfl
  have hp : e.p = e'.p := by
    by_contra hne
    exact hgood.chains.head_ne hchain hchain' hne (hgood.chains.head_mem hchain') hhead
  rw [hp, hstage'] at hstage
  cases e
  cases e'
  simp only [Stage.waiting.injEq] at hstage hp
  obtain ⟨rfl, rfl⟩ := hstage
  subst hp
  rfl

theorem Good.length_le {extra : List ℕ}
    (hextra : (extra ++ (queued ++ consumed ++ posted).map Entry.head).Nodup)
    (hsmall : ∀ i ∈ extra, i < NUM) :
    extra.length + (queued ++ consumed ++ posted).length ≤ NUM := by
  have hsubset : (extra ++ (queued ++ consumed ++ posted).map Entry.head).toFinset ⊆
      Finset.range NUM := by
    intro i hi
    rw [List.mem_toFinset, List.mem_append, List.mem_map] at hi
    rw [Finset.mem_range]
    rcases hi with hi | ⟨e, he, rfl⟩
    · exact hsmall i hi
    · have hchain : (stage e.p).chain = some e.idx := by rw [hgood.placed he]; rfl
      exact (hgood.chains.taken e.p e.idx _ hchain (hgood.chains.head_mem hchain)).1
  have hcard := Finset.card_le_card hsubset
  rw [List.toFinset_card_of_nodup hextra, Finset.card_range, List.length_append,
    List.length_map] at hcard
  exact hcard

/-- While a process has a request that is not on the rings, there is room for it. -/
theorem Good.room (hchain : (stage p).chain = some idx)
    (hstage : ∀ b idx, stage p ≠ .waiting b idx) : queued.length < NUM := by
  have hnd : ([idx.headD 0] ++ (queued ++ consumed ++ posted).map Entry.head).Nodup := by
    rw [List.singleton_append, List.nodup_cons]
    refine ⟨?_, hgood.heads_nodup⟩
    intro hmem
    obtain ⟨e, he, hhead⟩ := List.mem_map.mp hmem
    have hchain' : (stage e.p).chain = some e.idx := by rw [hgood.placed he]; rfl
    have hne : p ≠ e.p := by
      intro heq
      exact hstage e.b e.idx (by rw [heq, hgood.placed he])
    exact hgood.chains.head_ne hchain hchain' hne (hgood.chains.head_mem hchain') hhead.symm
  have hlen := hgood.length_le hnd (by
    intro i hi
    rw [List.mem_singleton.mp hi]
    exact (hgood.chains.taken p idx _ hchain (hgood.chains.head_mem hchain)).1)
  rw [List.length_singleton, List.length_append, List.length_append] at hlen
  omega

omit hgood

theorem Good.entry_ne (hgood : Good stage d queued consumed posted)
    {e : Entry P B} (he : e ∈ queued ++ consumed ++ posted)
    (hstage : ∀ b idx, stage p ≠ .waiting b idx) : e.p ≠ p := by
  rintro rfl
  exact hstage e.b e.idx (hgood.placed he)

/-! ## Steps that change one stage -/

theorem Owners.congr (howners : Owners stage d)
    (hsame : ∀ q, (after q).buffer = (stage q).buffer) : Owners after d :=
  fun q b hq => howners q b (by rw [← hsame q, hq])

theorem Chains.congr (hchains : Chains stage d)
    (hsame : ∀ q, (after q).chain = (stage q).chain) : Chains after d := by
  constructor
  · intro q idx hq
    exact hchains.three q idx (by rw [← hsame q, hq])
  · intro q idx i hq
    exact hchains.taken q idx i (by rw [← hsame q, hq])
  · intro q r idx others i hq hr
    exact hchains.disjoint q r idx others i (by rw [← hsame q, hq]) (by rw [← hsame r, hr])
  · intro i hi hfree
    obtain ⟨q, idx, hq, hmem⟩ := hchains.free i hi hfree
    exact ⟨q, idx, by rw [hsame q, hq], hmem⟩

theorem Formats.congr (hformats : Formats stage d)
    (hsame : ∀ q, (after q).formatted = (stage q).formatted) : Formats after d :=
  fun q b idx hq => hformats q b idx (by rw [← hsame q, hq])

theorem Ledger.congr (hled : Ledger stage d queued consumed posted)
    (hsame : ∀ q, after q = stage q ∨ ((after q).formatted = none ∧ (stage q).formatted = none)) :
    Ledger after d queued consumed posted := by
  have hback : ∀ q found, (after q).formatted = some found → after q = stage q := by
    intro q found hf
    rcases hsame q with heq | ⟨hnone, -⟩
    · exact heq
    · rw [hnone] at hf
      cases hf
  constructor
  · intro e he
    rcases hsame e.p with heq | ⟨-, hnone⟩
    · rw [heq]
      exact hled.placed e he
    · rw [hled.placed e he] at hnone
      cases hnone
  · exact hled.nodup
  · intro q b idx hq
    exact hled.waits q b idx (by rw [← hback q _ (by rw [hq]; rfl), hq])
  · intro q b idx hq
    exact hled.finished q b idx (by rw [← hback q _ (by rw [hq]; rfl), hq])
  · intro q b idx hq
    refine hled.busy q b idx ?_
    rcases hq with hq | hq
    · exact .inl (by rw [← hback q _ (by rw [hq]; rfl), hq])
    · exact .inr (by rw [← hback q _ (by rw [hq]; rfl), hq])
  · intro q b idx hq
    exact hled.written q b idx (by rw [← hback q _ (by rw [hq]; rfl), hq])
  · exact hled.avail
  · exact hled.availIdx
  · exact hled.pending
  · exact hled.used
  · exact hled.usedIdx
  · exact hled.history
  · exact hled.completed

/-! ## Steps that do not change all of the disk -/

section
variable {changed : Disk P B}

theorem Owners.disk (howners : Owners stage d) (howner : changed.owner = d.owner) :
    Owners stage changed := by
  intro q b hq
  rw [howner]
  exact howners q b hq

theorem Chains.disk (hchains : Chains stage d) (hfree : changed.free = d.free) :
    Chains stage changed := by
  refine ⟨hchains.three, ?_, hchains.disjoint, ?_⟩
  · rw [hfree]
    exact hchains.taken
  · rw [hfree]
    exact hchains.free

theorem Formatted.disk (hfmt : Formatted d b i0 i1 i2)
    (hdesc : ∀ i ∈ [i0, i1, i2], changed.desc i = d.desc i)
    (hinfo : changed.infoB i0 = d.infoB i0) : Formatted changed b i0 i1 i2 := by
  have h0 := hdesc i0 (by simp)
  have h1 := hdesc i1 (by simp)
  have h2 := hdesc i2 (by simp)
  constructor
  · rw [h0]
    exact hfmt.next0
  · rw [h1]
    exact hfmt.next1
  · rw [h2]
    exact hfmt.last
  · rw [h1]
    exact hfmt.data
  · rw [h2]
    exact hfmt.status
  · rw [hinfo]
    exact hfmt.info

theorem Formats.disk (hformats : Formats stage d)
    (hdesc : ∀ q b idx, (stage q).formatted = some (b, idx) →
      (∀ i ∈ idx, changed.desc i = d.desc i) ∧
        changed.infoB (idx.headD 0) = d.infoB (idx.headD 0)) : Formats stage changed := by
  intro q b idx hq
  obtain ⟨i0, i1, i2, rfl, hfmt⟩ := hformats q b idx hq
  obtain ⟨hsame, hinfo⟩ := hdesc q b _ hq
  exact ⟨i0, i1, i2, rfl, hfmt.disk hsame hinfo⟩

/-- The fields that the ledger speaks about are the same. -/
structure SameRings (d changed : Disk P B) : Prop where
  bufDisk : changed.bufDisk = d.bufDisk
  done : changed.done = d.done
  availRing : changed.availRing = d.availRing
  availIdx : changed.availIdx = d.availIdx
  lastAvail : changed.lastAvail = d.lastAvail
  pending : changed.pending = d.pending
  usedRing : changed.usedRing = d.usedRing
  seen : changed.seen = d.seen
  usedIdx : changed.usedIdx = d.usedIdx
  posted : changed.posted = d.posted
  infoStatus : changed.infoStatus = d.infoStatus

theorem Ledger.disk (hled : Ledger stage d queued consumed posted)
    (hsame : SameRings d changed) : Ledger stage changed queued consumed posted := by
  constructor
  · exact hled.placed
  · exact hled.nodup
  · rw [hsame.bufDisk]
    exact hled.waits
  · rw [hsame.bufDisk, hsame.done]
    exact hled.finished
  · rw [hsame.bufDisk]
    exact hled.busy
  · rw [hsame.availRing, hsame.availIdx]
    exact hled.written
  · rw [hsame.availRing, hsame.lastAvail]
    exact hled.avail
  · rw [hsame.availIdx, hsame.lastAvail]
    exact hled.availIdx
  · rw [hsame.pending]
    exact hled.pending
  · rw [hsame.usedRing, hsame.seen]
    exact hled.used
  · rw [hsame.usedIdx, hsame.seen]
    exact hled.usedIdx
  · rw [hsame.posted]
    exact hled.history
  · rw [hsame.infoStatus, hsame.done]
    exact hled.completed

end

/-! ## Allocation -/

/-- What `alloc3_desc` allocates. -/
structure Allocated (d : Disk P B) (idx : List ℕ) : Prop where
  nodup : idx.Nodup
  free : ∀ i ∈ idx, i < NUM ∧ d.free i = true

def takeAll (d : Disk P B) (idx : List ℕ) : Disk P B :=
  { d with free := fun i => d.free i && !decide (i ∈ idx) }

theorem alloc_desc_spec (hidx : Allocated d idx) :
    alloc_desc (takeAll d idx) = none ∨
      ∃ i, alloc_desc (takeAll d idx) = some (i, takeAll d (idx ++ [i])) ∧
        Allocated d (idx ++ [i]) := by
  cases hfind : (List.range NUM).find? (takeAll d idx).free with
  | none =>
    left
    rw [alloc_desc, hfind]
    rfl
  | some i =>
    right
    have hsmall := List.mem_range.mp (List.mem_of_find?_eq_some hfind)
    have hfree : (takeAll d idx).free i = true := List.find?_some hfind
    simp only [takeAll, Bool.and_eq_true, Bool.not_eq_true', decide_eq_false_iff_not] at hfree
    refine ⟨i, ?_, ?_, ?_⟩
    · rw [alloc_desc, hfind, Option.map_some]
      simp only [takeAll, Option.some.injEq, Prod.mk.injEq, true_and]
      congr 1
      funext j
      by_cases hj : j = i
      · subst hj
        simp
      · simp [hj]
    · rw [List.nodup_append]
      refine ⟨hidx.nodup, List.nodup_singleton i, ?_⟩
      rintro j hj _ hmem rfl
      rw [List.mem_singleton] at hmem
      subst hmem
      exact hfree.2 hj
    · intro j hj
      rw [List.mem_append, List.mem_singleton] at hj
      rcases hj with hj | rfl
      · exact hidx.free j hj
      · exact ⟨hsmall, hfree.1⟩

/-- The roll-back of `alloc3_desc` frees what was taken, and clears only free
descriptors. -/
theorem rollback_spec (idx : List ℕ) (desc : ℕ → Desc B) (hidx : Allocated d idx)
    (hdesc : ∀ i, d.free i = false → desc i = d.desc i) :
    ∃ cleared : ℕ → Desc B, idx.foldlM free_desc { takeAll d idx with desc := desc } =
          .ok { d with desc := cleared } ∧
        ∀ i, d.free i = false → cleared i = d.desc i := by
  induction idx generalizing desc with
  | nil =>
    have hnone : takeAll d [] = d := by simp [takeAll]
    refine ⟨desc, ?_, hdesc⟩
    rw [List.foldlM_nil, hnone]
    rfl
  | cons i idx ih =>
    obtain ⟨hsmall, hfree⟩ := hidx.free i List.mem_cons_self
    have hnd := List.nodup_cons.mp hidx.nodup
    have hstep : free_desc { takeAll d (i :: idx) with desc := desc } i =
        .ok { takeAll d idx with desc := update desc i zeroDesc } := by
      rw [free_desc, if_neg (by omega), if_neg (by simp [takeAll])]
      simp only [takeAll, Except.ok.injEq, Disk.mk.injEq, true_and, and_true]
      funext j
      by_cases hj : j = i
      · subst hj
        simp [hfree, hnd.1]
      · simp [hj]
    obtain ⟨cleared, hfold, hcleared⟩ := ih (update desc i zeroDesc)
      ⟨hnd.2, fun j hj => hidx.free j (List.mem_cons_of_mem i hj)⟩ (by
        intro j hj
        have hne : j ≠ i := by
          rintro rfl
          rw [hfree] at hj
          cases hj
        rw [update_of_ne hne, hdesc j hj])
    refine ⟨cleared, ?_, hcleared⟩
    rw [List.foldlM_cons, hstep]
    exact hfold

theorem alloc3Loop_spec (count : ℕ) (idx : List ℕ) (hidx : Allocated d idx) :
    (∃ all, alloc3Loop count idx (takeAll d idx) = .ok (some all, 0, takeAll d all) ∧
      all.length = idx.length + count ∧ Allocated d all) ∨
    ∃ freed cleared, alloc3Loop count idx (takeAll d idx) =
        .ok (none, freed, { d with desc := cleared }) ∧
        ∀ i, d.free i = false → cleared i = d.desc i := by
  induction count generalizing idx with
  | zero => exact .inl ⟨idx, rfl, rfl, hidx⟩
  | succ count ih =>
    rcases alloc_desc_spec hidx with hnone | ⟨i, hsome, hmore⟩
    · right
      obtain ⟨cleared, hfold, hcleared⟩ := rollback_spec idx d.desc hidx fun _ _ => rfl
      refine ⟨idx.length, cleared, ?_, hcleared⟩
      have hfold' : idx.foldlM free_desc (takeAll d idx) = .ok { d with desc := cleared } := hfold
      simp only [alloc3Loop, hnone, hfold']
      rfl
    · rw [alloc3Loop, hsome]
      rcases ih (idx ++ [i]) hmore with ⟨all, hloop, hlen, hall⟩ | hfail
      · refine .inl ⟨all, hloop, ?_, hall⟩
        rw [hlen, List.length_append, List.length_singleton]
        omega
      · exact .inr hfail

theorem alloc3_desc_spec (d : Disk P B) :
    (∃ idx, alloc3_desc d = .ok (some idx, 0, takeAll d idx) ∧ idx.length = 3 ∧ Allocated d idx) ∨
    ∃ freed cleared, alloc3_desc d = .ok (none, freed, { d with desc := cleared }) ∧
        ∀ i, d.free i = false → cleared i = d.desc i := by
  have hnil : takeAll d [] = d := by simp [takeAll]
  have hspec := alloc3Loop_spec 3 [] (⟨List.nodup_nil, by simp⟩ : Allocated d [])
  rw [hnil] at hspec
  exact hspec

theorem good_rollback (hgood : Good stage d queued consumed posted)
    {cleared : ℕ → Desc B} (hcleared : ∀ i, d.free i = false → cleared i = d.desc i) :
    Good stage { d with desc := cleared } queued consumed posted := by
  refine ⟨hgood.owners.disk rfl, hgood.chains.disk rfl, hgood.formats.disk ?_,
    hgood.ledger.disk ⟨rfl, rfl, rfl, rfl, rfl, rfl, rfl, rfl, rfl, rfl, rfl⟩⟩
  intro q b idx hq
  refine ⟨fun i hi => hcleared i ?_, rfl⟩
  exact (hgood.chains.taken q idx i (Stage.chain_of_formatted hq) hi).2

/-! ## The steps of a process -/

variable [DecidableEq P]

theorem update_chain (stage : P → Stage B) (p : P) (new : Stage B)
    (hsame : new.chain = (stage p).chain) (q : P) :
    (update stage p new q).chain = (stage q).chain := by
  by_cases hq : q = p
  · subst hq
    rw [update_self, hsame]
  · rw [update_of_ne hq]

theorem update_buffer (stage : P → Stage B) (p : P) (new : Stage B)
    (hsame : new.buffer = (stage p).buffer) (q : P) :
    (update stage p new q).buffer = (stage q).buffer := by
  by_cases hq : q = p
  · subst hq
    rw [update_self, hsame]
  · rw [update_of_ne hq]

theorem update_formatted (stage : P → Stage B) (p : P) (new : Stage B)
    (hsame : new.formatted = (stage p).formatted) (q : P) :
    (update stage p new q).formatted = (stage q).formatted := by
  by_cases hq : q = p
  · subst hq
    rw [update_self, hsame]
  · rw [update_of_ne hq]

theorem update_early (stage : P → Stage B) (p : P) (new : Stage B)
    (hnew : new.formatted = none) (hold : (stage p).formatted = none) (q : P) :
    update stage p new q = stage q ∨ ((update stage p new q).formatted = none ∧
        (stage q).formatted = none) := by
  by_cases hq : q = p
  · subst hq
    rw [update_self]
    exact .inr ⟨hnew, hold⟩
  · exact .inl (update_of_ne hq _ _)

theorem update_other {new : Stage B} {found : Stage B}
    (hf : update stage p new q = found) (hne : new ≠ found) : q ≠ p ∧ stage q = found := by
  have hq : q ≠ p := by
    rintro rfl
    rw [update_self] at hf
    exact hne hf
  rw [update_of_ne hq] at hf
  exact ⟨hq, hf⟩

theorem good_alloc (hgood : Good stage d queued consumed posted)
    (hp : stage p = .needs b) (hlen : idx.length = 3) (hidx : Allocated d idx) :
    Good (update stage p (.chained b idx)) (takeAll d idx) queued consumed posted := by
  refine ⟨?_, ?_, ?_, ?_⟩
  · exact (hgood.owners.congr (update_buffer stage p _ (by rw [hp]; rfl))).disk rfl
  · -- the new descriptors were free, so they are in no other chain
    have hnew : ∀ q others i, (stage q).chain = some others → i ∈ others → i ∉ idx := by
      intro q others i hq hi hmem
      have htaken := (hgood.chains.taken q others i hq hi).2
      rw [(hidx.free i hmem).2] at htaken
      cases htaken
    have hcases : ∀ q others, (update stage p (.chained b idx) q).chain = some others →
        (q = p ∧ others = idx) ∨ (q ≠ p ∧ (stage q).chain = some others) := by
      intro q others hq
      by_cases hqp : q = p
      · subst hqp
        rw [update_self] at hq
        cases hq
        exact .inl ⟨rfl, rfl⟩
      · rw [update_of_ne hqp] at hq
        exact .inr ⟨hqp, hq⟩
    constructor
    · intro q others hq
      rcases hcases q others hq with ⟨-, rfl⟩ | ⟨-, hold⟩
      · exact ⟨hlen, hidx.nodup⟩
      · exact hgood.chains.three q others hold
    · intro q others i hq hi
      rcases hcases q others hq with ⟨-, rfl⟩ | ⟨-, hold⟩
      · exact ⟨(hidx.free i hi).1, by simp [takeAll, hi]⟩
      · obtain ⟨hsmall, hfree⟩ := hgood.chains.taken q others i hold hi
        exact ⟨hsmall, by simp [takeAll, hfree]⟩
    · intro q r others rest i hq hr hi hi'
      rcases hcases q others hq with ⟨rfl, rfl⟩ | ⟨-, hold⟩
      · rcases hcases r rest hr with ⟨rfl, -⟩ | ⟨-, hold'⟩
        · rfl
        · exact absurd hi (hnew r rest i hold' hi')
      · rcases hcases r rest hr with ⟨rfl, rfl⟩ | ⟨-, hold'⟩
        · exact absurd hi' (hnew q others i hold hi)
        · exact hgood.chains.disjoint q r others rest i hold hold' hi hi'
    · intro i hsmall hfree
      by_cases hi : i ∈ idx
      · exact ⟨p, idx, by rw [update_self]; rfl, hi⟩
      · simp only [takeAll, hi, decide_false, Bool.not_false, Bool.and_true] at hfree
        obtain ⟨q, others, hq, hmem⟩ := hgood.chains.free i hsmall hfree
        have hqp : q ≠ p := by
          rintro rfl
          rw [hp] at hq
          cases hq
        exact ⟨q, others, by rw [update_of_ne hqp]; exact hq, hmem⟩
  · exact (hgood.formats.congr (update_formatted stage p _ (by rw [hp]; rfl))).disk
      fun _ _ _ _ => ⟨fun _ _ => rfl, rfl⟩
  · exact (hgood.ledger.congr (update_early stage p _ rfl (by rw [hp]; rfl))).disk
      ⟨rfl, rfl, rfl, rfl, rfl, rfl, rfl, rfl, rfl, rfl, rfl⟩

variable [DecidableEq B]

theorem good_call (hgood : Good stage d queued consumed posted)
    (hp : stage p = .none) (hfree : d.owner b = none) : Good (update stage p (.needs b))
      { d with owner := update d.owner b (some p) } queued consumed posted := by
  refine ⟨?_, ?_, ?_, ?_⟩
  · intro q found hq
    change update d.owner b (some p) found = some q
    by_cases hqp : q = p
    · subst hqp
      rw [update_self] at hq
      cases hq
      rw [update_self]
    · rw [update_of_ne hqp] at hq
      have howner := hgood.owners q found hq
      have hne : found ≠ b := by
        rintro rfl
        rw [hfree] at howner
        cases howner
      rw [update_of_ne hne, howner]
  · exact (hgood.chains.congr (update_chain stage p _ (by rw [hp]; rfl))).disk rfl
  · exact (hgood.formats.congr (update_formatted stage p _ (by rw [hp]; rfl))).disk
      fun _ _ _ _ => ⟨fun _ _ => rfl, rfl⟩
  · exact (hgood.ledger.congr (update_early stage p _ rfl (by rw [hp]; rfl))).disk
      ⟨rfl, rfl, rfl, rfl, rfl, rfl, rfl, rfl, rfl, rfl, rfl⟩

omit [DecidableEq P] in
theorem formatted_format (d : Disk P B) (blockno : B → ℕ) (b : B) (write : Bool)
    (hnd : [i0, i1, i2].Nodup) :
    Formatted (format d blockno b write i0 i1 i2) b i0 i1 i2 := by
  simp only [List.nodup_cons, List.mem_cons, List.not_mem_nil, or_false, not_or] at hnd
  obtain ⟨⟨h01, h02⟩, h12, -⟩ := hnd
  constructor
  · simp [format, update_of_ne h02, update_of_ne h01, VRING_DESC_F_NEXT]
  · cases write <;> simp [format, update_of_ne h12, VRING_DESC_F_NEXT, VRING_DESC_F_WRITE]
  · simp [format, VRING_DESC_F_NEXT, VRING_DESC_F_WRITE]
  · simp [format, update_of_ne h12]
  · simp [format]
  · simp [format]

omit [DecidableEq P] in
theorem format_desc (d : Disk P B) (blockno : B → ℕ) (b : B) (write : Bool)
    (hi : i ∉ [i0, i1, i2]) :
    (format d blockno b write i0 i1 i2).desc i = d.desc i := by
  simp only [List.mem_cons, List.not_mem_nil, or_false, not_or] at hi
  simp [format, update_of_ne hi.1, update_of_ne hi.2.1, update_of_ne hi.2.2]

theorem good_format (hgood : Good stage d queued consumed posted)
    (hp : stage p = .chained b idx) (blockno : B → ℕ) (write : Bool) :
    Good (update stage p (.ready b idx))
      (format d blockno b write (idx.getD 0 0) (idx.getD 1 0) (idx.getD 2 0))
      queued consumed posted := by
  have hchain : (stage p).chain = some idx := by rw [hp]; rfl
  have hbuffer : (stage p).buffer = some b := by rw [hp]; rfl
  have hnotWaiting : ∀ b idx, stage p ≠ .waiting b idx := by
    intro b idx h
    rw [hp] at h
    cases h
  obtain ⟨hlen, hnd⟩ := hgood.chains.three p idx hchain
  obtain ⟨i0, i1, i2, rfl⟩ := List.length_eq_three.mp hlen
  refine ⟨?_, ?_, ?_, ?_⟩
  · exact (hgood.owners.congr (update_buffer stage p _ (by rw [hp]; rfl))).disk rfl
  · exact (hgood.chains.congr (update_chain stage p _ (by rw [hp]; rfl))).disk rfl
  · intro q found others hq
    by_cases hqp : q = p
    · subst hqp
      rw [update_self] at hq
      cases hq
      exact ⟨i0, i1, i2, rfl, formatted_format d blockno b write hnd⟩
    · rw [update_of_ne hqp] at hq
      obtain ⟨j0, j1, j2, rfl, hfmt⟩ := hgood.formats q found others hq
      have hchain' := Stage.chain_of_formatted hq
      have hapart : ∀ i ∈ [j0, j1, j2], i ∉ [i0, i1, i2] := fun i hi hmem =>
        hqp (hgood.chains.disjoint q p _ _ i hchain' hchain hi hmem)
      refine ⟨j0, j1, j2, rfl, hfmt.disk
        (fun i hi => format_desc d blockno b write (hapart i hi)) ?_⟩
      have hne : j0 ≠ i0 := by
        rintro rfl
        exact hapart j0 (by simp) (by simp)
      exact update_of_ne hne _ _
  · have hled := hgood.ledger
    have hne : ∀ q found others, update stage p (.ready b [i0, i1, i2]) q =
        .waiting found others → found ≠ b ∧ stage q = .waiting found others := by
      intro q found others hq
      obtain ⟨hqp, hstage⟩ := update_other hq (by simp)
      refine ⟨?_, hstage⟩
      exact hgood.owners.buffer_ne (by rw [hstage]; rfl) hbuffer hqp
    constructor
    · intro e he
      rw [update_of_ne (hgood.entry_ne he hnotWaiting)]
      exact hled.placed e he
    · exact hled.nodup
    · intro q found others hq
      obtain ⟨hf, hstage⟩ := hne q found others hq
      change update d.bufDisk b true found = true ↔ _
      rw [update_of_ne hf]
      exact hled.waits q found others hstage
    · intro q found others hq hdisk
      obtain ⟨hf, hstage⟩ := hne q found others hq
      change update d.bufDisk b true found = false at hdisk
      rw [update_of_ne hf] at hdisk
      change update d.done b false found = true
      rw [update_of_ne hf]
      exact hled.finished q found others hstage hdisk
    · intro q found others hq
      change update d.bufDisk b true found = true
      by_cases hf : found = b
      · rw [hf, update_self]
      · rw [update_of_ne hf]
        refine hled.busy q found others ?_
        rcases hq with hq | hq
        · refine .inl (update_other hq ?_).2
          intro heq
          cases heq
          exact hf rfl
        · exact .inr (update_other hq (by simp)).2
    · intro q found others hq
      exact hled.written q found others (update_other hq (by simp)).2
    · exact hled.avail
    · exact hled.availIdx
    · exact hled.pending
    · exact hled.used
    · exact hled.usedIdx
    · exact hled.history
    · intro e he
      have hmem : e ∈ queued ++ consumed ++ posted := List.mem_append_right _ he
      have hep := hgood.entry_ne hmem hnotWaiting
      have hchain' : (stage e.p).chain = some e.idx := by rw [hgood.placed hmem]; rfl
      have hhead : e.head ≠ i0 := hgood.chains.head_ne hchain' hchain hep (by simp)
      have hbuf : e.b ≠ b := hgood.owners.buffer_ne (by rw [hgood.placed hmem]; rfl) hbuffer hep
      obtain ⟨hstatus, hdone⟩ := hled.completed e he
      constructor
      · change update d.infoStatus i0 0xff e.head = 0
        rw [update_of_ne hhead, hstatus]
      · change update d.done b false e.b = true
        rw [update_of_ne hbuf, hdone]

omit [DecidableEq B] in
theorem good_ring (hgood : Good stage d queued consumed posted) (hp : stage p = .ready b idx)
    (halone : ∀ q found others, stage q ≠ .written found others) :
    Good (update stage p (.written b idx)) (storeAvail d (idx.headD 0)) queued consumed posted := by
  have hnotWaiting : ∀ b idx, stage p ≠ .waiting b idx := by
    intro b idx h
    rw [hp] at h
    cases h
  have hled := hgood.ledger
  refine ⟨?_, ?_, ?_, ?_⟩
  · exact (hgood.owners.congr (update_buffer stage p _ (by rw [hp]; rfl))).disk rfl
  · exact (hgood.chains.congr (update_chain stage p _ (by rw [hp]; rfl))).disk rfl
  · exact (hgood.formats.congr (update_formatted stage p _ (by rw [hp]; rfl))).disk
      fun _ _ _ _ => ⟨fun _ _ => rfl, rfl⟩
  · constructor
    · intro e he
      rw [update_of_ne (hgood.entry_ne he hnotWaiting)]
      exact hled.placed e he
    · exact hled.nodup
    · intro q found others hq
      exact hled.waits q found others (update_other hq (by simp)).2
    · intro q found others hq
      exact hled.finished q found others (update_other hq (by simp)).2
    · intro q found others hq
      by_cases hqp : q = p
      · subst hqp
        rw [update_self] at hq
        rcases hq with hq | hq
        · cases hq
        · cases hq
          exact hled.busy q b idx (.inl hp)
      · rw [update_of_ne hqp] at hq
        exact hled.busy q found others hq
    · intro q found others hq
      by_cases hqp : q = p
      · subst hqp
        rw [update_self] at hq
        cases hq
        exact update_self _ _ _
      · rw [update_of_ne hqp] at hq
        exact absurd hq (halone q found others)
    · have hlen : (queued.map Entry.head).length < NUM := by
        rw [List.length_map]
        exact hgood.room (by rw [hp]; rfl) hnotWaiting
      have hpush := hled.avail.push NUM_dvd hlen (idx.headD 0)
      rw [List.length_map, ← hled.availIdx] at hpush
      exact hpush.left
    · exact hled.availIdx
    · exact hled.pending
    · exact hled.used
    · exact hled.usedIdx
    · exact hled.history
    · exact hled.completed

omit [DecidableEq B] in
theorem good_publish (hgood : Good stage d queued consumed posted) (hp : stage p = .written b idx)
    (halone : ∀ q found others, stage q = .written found others → q = p) :
    Good (update stage p (.waiting b idx))
      { d with availIdx := d.availIdx + 1 } (queued ++ [⟨p, b, idx⟩]) consumed
        posted := by
  have hnotWaiting : ∀ b idx, stage p ≠ .waiting b idx := by
    intro b idx h
    rw [hp] at h
    cases h
  have hled := hgood.ledger
  have hperm : (queued ++ [(⟨p, b, idx⟩ : Entry P B)] ++ consumed ++ posted).Perm
      ((⟨p, b, idx⟩ : Entry P B) :: (queued ++ consumed ++ posted)) := by
    simp only [List.append_assoc, List.singleton_append]
    exact List.perm_middle
  have hfresh : (⟨p, b, idx⟩ : Entry P B) ∉ queued ++ consumed ++ posted :=
    fun hmem => hgood.entry_ne hmem hnotWaiting rfl
  refine ⟨?_, ?_, ?_, ?_⟩
  · exact (hgood.owners.congr (update_buffer stage p _ (by rw [hp]; rfl))).disk rfl
  · exact (hgood.chains.congr (update_chain stage p _ (by rw [hp]; rfl))).disk rfl
  · exact (hgood.formats.congr (update_formatted stage p _ (by rw [hp]; rfl))).disk
      fun _ _ _ _ => ⟨fun _ _ => rfl, rfl⟩
  · constructor
    · intro e he
      rw [hperm.mem_iff, List.mem_cons] at he
      rcases he with rfl | he
      · exact update_self _ _ _
      · rw [update_of_ne (hgood.entry_ne he hnotWaiting)]
        exact hled.placed e he
    · exact hperm.nodup_iff.mpr (List.nodup_cons.mpr ⟨hfresh, hled.nodup⟩)
    · intro q found others hq
      rw [hperm.mem_iff, List.mem_cons]
      by_cases hqp : q = p
      · subst hqp
        rw [update_self] at hq
        cases hq
        exact iff_of_true (hled.busy q b idx (.inr hp)) (.inl rfl)
      · rw [update_of_ne hqp] at hq
        have hne : (⟨q, found, others⟩ : Entry P B) ≠ ⟨p, b, idx⟩ :=
          fun heq => hqp (congrArg Entry.p heq)
        rw [or_iff_right hne]
        exact hled.waits q found others hq
    · intro q found others hq hdisk
      by_cases hqp : q = p
      · subst hqp
        rw [update_self] at hq
        cases hq
        rw [hled.busy q b idx (.inr hp)] at hdisk
        cases hdisk
      · rw [update_of_ne hqp] at hq
        exact hled.finished q found others hq hdisk
    · intro q found others hq
      refine hled.busy q found others ?_
      rcases hq with hq | hq
      · exact .inl (update_other hq (by simp)).2
      · exact .inr (update_other hq (by simp)).2
    · intro q found others hq
      obtain ⟨hqp, hstage⟩ := update_other hq (by simp)
      exact absurd (halone q found others hstage) hqp
    · have hlen : (queued.map Entry.head).length < NUM := by
        rw [List.length_map]
        exact hgood.room (by rw [hp]; rfl) hnotWaiting
      rw [List.map_append]
      refine hled.avail.extend hlen ?_
      rw [List.length_map, ← hled.availIdx]
      exact hled.written p b idx hp
    · change d.availIdx + 1 = _
      rw [hled.availIdx, List.length_append, List.length_singleton, ← advance_advance, advance_one]
    · exact hled.pending
    · exact hled.used
    · exact hled.usedIdx
    · exact hled.history
    · exact hled.completed

/-! ## The end of a call -/

def releaseChain (d : Disk P B) (i0 i1 i2 : ℕ) : Disk P B :=
  { d with
    desc := update (update (update d.desc i0 zeroDesc) i1 zeroDesc) i2 zeroDesc
    free := update (update (update d.free i0 true) i1 true) i2 true }

omit [DecidableEq P] [DecidableEq B] in
theorem releaseChain_free (d : Disk P B) (i0 i1 i2 i : ℕ) : (releaseChain d i0 i1 i2).free i =
      if i ∈ [i0, i1, i2] then true else d.free i := by
  simp only [releaseChain, update_apply, List.mem_cons, List.not_mem_nil, or_false]
  by_cases h0 : i = i0 <;> by_cases h1 : i = i1 <;> by_cases h2 : i = i2 <;> simp [h0, h1, h2]

omit [DecidableEq P] [DecidableEq B] in
theorem releaseChain_desc (d : Disk P B) (hi : i ∉ [i0, i1, i2]) :
    (releaseChain d i0 i1 i2).desc i = d.desc i := by
  simp only [List.mem_cons, List.not_mem_nil, or_false, not_or] at hi
  simp [releaseChain, hi.1, hi.2.1, hi.2.2]

omit [DecidableEq P] [DecidableEq B] in
theorem free_desc_ok (hsmall : i < NUM) (hfree : d.free i = false) :
    free_desc d i = .ok { d with
      desc := update d.desc i zeroDesc
      free := update d.free i true } := by
  rw [free_desc, if_neg (by omega), if_neg (by rw [hfree]; exact Bool.false_ne_true)]

omit [DecidableEq P] [DecidableEq B] in
theorem free_chain_spec {i0 i1 i2 : ℕ} (hnd : [i0, i1, i2].Nodup)
    (htaken : ∀ i ∈ [i0, i1, i2], i < NUM ∧ d.free i = false)
    (h0 : (d.desc i0).flags &&& VRING_DESC_F_NEXT ≠ 0 ∧ (d.desc i0).next = i1)
    (h1 : (d.desc i1).flags &&& VRING_DESC_F_NEXT ≠ 0 ∧ (d.desc i1).next = i2)
    (h2 : (d.desc i2).flags &&& VRING_DESC_F_NEXT = 0) :
    free_chain d i0 = .ok (releaseChain d i0 i1 i2) := by
  obtain ⟨hs0, hf0⟩ := htaken i0 (by simp)
  obtain ⟨hs1, hf1⟩ := htaken i1 (by simp)
  obtain ⟨hs2, hf2⟩ := htaken i2 (by simp)
  simp only [List.nodup_cons, List.mem_cons, List.not_mem_nil, or_false, not_or] at hnd
  obtain ⟨⟨h01, h02⟩, h12, -⟩ := hnd
  rw [free_chain, show NUM + 1 = 6 + 1 + 1 + 1 from rfl, freeChainLoop, free_desc_ok hs0 hf0]
  simp only
  rw [if_pos h0.1, h0.2, freeChainLoop, free_desc_ok hs1
    ((update_of_ne (Ne.symm h01) _ _).trans hf1)]
  simp only [update_of_ne (Ne.symm h01)]
  rw [if_pos h1.1, h1.2, freeChainLoop, free_desc_ok hs2 ((update_of_ne (Ne.symm h12) _ _).trans
      ((update_of_ne (Ne.symm h02) _ _).trans hf2))]
  simp only [update_of_ne (Ne.symm h12), update_of_ne (Ne.symm h02),
    h2, ne_eq, not_true_eq_false, if_false]
  rfl

theorem good_finish (hgood : Good stage d queued consumed posted)
    (hp : stage p = .waiting b [i0, i1, i2]) (hdisk : d.bufDisk b = false) :
    Good (update stage p .none)
      { releaseChain { d with infoB := update d.infoB i0 none } i0 i1 i2 with
        owner := update d.owner b none } queued consumed posted := by
  have hbuffer : (stage p).buffer = some b := by rw [hp]; rfl
  have hchain : (stage p).chain = some [i0, i1, i2] := by rw [hp]; rfl
  have hled := hgood.ledger
  -- the request of the process is on no ring any more
  have hentry : ∀ e ∈ queued ++ consumed ++ posted, e.p ≠ p := by
    intro e he heq
    have hplace := hled.placed e he
    rw [heq, hp] at hplace
    cases e
    simp only [Stage.waiting.injEq] at hplace heq
    obtain ⟨rfl, rfl⟩ := hplace
    subst heq
    rw [(hled.waits _ _ _ hp).mpr he] at hdisk
    cases hdisk
  have hold : ∀ q found, update stage p .none q = found → found ≠ .none →
      q ≠ p ∧ stage q = found := fun q found hq hne => update_other hq (Ne.symm hne)
  have hcases : ∀ q others, (update stage p Stage.none q).chain = some others →
      q ≠ p ∧ (stage q).chain = some others := by
    intro q others hq
    by_cases hqp : q = p
    · subst hqp
      rw [update_self] at hq
      cases hq
    · rw [update_of_ne hqp] at hq
      exact ⟨hqp, hq⟩
  have hapart : ∀ q others i, q ≠ p → (stage q).chain = some others → i ∈ others →
      i ∉ [i0, i1, i2] := fun q others i hqp hq hi hmem =>
    hqp (hgood.chains.disjoint q p others _ i hq hchain hi hmem)
  refine ⟨?_, ?_, ?_, ?_⟩
  · intro q found hq
    by_cases hqp : q = p
    · subst hqp
      rw [update_self] at hq
      cases hq
    · rw [update_of_ne hqp] at hq
      change update d.owner b none found = some q
      rw [update_of_ne (hgood.owners.buffer_ne hq hbuffer hqp)]
      exact hgood.owners q found hq
  · constructor
    · intro q others hq
      exact hgood.chains.three q others (hcases q others hq).2
    · intro q others i hq hi
      obtain ⟨hqp, hq⟩ := hcases q others hq
      obtain ⟨hsmall, hfree⟩ := hgood.chains.taken q others i hq hi
      refine ⟨hsmall, ?_⟩
      change (releaseChain _ i0 i1 i2).free i = false
      rw [releaseChain_free, if_neg (hapart q others i hqp hq hi)]
      exact hfree
    · intro q r others rest i hq hr
      exact hgood.chains.disjoint q r others rest i (hcases q others hq).2 (hcases r rest hr).2
    · intro i hsmall hfree
      change (releaseChain _ i0 i1 i2).free i = false at hfree
      rw [releaseChain_free] at hfree
      split at hfree
      case isTrue => cases hfree
      case isFalse hi =>
        obtain ⟨q, others, hq, hmem⟩ := hgood.chains.free i hsmall hfree
        have hqp : q ≠ p := by
          rintro rfl
          rw [hchain] at hq
          cases hq
          exact hi hmem
        exact ⟨q, others, by rw [update_of_ne hqp]; exact hq, hmem⟩
  · intro q found others hq
    by_cases hqp : q = p
    · subst hqp
      rw [update_self] at hq
      cases hq
    · rw [update_of_ne hqp] at hq
      obtain ⟨j0, j1, j2, rfl, hfmt⟩ := hgood.formats q found others hq
      have hchain' := Stage.chain_of_formatted hq
      refine ⟨j0, j1, j2, rfl, hfmt.disk (fun i hi => ?_) ?_⟩
      · exact releaseChain_desc _ (hapart q _ i hqp hchain' hi)
      · have hne : j0 ≠ i0 := by
          rintro rfl
          exact hapart q _ j0 hqp hchain' (by simp) (by simp)
        exact update_of_ne hne _ _
  · constructor
    · intro e he
      rw [update_of_ne (hentry e he)]
      exact hled.placed e he
    · exact hled.nodup
    · intro q found others hq
      exact hled.waits q found others (hold q _ hq (by simp)).2
    · intro q found others hq
      exact hled.finished q found others (hold q _ hq (by simp)).2
    · intro q found others hq
      refine hled.busy q found others ?_
      rcases hq with hq | hq
      · exact .inl (hold q _ hq (by simp)).2
      · exact .inr (hold q _ hq (by simp)).2
    · intro q found others hq
      exact hled.written q found others (hold q _ hq (by simp)).2
    · exact hled.avail
    · exact hled.availIdx
    · exact hled.pending
    · exact hled.used
    · exact hled.usedIdx
    · exact hled.history
    · exact hled.completed

/-! ## The handler and the device -/

omit [DecidableEq P] [DecidableEq B] in
theorem Ledger.used_empty (hled : Ledger stage d queued consumed posted) :
    d.seen = d.usedIdx ↔ posted = [] := by
  have hlen : posted.length < 2 ^ 16 := by
    have hle := hled.used.length_le
    rw [List.length_map] at hle
    exact lt_of_le_of_lt hle NUM_lt
  have hinj := @advance_inj _ d.seen 0 posted.length (by norm_num) hlen
  rw [hled.usedIdx, ← List.length_eq_zero_iff, @eq_comm _ posted.length, ← hinj, advance_zero]

omit [DecidableEq P] [DecidableEq B] in
theorem Ledger.avail_empty (hled : Ledger stage d queued consumed posted) :
    d.lastAvail = d.availIdx ↔ queued = [] := by
  have hlen : queued.length < 2 ^ 16 := by
    have hle := hled.avail.length_le
    rw [List.length_map] at hle
    exact lt_of_le_of_lt hle NUM_lt
  have hinj := @advance_inj _ d.lastAvail 0 queued.length (by norm_num) hlen
  rw [hled.availIdx, ← List.length_eq_zero_iff, @eq_comm _ queued.length, ← hinj, advance_zero]

omit [DecidableEq P] [DecidableEq B] in
theorem Good.completion {e : Entry P B} (hgood : Good stage d queued consumed (e :: posted)) :
    d.usedRing (slot NUM d.seen) = e.head ∧ d.infoStatus e.head = 0 ∧
      d.infoB e.head = some e.b := by
  have hmem : e ∈ queued ++ consumed ++ (e :: posted) := List.mem_append_right _ List.mem_cons_self
  obtain ⟨i1, i2, -, hfmt⟩ := hgood.formatted hmem
  have hused := hgood.ledger.used
  rw [List.map_cons] at hused
  exact ⟨hused.pop.1, (hgood.ledger.completed e List.mem_cons_self).1, hfmt.info⟩

omit [DecidableEq P] in
theorem good_intr {e : Entry P B} (hgood : Good stage d queued consumed (e :: posted)) :
    Good stage { d with
      bufDisk := update d.bufDisk e.b false
      seen := d.seen + 1
      posted := d.posted.tail } queued consumed posted := by
  have hled := hgood.ledger
  have hmem : e ∈ queued ++ consumed ++ (e :: posted) := List.mem_append_right _ List.mem_cons_self
  have hplace := hgood.placed hmem
  have hperm : (queued ++ consumed ++ (e :: posted)).Perm
      (e :: (queued ++ consumed ++ posted)) := List.perm_middle
  have hfresh := List.nodup_cons.mp (hperm.nodup_iff.mp hled.nodup)
  have hne : ∀ q found, (stage q).buffer = some found → q ≠ e.p → found ≠ e.b := by
    intro q found hq hqe
    exact hgood.owners.buffer_ne hq (by rw [hplace]; rfl) hqe
  refine ⟨hgood.owners.disk rfl, hgood.chains.disk rfl, hgood.formats.disk
    (fun _ _ _ _ => ⟨fun _ _ => rfl, rfl⟩), ?_⟩
  constructor
  · intro other ho
    exact hled.placed other (hperm.mem_iff.mpr (List.mem_cons_of_mem e ho))
  · exact hfresh.2
  · intro q found others hq
    change update d.bufDisk e.b false found = true ↔ _
    by_cases hqe : q = e.p
    · subst hqe
      rw [hplace] at hq
      cases hq
      rw [update_self]
      exact iff_of_false Bool.false_ne_true hfresh.1
    · have ho : (⟨q, found, others⟩ : Entry P B) ≠ e := fun heq => hqe (congrArg Entry.p heq)
      rw [update_of_ne (hne q found (by rw [hq]; rfl) hqe),
        hled.waits q found others hq, hperm.mem_iff, List.mem_cons,
        or_iff_right ho]
  · intro q found others hq hdisk
    change update d.bufDisk e.b false found = false at hdisk
    by_cases hqe : q = e.p
    · subst hqe
      rw [hplace] at hq
      cases hq
      exact (hled.completed e List.mem_cons_self).2
    · rw [update_of_ne (hne q found (by rw [hq]; rfl) hqe)] at hdisk
      exact hled.finished q found others hq hdisk
  · intro q found others hq
    have hqe : q ≠ e.p := by
      rintro rfl
      rw [hplace] at hq
      rcases hq with hq | hq <;> cases hq
    have hbuffer : (stage q).buffer = some found := by rcases hq with hq | hq <;> rw [hq] <;> rfl
    change update d.bufDisk e.b false found = true
    rw [update_of_ne (hne q found hbuffer hqe)]
    exact hled.busy q found others hq
  · exact hled.written
  · exact hled.avail
  · exact hled.availIdx
  · exact hled.pending
  · have hused := hled.used
    rw [List.map_cons] at hused
    exact hused.pop.2
  · change d.usedIdx = advance (d.seen + 1) posted.length
    rw [hled.usedIdx, List.length_cons, Nat.add_comm, ← advance_advance, advance_one]
  · change d.posted.tail = _
    rw [hled.history]
    rfl
  · intro other ho
    exact hled.completed other (List.mem_cons_of_mem e ho)

omit [DecidableEq P] [DecidableEq B] in
theorem Ledger.moved {changed : Disk P B} {queued' consumed' posted' : List (Entry P B)}
    (hled : Ledger stage d queued consumed posted)
    (hperm : (queued' ++ consumed' ++ posted').Perm (queued ++ consumed ++ posted))
    (hbufDisk : changed.bufDisk = d.bufDisk) :
    (∀ e ∈ queued' ++ consumed' ++ posted', stage e.p = .waiting e.b e.idx) ∧
      (queued' ++ consumed' ++ posted').Nodup ∧ ∀ p b idx, stage p = .waiting b idx →
        (changed.bufDisk b = true ↔ ⟨p, b, idx⟩ ∈ queued' ++ consumed' ++ posted') := by
  refine ⟨fun e he => hled.placed e (hperm.mem_iff.mp he),
    hperm.nodup_iff.mpr hled.nodup, fun p b idx hp => ?_⟩
  rw [hbufDisk, hperm.mem_iff]
  exact hled.waits p b idx hp

omit [DecidableEq P] [DecidableEq B] in
theorem good_consume {e : Entry P B} (hgood : Good stage d (e :: queued) consumed posted) :
    Good stage (consume d) queued (consumed ++ [e]) posted := by
  have hled := hgood.ledger
  have hmem : e ∈ e :: queued ++ consumed ++ posted := by simp
  obtain ⟨i1, i2, -, hfmt⟩ := hgood.formatted hmem
  have havail := hled.avail
  rw [List.map_cons] at havail
  obtain ⟨hhead, hrest⟩ := havail.pop
  have hperm : (queued ++ (consumed ++ [e]) ++ posted).Perm
      (e :: queued ++ consumed ++ posted) := by
    have hmiddle := @List.perm_middle _ e (queued ++ consumed) posted
    simpa only [List.append_assoc, List.cons_append, List.nil_append] using hmiddle
  have hread : readChain d e.head = e.request := by
    simp only [readChain, hfmt.next0.2, hfmt.next1.2, hfmt.data, hfmt.status]
    rfl
  obtain ⟨hplace, hnd, hwaits⟩ := @Ledger.moved P B stage d _ _ _ (consume d) _ _ _ hled hperm rfl
  refine ⟨hgood.owners.disk rfl, hgood.chains.disk rfl, hgood.formats.disk
    (fun _ _ _ _ => ⟨fun _ _ => rfl, rfl⟩), ?_⟩
  constructor
  · exact hplace
  · exact hnd
  · exact hwaits
  · exact hled.finished
  · exact hled.busy
  · exact hled.written
  · exact hrest
  · change d.availIdx = advance (d.lastAvail + 1) queued.length
    rw [hled.availIdx, List.length_cons, Nat.add_comm, ← advance_advance, advance_one]
  · change d.pending ++ [readChain d (d.availRing (slot NUM d.lastAvail))] = _
    rw [hhead, hread, hled.pending, List.map_append]
    rfl
  · exact hled.used
  · exact hled.usedIdx
  · exact hled.history
  · exact hled.completed

omit [DecidableEq P] in
theorem good_complete {k : ℕ} {request : Request B} (hgood : Good stage d queued consumed posted)
    (hrequest : d.pending[k]? = some request) :
    ∃ e rest, Good stage (complete d k request) queued rest (posted ++ [e]) := by
  have hled := hgood.ledger
  rw [hled.pending, List.getElem?_map, Option.map_eq_some_iff] at hrequest
  obtain ⟨e, hk, rfl⟩ := hrequest
  obtain ⟨hlt, hget⟩ := List.getElem?_eq_some_iff.mp hk
  have hsplit : consumed = consumed.take k ++ e :: consumed.drop (k + 1) := by
    rw [← hget, List.getElem_cons_drop, List.take_append_drop]
  have hperm : (queued ++ consumed.eraseIdx k ++ (posted ++ [e])).Perm
      (queued ++ consumed ++ posted) := by
    rw [List.eraseIdx_eq_take_drop_succ]
    have hnew := @List.perm_middle _ e
      (queued ++ (consumed.take k ++ consumed.drop (k + 1)) ++ posted) []
    have hold := @List.perm_middle _ e (queued ++ consumed.take k) (consumed.drop (k + 1) ++ posted)
    rw [List.append_nil] at hnew
    have hbefore : queued ++ consumed ++ posted =
        queued ++ consumed.take k ++ e :: (consumed.drop (k + 1) ++ posted) := by
      conv_lhs => rw [hsplit]
      simp only [List.append_assoc, List.cons_append]
    rw [hbefore]
    simp only [List.append_assoc] at hnew hold ⊢
    exact hnew.trans hold.symm
  have hmem : e ∈ queued ++ consumed ++ posted :=
    List.mem_append_left _ (List.mem_append_right _ (List.mem_of_getElem? hk))
  have hroom : (posted.map Entry.head).length < NUM := by
    have hlen := @Good.length_le P B stage d queued consumed posted hgood [] (by
      rw [List.nil_append]
      exact hgood.heads_nodup) (by simp)
    rw [List.length_nil, List.length_append, List.length_append] at hlen
    rw [List.length_map]
    omega
  obtain ⟨hplace, hnd, hwaits⟩ :=
    @Ledger.moved P B stage d _ _ _ (complete d k e.request) _ _ _ hled hperm rfl
  refine ⟨e, consumed.eraseIdx k, hgood.owners.disk rfl, hgood.chains.disk rfl,
    hgood.formats.disk (fun _ _ _ _ => ⟨fun _ _ => rfl, rfl⟩), ?_⟩
  have hdone : ∀ found, d.done found = true → (complete d k e.request).done found = true := by
    intro found hf
    change update d.done e.b true found = true
    by_cases heq : found = e.b
    · rw [heq, update_self]
    · rw [update_of_ne heq, hf]
  constructor
  · exact hplace
  · exact hnd
  · exact hwaits
  · intro q found others hq hdisk
    exact hdone found (hled.finished q found others hq hdisk)
  · exact hled.busy
  · exact hled.written
  · exact hled.avail
  · exact hled.availIdx
  · change d.pending.eraseIdx k = _
    rw [hled.pending, List.eraseIdx_map]
  · have hpush := hled.used.push NUM_dvd hroom e.head
    rw [List.length_map, ← hled.usedIdx] at hpush
    rw [List.map_append]
    exact hpush
  · change d.usedIdx + 1 = _
    rw [hled.usedIdx, List.length_append, List.length_singleton, ← advance_advance, advance_one]
    rfl
  · change d.posted ++ [e.request] = _
    rw [hled.history, List.map_append]
    rfl
  · intro other ho
    change update d.infoStatus e.head 0 other.head = 0 ∧ _
    rw [List.mem_append, List.mem_singleton] at ho
    rcases ho with ho | rfl
    · obtain ⟨hstatus, hf⟩ := hled.completed other ho
      refine ⟨?_, hdone other.b hf⟩
      by_cases heq : other.head = e.head
      · rw [heq, update_self]
      · rw [update_of_ne heq, hstatus]
    · exact ⟨update_self _ _ _, update_self _ _ _⟩

end

/-! ## Every run -/

/-- The positions at which a process holds `disk.vdisk_lock`. -/
def holdsLock {B : Type} : Pos B → Bool
  | .alloc _ _ | .allocSleep _ _ | .format _ _ _ | .ring _ _ | .publish _ _
  | .wait _ _ | .waitSleep _ _ => true
  | _ => false

section
variable {P B : Type}

/-- The lock belongs to those who are between `acquire` and `release`. -/
structure Locked (pos : P → Pos B) (lock : Option (Holder P)) (handling : Bool) :
    Prop where
  proc : ∀ p, holdsLock (pos p) = true → lock = some (.proc p)
  handler : handling = true → lock = some .intr

variable {pos : P → Pos B} {lock : Option (Holder P)} {handling : Bool} {p q : P}

theorem Locked.unique (hlock : Locked pos lock handling)
    (hp : holdsLock (pos p) = true) (hq : holdsLock (pos q) = true) : q = p := by
  have heq := (hlock.proc q hq).symm.trans (hlock.proc p hp)
  simpa using heq

theorem Locked.not_handling (hlocked : Locked pos lock handling)
    (hp : holdsLock (pos p) = true) : handling = false := by
  by_contra htrue
  have hlock := hlocked.handler (by simpa using htrue)
  rw [hlocked.proc p hp] at hlock
  cases hlock

theorem Locked.congr {after : P → Pos B} (hlock : Locked pos lock handling)
    (hsame : ∀ q, holdsLock (after q) = holdsLock (pos q)) : Locked after lock handling :=
  ⟨fun q hq => hlock.proc q (by rw [← hsame q, hq]), hlock.handler⟩

variable [DecidableEq P]

theorem Locked.acquire (hlocked : Locked pos lock handling) (hfree : lock = none)
    (new : Pos B) : Locked (update pos p new) (some (.proc p)) handling := by
  constructor
  · intro q hq
    by_cases hqp : q = p
    · rw [hqp]
    · rw [update_of_ne hqp] at hq
      have hlock := hlocked.proc q hq
      rw [hfree] at hlock
      cases hlock
  · intro hhandling
    have hlock := hlocked.handler hhandling
    rw [hfree] at hlock
    cases hlock

theorem Locked.keep (hlock : Locked pos lock handling)
    (hp : holdsLock (pos p) = true) (new : Pos B) : Locked (update pos p new) lock handling := by
  refine ⟨fun q hq => ?_, hlock.handler⟩
  by_cases hqp : q = p
  · rw [hqp]
    exact hlock.proc p hp
  · rw [update_of_ne hqp] at hq
    exact hlock.proc q hq

theorem Locked.release (hlock : Locked pos lock handling)
    (hp : holdsLock (pos p) = true) {new : Pos B} (hnew : holdsLock new = false) :
    Locked (update pos p new) none handling := by
  constructor
  · intro q hq
    by_cases hqp : q = p
    · rw [hqp, update_self, hnew] at hq
      cases hq
    · rw [update_of_ne hqp] at hq
      exact absurd (hlock.unique hp hq) hqp
  · intro hhandling
    rw [hlock.not_handling hp] at hhandling
    cases hhandling

theorem Locked.outside (hlock : Locked pos lock handling) {new : Pos B}
    (hnew : holdsLock new = false) : Locked (update pos p new) lock handling := by
  refine ⟨fun q hq => ?_, hlock.handler⟩
  by_cases hqp : q = p
  · rw [hqp, update_self, hnew] at hq
    cases hq
  · rw [update_of_ne hqp] at hq
    exact hlock.proc q hq

end

section
variable {P B : Type} [DecidableEq P] [DecidableEq B] {t after : State P B} {p : P}

def stages (t : State P B) (p : P) : Stage B := stageOf (t.pos p)

/-- The invariant of the runs. -/
structure Inv (t : State P B) : Prop where
  locked : Locked t.pos t.lock t.handling
  protocol : ∃ queued consumed posted, Good (stages t) t.disk queued consumed posted

omit [DecidableEq B] in
theorem stages_setPos (t : State P B) (p : P) (pos : Pos B) :
    stages (setPos t p pos) = update (stages t) p (stageOf pos) := by
  funext q
  change stageOf (update t.pos p pos q) = _
  by_cases hqp : q = p
  · subst hqp
    rw [update_self, update_self]
  · rw [update_of_ne hqp, update_of_ne hqp]
    rfl

omit [DecidableEq B] in
theorem stages_same {pos : Pos B} (hsame : stageOf pos = stageOf (t.pos p)) :
    stages (setPos t p pos) = stages t := by
  rw [stages_setPos, hsame]
  exact update_eq_self _ _

omit [DecidableEq P] [DecidableEq B] in
theorem wakeAlloc_spec (pos : Pos B) : stageOf (wakeAlloc pos) = stageOf pos ∧
    holdsLock (wakeAlloc pos) = holdsLock pos := by
  cases pos <;> exact ⟨rfl, rfl⟩

omit [DecidableEq P] in
theorem wakeWait_spec (b : B) (pos : Pos B) : stageOf (wakeWait b pos) = stageOf pos ∧
    holdsLock (wakeWait b pos) = holdsLock pos := by
  cases pos with
  | waitAsleep other idx =>
    rw [wakeWait]
    split <;> exact ⟨rfl, rfl⟩
  | _ => exact ⟨rfl, rfl⟩

omit [DecidableEq P] [DecidableEq B] in
theorem wakeFree_spec (t : State P B) (count : ℕ) :
    stages (wakeFree t count) = stages t ∧ (wakeFree t count).disk = t.disk ∧
      (wakeFree t count).lock = t.lock ∧ (wakeFree t count).handling = t.handling ∧
      ∀ q, holdsLock ((wakeFree t count).pos q) = holdsLock (t.pos q) := by
  unfold wakeFree
  split
  · exact ⟨rfl, rfl, rfl, rfl, fun _ => rfl⟩
  · refine ⟨?_, rfl, rfl, rfl, fun q => (wakeAlloc_spec _).2⟩
    funext q
    exact (wakeAlloc_spec _).1

/-- An action is not enabled, or it gives a state with the invariant. -/
def Safe (outcome : Option (Except Panic (State P B))) : Prop :=
  outcome = none ∨ ∃ after, outcome = some (.ok after) ∧ Inv after

omit [DecidableEq B] in
theorem allocate_safe (hinv : Inv t) {b : B} {write : Bool}
    (hpos : t.pos p = .alloc b write) : Safe (some (allocate t p b write)) := by
  obtain ⟨hlocked, queued, consumed, posted, hgood⟩ := hinv
  have hp : holdsLock (t.pos p) = true := by rw [hpos]; rfl
  have hstage : stages t p = .needs b := by rw [stages, hpos]; rfl
  right
  rcases alloc3_desc_spec t.disk with ⟨idx, halloc, hlen, hidx⟩ | ⟨freed, cleared, halloc, hcleared⟩
  · refine ⟨_, by rw [allocate, halloc], hlocked.keep hp _, queued, consumed, posted, ?_⟩
    rw [stages_setPos]
    exact good_alloc hgood hstage hlen hidx
  · obtain ⟨hstages, hdisk, hlock, hhandling, hholds⟩ :=
      wakeFree_spec { t with disk := { t.disk with desc := cleared } } freed
    refine ⟨_, by rw [allocate, halloc], ?_, queued, consumed, posted, ?_⟩
    · change Locked (update (wakeFree _ freed).pos p _) (wakeFree _ freed).lock
        (wakeFree _ freed).handling
      rw [hlock, hhandling]
      exact (hlocked.congr hholds).keep (by rw [hholds]; exact hp) _
    · change Good _ (wakeFree _ freed).disk queued consumed posted
      rw [hdisk, stages_setPos, hstages]
      have hsame : update (stages t) p (stageOf (Pos.allocSleep b write)) =
          stages t := by
        rw [show stageOf (Pos.allocSleep b write) = stages t p by rw [hstage]; rfl]
        exact update_eq_self _ _
      change Good (update (stages t) p _) _ queued consumed posted
      rw [hsame]
      exact good_rollback hgood hcleared

theorem finish_safe (hinv : Inv t) {b : B} (hpos : t.pos p = .wait b idx)
    (hdisk : t.disk.bufDisk b = false) : Safe (some (finish t p b idx)) := by
  obtain ⟨hlocked, queued, consumed, posted, hgood⟩ := hinv
  have hp : holdsLock (t.pos p) = true := by rw [hpos]; rfl
  have hstage : stages t p = .waiting b idx := by rw [stages, hpos]; rfl
  obtain ⟨i0, i1, i2, rfl, hfmt⟩ := hgood.formats p b idx (by rw [hstage]; rfl)
  have hchain : (stages t p).chain = some [i0, i1, i2] := by rw [hstage]; rfl
  have hfree := @free_chain_spec P B { t.disk with infoB := update t.disk.infoB i0 none } i0 i1 i2
    (hgood.chains.three p _ hchain).2 (fun i hi => hgood.chains.taken p _ i hchain hi)
    hfmt.next0 hfmt.next1 hfmt.last
  right
  set d := { releaseChain { t.disk with
    infoB := update t.disk.infoB i0 none } i0 i1 i2 with
      owner := update t.disk.owner b none } with hd
  obtain ⟨hstages, hdisk', hlock, hhandling, hholds⟩ :=
    wakeFree_spec { t with disk := d, lock := none } 3
  refine ⟨setPos (wakeFree { t with disk := d, lock := none } 3) p .idle, ?_, ?_,
    queued, consumed, posted, ?_⟩
  · simp only [finish, List.headD_cons, hfree]
    rfl
  · have hidle : holdsLock (Pos.idle : Pos B) = false := rfl
    have hrel := (hlocked.congr hholds).release (by rw [hholds]; exact hp) hidle
    change Locked (update (wakeFree { t with disk := d, lock := none } 3).pos p
      .idle) (wakeFree { t with disk := d, lock := none } 3).lock
      (wakeFree { t with disk := d, lock := none } 3).handling
    rw [hlock, hhandling]
    exact hrel
  · rw [stages_setPos, hstages]
    have hkept : (setPos (wakeFree { t with disk := d, lock := none } 3) p .idle).disk = d := hdisk'
    rw [hkept]
    exact good_finish hgood hstage hdisk

theorem next_safe (hinv : Inv t) (p : P) : Safe (next t p) := by
  obtain ⟨hlock, queued, consumed, posted, hgood⟩ := hinv
  unfold next
  split
  case h_1 | h_5 | h_11 => exact .inl rfl
  case h_2 b write hpos =>
    split
    case isFalse => exact .inl rfl
    case isTrue hfree =>
      refine .inr ⟨_, rfl, hlock.acquire hfree _, queued, consumed, posted, ?_⟩
      rw [stages_same (by change _ = stageOf (t.pos p); rw [hpos]; rfl)]
      exact hgood
  case h_3 b write hpos => exact allocate_safe ⟨hlock, _, _, _, hgood⟩ hpos
  case h_4 b write hpos =>
    have hp : holdsLock (t.pos p) = true := by rw [hpos]; rfl
    refine .inr ⟨_, rfl, hlock.release hp rfl, queued, consumed, posted, ?_⟩
    rw [stages_same (by change _ = stageOf (t.pos p); rw [hpos]; rfl)]
    exact hgood
  case h_6 b write idx hpos =>
    have hp : holdsLock (t.pos p) = true := by rw [hpos]; rfl
    refine .inr ⟨_, rfl, hlock.keep hp _, queued, consumed, posted, ?_⟩
    rw [stages_setPos]
    exact good_format hgood (by rw [stages, hpos]; rfl) t.blockno write
  case h_7 b idx hpos =>
    have hp : holdsLock (t.pos p) = true := by rw [hpos]; rfl
    refine .inr ⟨_, rfl, hlock.keep hp _, queued, consumed, posted, ?_⟩
    rw [stages_setPos]
    refine good_ring hgood (by rw [stages, hpos]; rfl) ?_
    intro q found others hq
    have hpublish : ∃ b idx, t.pos q = .publish b idx := by
      cases hposq : t.pos q <;> simp [stages, hposq, stageOf] at hq ⊢
    obtain ⟨b', idx', hq'⟩ := hpublish
    have heq := hlock.unique hp (by rw [hq']; rfl : holdsLock (t.pos q) = true)
    rw [heq, hpos] at hq'
    cases hq'
  case h_8 b idx hpos =>
    have hp : holdsLock (t.pos p) = true := by rw [hpos]; rfl
    refine .inr ⟨_, rfl, hlock.keep hp _, queued ++ [⟨p, b, idx⟩], consumed, posted, ?_⟩
    rw [stages_setPos]
    refine good_publish hgood (by rw [stages, hpos]; rfl) ?_
    intro q found others hq
    refine hlock.unique hp ?_
    cases hposq : t.pos q <;> simp [stages, hposq, stageOf, holdsLock] at hq ⊢
  case h_9 b idx hpos =>
    have hp : holdsLock (t.pos p) = true := by rw [hpos]; rfl
    split
    · refine .inr ⟨_, rfl, hlock.keep hp _, queued, consumed, posted, ?_⟩
      rw [stages_same (by rw [hpos]; rfl)]
      exact hgood
    case isFalse hdisk => exact finish_safe ⟨hlock, _, _, _, hgood⟩ hpos (by simpa using hdisk)
  case h_10 b idx hpos =>
    have hp : holdsLock (t.pos p) = true := by rw [hpos]; rfl
    refine .inr ⟨_, rfl, hlock.release hp rfl, queued, consumed, posted, ?_⟩
    rw [stages_same (by change _ = stageOf (t.pos p); rw [hpos]; rfl)]
    exact hgood
  case h_12 b idx hpos =>
    split
    case isFalse => exact .inl rfl
    case isTrue hfree =>
      refine .inr ⟨_, rfl, hlock.acquire hfree _, queued, consumed, posted, ?_⟩
      rw [stages_same (by change _ = stageOf (t.pos p); rw [hpos]; rfl)]
      exact hgood

omit [DecidableEq P] in
theorem intr_safe (hinv : Inv t) (hhandling : t.handling = true) :
    Safe (some (virtio_disk_intr t)) := by
  obtain ⟨hlocked, queued, consumed, posted, hgood⟩ := hinv
  have hlock := hlocked.handler hhandling
  have hnobody : ∀ q, holdsLock (t.pos q) = false := by
    intro q
    by_contra hq
    have hproc := hlocked.proc q (by simpa using hq)
    rw [hlock] at hproc
    cases hproc
  right
  unfold virtio_disk_intr
  by_cases hnil : t.disk.seen = t.disk.usedIdx
  · rw [if_pos hnil]
    refine ⟨_, rfl, ⟨fun q hq => ?_, fun h => by cases h⟩, queued, consumed, posted, hgood⟩
    rw [hnobody q] at hq
    cases hq
  · rw [if_neg hnil]
    cases posted with
    | nil => exact absurd (hgood.ledger.used_empty.mpr rfl) hnil
    | cons e posted =>
      obtain ⟨hid, hstatus, hinfo⟩ := hgood.completion
      simp only [hid, hstatus, hinfo, ne_eq, not_true_eq_false, if_false]
      refine ⟨_, rfl, hlocked.congr fun q => (wakeWait_spec e.b _).2, queued, consumed, posted, ?_⟩
      have hstages : stages { t with pos := fun p => wakeWait e.b (t.pos p) } =
          stages t := by
        funext q
        exact (wakeWait_spec e.b _).1
      change Good (stages { t with pos := fun p => wakeWait e.b (t.pos p) }) _ _ _ _
      rw [hstages]
      exact good_intr hgood

theorem exec_safe (hinv : Inv t) (action : Action P B) : Safe (exec t action) := by
  obtain ⟨hlock, queued, consumed, posted, hgood⟩ := hinv
  cases action with
  | call p b write =>
    simp only [exec]
    split
    case isFalse => exact .inl rfl
    case isTrue hcall =>
      refine .inr ⟨_, rfl, hlock.outside rfl, queued, consumed, posted, ?_⟩
      rw [stages_setPos]
      exact good_call hgood (by rw [stages, hcall.1]; rfl) hcall.2
  | next p => exact next_safe ⟨hlock, _, _, _, hgood⟩ p
  | intr =>
    simp only [exec]
    split
    case isTrue hhandling => exact intr_safe ⟨hlock, _, _, _, hgood⟩ hhandling
    case isFalse =>
      split
      case isFalse => exact .inl rfl
      case isTrue hfree =>
        refine .inr ⟨_, rfl, ⟨fun q hq => ?_, fun _ => rfl⟩, queued, consumed, posted, hgood⟩
        have hproc := hlock.proc q hq
        rw [hfree] at hproc
        cases hproc
  | consume =>
    simp only [exec]
    split
    · exact .inl rfl
    case isFalse hmore =>
      cases queued with
      | nil => exact absurd (hgood.ledger.avail_empty.mpr rfl) hmore
      | cons e queued =>
        exact .inr ⟨_, rfl, hlock, queued, consumed ++ [e], posted, good_consume hgood⟩
  | complete k =>
    simp only [exec]
    cases hrequest : t.disk.pending[k]? with
    | none => exact .inl rfl
    | some request =>
      obtain ⟨e, rest, hgood'⟩ := good_complete hgood hrequest
      exact .inr ⟨_, rfl, hlock, queued, rest, posted ++ [e], hgood'⟩

abbrev Runs (t : State P B) : Prop := Reachable exec (fun _ _ => True) Initial t

theorem runs_inv (hruns : Runs t) : Inv t := by
  refine @Reachable.invariant _ _ _ _ _ _ Inv t hruns ?_ ?_
  · intro t hinit
    have hstages : ∀ p, stages t p = .none := by
      intro p
      rw [stages, hinit.pos]
      rfl
    refine ⟨⟨fun p hp => ?_, fun h => ?_⟩, [], [], [], ?_, ?_, ?_, ?_⟩
    · rw [hinit.pos] at hp
      cases hp
    · rw [hinit.handling] at h
      cases h
    · intro p b hp
      rw [hstages] at hp
      cases hp
    · constructor
      · intro p idx hp
        rw [hstages] at hp
        cases hp
      · intro p idx i hp
        rw [hstages] at hp
        cases hp
      · intro p q idx others i hp
        rw [hstages] at hp
        cases hp
      · intro i hsmall hfree
        rw [hinit.free i hsmall] at hfree
        cases hfree
    · intro p b idx hp
      rw [hstages] at hp
      cases hp
    · constructor
      · simp
      · simp
      · intro p b idx hp
        rw [hstages] at hp
        cases hp
      · intro p b idx hp
        rw [hstages] at hp
        cases hp
      · intro p b idx hp
        rw [hstages] at hp
        rcases hp with hp | hp <;> cases hp
      · intro p b idx hp
        rw [hstages] at hp
        cases hp
      · exact .nil _ _
      · rw [List.length_nil, advance_zero]
        exact hinit.availIdx
      · exact hinit.pending
      · exact .nil _ _
      · rw [List.length_nil, advance_zero]
        exact hinit.usedIdx
      · exact hinit.posted
      · simp
  · intro t action after hinv _ hexec
    rcases exec_safe hinv action with hnone | ⟨found, hf, hafter⟩
    · rw [hnone] at hexec
      cases hexec
    · rw [hf, Option.some.injEq, Except.ok.injEq] at hexec
      rw [← hexec]
      exact hafter

omit [DecidableEq B] in
theorem setPos_idle {q : P} {pos : Pos B} (hidle : (setPos t q pos).pos p = .idle) :
    (q = p ∧ pos = .idle) ∨ t.pos p = .idle := by
  change update t.pos q pos p = .idle at hidle
  by_cases hpq : p = q
  · subst hpq
    rw [update_self] at hidle
    exact .inl ⟨rfl, hidle⟩
  · rw [update_of_ne hpq] at hidle
    exact .inr hidle

omit [DecidableEq B] in
theorem setPos_busy {q : P} {pos : Pos B} (hpos : pos ≠ .idle)
    (hidle : (setPos t q pos).pos p = .idle) : t.pos p = .idle :=
  (setPos_idle hidle).resolve_left fun h => hpos h.2

omit [DecidableEq P] [DecidableEq B] in
theorem wakeFree_idle {count : ℕ} (hidle : (wakeFree t count).pos p = .idle) : t.pos p = .idle := by
  unfold wakeFree at hidle
  split at hidle
  · exact hidle
  · change wakeAlloc (t.pos p) = .idle at hidle
    cases hpos : t.pos p <;> rw [hpos] at hidle <;> cases hidle

omit [DecidableEq P] in
theorem wakeWait_idle {b : B} {pos : Pos B} (hidle : wakeWait b pos = .idle) : pos = .idle := by
  cases pos with
  | idle => rfl
  | waitAsleep other idx =>
    rw [wakeWait] at hidle
    split at hidle <;> cases hidle
  | _ => cases hidle

theorem next_idle {q : P} (hnext : next t q = some (.ok after)) (hidle : after.pos p = .idle) :
    t.pos p = .idle ∨ ∃ b idx, t.pos p = .wait b idx ∧ t.disk.bufDisk b = false := by
  unfold next at hnext
  split at hnext
  case h_1 | h_5 | h_11 => cases hnext
  case h_2 | h_12 =>
    split at hnext <;> cases hnext
    exact .inl (setPos_busy (by simp) hidle)
  case h_3 =>
    unfold allocate at hnext
    split at hnext <;> cases hnext
    · exact .inl (setPos_busy (by simp) hidle)
    · have hwoken := wakeFree_idle (setPos_busy (by simp) hidle)
      exact .inl hwoken
  case h_4 | h_6 | h_7 | h_8 | h_10 =>
    cases hnext
    exact .inl (setPos_busy (by simp) hidle)
  case h_9 b idx hpos =>
    split at hnext
    · cases hnext
      exact .inl (setPos_busy (by simp) hidle)
    case isFalse hdisk =>
      unfold finish at hnext
      split at hnext <;> cases hnext
      rcases setPos_idle hidle with ⟨hqp, -⟩ | hidle
      · subst hqp
        exact .inr ⟨b, idx, hpos, by simpa using hdisk⟩
      · have hwoken := wakeFree_idle hidle
        exact .inl hwoken

theorem exec_idle {action : Action P B} (hexec : exec t action = some (.ok after))
    (hidle : after.pos p = .idle) :
    t.pos p = .idle ∨ ∃ b idx, t.pos p = .wait b idx ∧ t.disk.bufDisk b = false := by
  cases action with
  | call q b write =>
    simp only [exec] at hexec
    split at hexec <;> cases hexec
    exact .inl (setPos_busy (by simp) hidle)
  | next q => exact next_idle hexec hidle
  | intr =>
    simp only [exec] at hexec
    split at hexec
    · unfold virtio_disk_intr at hexec
      split at hexec
      · cases hexec
        exact .inl hidle
      · dsimp only at hexec
        split at hexec
        · cases hexec
        · split at hexec <;> cases hexec
          exact .inl (wakeWait_idle hidle)
    · split at hexec <;> cases hexec
      exact .inl hidle
  | consume =>
    simp only [exec] at hexec
    split at hexec <;> cases hexec
    exact .inl hidle
  | complete k =>
    simp only [exec] at hexec
    cases hrequest : t.disk.pending[k]? with
    | none =>
      rw [hrequest] at hexec
      cases hexec
    | some request =>
      rw [hrequest] at hexec
      cases hexec
      exact .inl hidle

def chainOf (t : State P B) (p : P) : Option (List ℕ) := (stages t p).chain

/-- In every run, across the wrap-around of the indices: the chains are disjoint; the
free descriptors are those in no chain; the slot of the available ring that is
written is not one that the device has still to take; the handler finds the buffer of
the request that was completed, with status 0; a call returns only after the device
has completed its request; and there is no panic. -/
theorem virtio_protocol (t : State P B) (hruns : Runs t) :
    (∀ p q idx others, chainOf t p = some idx → chainOf t q = some others → p ≠ q →
      idx.Disjoint others) ∧
    (∀ i < NUM, t.disk.free i = true ↔ ∀ p idx, chainOf t p = some idx → i ∉ idx) ∧
    (∀ p b idx, t.pos p = .ring b idx → ∀ k < (t.disk.availIdx - t.disk.lastAvail).toNat,
        slot NUM (advance t.disk.lastAvail k) ≠ slot NUM t.disk.availIdx) ∧
    (t.disk.seen ≠ t.disk.usedIdx → ∃ request rest b, t.disk.posted = request :: rest ∧
      t.disk.usedRing (slot NUM t.disk.seen) = request.head ∧
      request.data = .data b ∧ t.disk.infoB request.head = some b ∧
      t.disk.infoStatus request.head = 0) ∧
    (∀ action after p, exec t action = some (.ok after) → t.pos p ≠ .idle →
      after.pos p = .idle → ∃ b idx, t.pos p = .wait b idx ∧ t.disk.done b = true) ∧
    ∀ action panic, exec t action ≠ some (.error panic) := by
  have hinv := runs_inv hruns
  obtain ⟨hlocked, queued, consumed, posted, hgood⟩ := hinv
  refine ⟨?_, ?_, ?_, ?_, ?_, ?_⟩
  · intro p q idx others hp hq hne i hi hi'
    exact hne (hgood.chains.disjoint p q idx others i hp hq hi hi')
  · intro i hsmall
    constructor
    · intro hfree p idx hp hi
      rw [(hgood.chains.taken p idx i hp hi).2] at hfree
      cases hfree
    · intro hnone
      by_contra hfree
      obtain ⟨p, idx, hp, hi⟩ := hgood.chains.free i hsmall (by simpa using hfree)
      exact hnone p idx hp hi
  · intro p b idx hpos k hk heq
    have hstage : stages t p = .ready b idx := by rw [stages, hpos]; rfl
    have hroom := hgood.room (by rw [hstage]; rfl) (fun b idx h => by
      rw [hstage] at h
      cases h)
    rw [hgood.ledger.availIdx, advance_sub, BitVec.toNat_ofNat, Nat.mod_eq_of_lt
      (lt_of_le_of_lt (by omega) NUM_lt)] at hk
    rw [hgood.ledger.availIdx] at heq
    exact absurd (slot_inj NUM_dvd (by omega) (by omega) heq) (by omega)
  · intro hmore
    cases posted with
    | nil => exact absurd (hgood.ledger.used_empty.mpr rfl) hmore
    | cons e posted =>
      obtain ⟨hid, hstatus, hinfo⟩ := hgood.completion
      exact ⟨e.request, posted.map Entry.request, e.b, hgood.ledger.history, hid, rfl,
        hinfo, hstatus⟩
  · intro action after p hexec hbusy hidle
    rcases exec_idle hexec hidle with hpos | ⟨b, idx, hpos, hdisk⟩
    · exact absurd hpos hbusy
    · exact ⟨b, idx, hpos, hgood.ledger.finished p b idx (by rw [stages, hpos]; rfl) hdisk⟩
  · intro action panic hexec
    rcases exec_safe ⟨hlocked, _, _, _, hgood⟩ action with hnone | ⟨found, hfound, -⟩
    · rw [hnone] at hexec
      cases hexec
    · rw [hfound] at hexec
      cases hexec

end

def wrapping : State Bool Bool where
  disk :=
    { desc := fun _ => zeroDesc, availRing := fun _ => 0, availIdx := 65535
      usedRing := fun _ => 0, usedIdx := 65535, free := fun _ => true
      seen := 65535, infoB := fun _ => none, infoStatus := fun _ => 0
      ops := fun _ => ⟨0, 0, 0⟩, bufDisk := fun _ => false, lastAvail := 65535
      pending := [], posted := [], done := fun _ => false, owner := fun _ => none }
  lock := none
  pos := fun _ => .idle
  handling := false
  blockno := fun _ => 0

theorem wrapping_initial : Initial wrapping :=
  ⟨fun _ _ => rfl, rfl, rfl, rfl, rfl, rfl, rfl, fun _ => rfl⟩

/-- A write and a read are under way, and the device completes the read first, as the indices
wrap around. -/
theorem virtio_protocol_wrapping :
    ∃ t : State Bool Bool, Runs t ∧ t.disk.usedIdx = 1 ∧ chainOf t true = some [0, 1, 2] ∧
      chainOf t false = some [3, 4, 5] ∧ ∃ request rest b,
      t.disk.posted = request :: rest ∧ request.head = 3 ∧ request.data = .data b ∧
      t.disk.infoB 3 = some b := by
  obtain ⟨t, hruns, htest⟩ := @exists_reachable (State Bool Bool)
    (VirtioDisk.Action Bool Bool) Panic exec (fun _ _ => True) Initial (fun _ _ => true)
    (fun t => decide (t.disk.usedIdx = 1 ∧ chainOf t true = some [0, 1, 2] ∧
      chainOf t false = some [3, 4, 5] ∧ t.disk.usedRing (slot NUM t.disk.seen) = 3 ∧
      t.disk.seen ≠ t.disk.usedIdx)) wrapping
    [.call true false true, .next true, .next true, .next true, .next true,
      .next true, .consume, .next true, .next true, .call false true false, .next false,
      .next false, .next false, .next false, .next false, .consume, .next false, .next false,
      .complete 1, .complete 0]
    wrapping_initial (fun _ _ _ => trivial) (by decide +kernel)
  obtain ⟨hwrapped, hwrite, hread, hfirst, hmore⟩ := of_decide_eq_true htest
  obtain ⟨request, rest, b, hposted, hhead, hdata, hinfo, -⟩ :=
    (virtio_protocol t hruns).2.2.2.1 hmore
  rw [hfirst] at hhead
  rw [← hhead] at hinfo
  exact ⟨t, hruns, hwrapped, hwrite, hread, request, rest, b, hposted, hhead.symm, hdata, hinfo⟩

end Xv6.VirtioProtocol
