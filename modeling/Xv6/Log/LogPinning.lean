import Xv6.Log.BufferCache

/-!
# Logged buffers stay in the cache

The blocks of the header that are not installed yet are pinned: each has exactly
one buffer, which is not recycled.  The contents that the callers logged last are
in that buffer, and otherwise on the disk.  The invariant `Cached` says this
together with what the log holds while `commit` runs.
-/

namespace Xv6.LogPinning

open Function List BufferCache Interleaving
open DiskLog (LogArea)

variable {blocks : List ℕ} {blockno tail : ℕ}

section
variable {N : ℕ} {P D : Type}

def pinned (t : Cache N P D) : List ℕ :=
  match t.committer with
  | some (_, .installTrans tail) => t.lh.drop tail
  | _ => t.lh

/-- The number of blocks of the header that `write_log` has copied. -/
def written (t : Cache N P D) : ℕ :=
  match t.committer with
  | some (_, .writeLog tail) => tail
  | some (_, .writeHead) => t.lh.length
  | some (_, .installTrans _) => t.lh.length
  | _ => 0

/-- The pins of a buffer for a block, if these blocks are pinned. -/
def pins (blocks : List ℕ) (key : ℕ × ℕ) : ℕ := if key.1 = ROOTDEV ∧ key.2 ∈ blocks then 1 else 0

variable [Fintype P]

structure Cached (area : LogArea) (t : Cache N P D) : Prop where
  listed : ∀ b, b ∈ t.order
  distinct : ∀ b c, (t.buf b).key = (t.buf c).key → (t.buf b).key.1 = ROOTDEV → b = c
  counted : ∀ b, (t.buf b).refcnt = (∑ p, t.refs p b) + pins (pinned t) (t.buf b).key
  locker : ∀ b p, (t.buf b).lock = some p →
    0 < t.refs p b ∧ (t.buf b).valid = true ∧ (t.buf b).key.1 = ROOTDEV
  mounted : ∀ b p, 0 < t.refs p b → (t.buf b).key.1 = ROOTDEV
  dirty : ∀ b, t.dirty b = true → (t.buf b).lock ≠ none ∧ ¬ area.Contains (t.buf b).key.2
  clean : ∀ b p stage, t.committer = some (p, stage) → (t.buf b).lock = some p → t.dirty b = false
  nodup : t.lh.Nodup
  home : ∀ blockno ∈ t.lh, ¬ area.Contains blockno
  room : t.lh.length < area.size
  present : ∀ blockno ∈ pinned t, ∃ b, (t.buf b).key = (ROOTDEV, blockno) ∧ (t.buf b).valid = true
  current : ∀ b, (t.buf b).key.1 = ROOTDEV → (t.buf b).valid = true →
    t.dirty b = false → ¬ area.Contains (t.buf b).key.2 →
    (t.buf b).data = t.contents (t.buf b).key.2
  logBlock : ∀ b, (t.buf b).key.1 = ROOTDEV → (t.buf b).valid = true →
    area.Contains (t.buf b).key.2 → (t.buf b).data = t.disk (t.buf b).key.2
  stored : ∀ blockno, ¬ area.Contains blockno → blockno ∉ pinned t →
    t.disk blockno = t.contents blockno
  copied : ∀ index blockno, index < written t → t.lh[index]? = some blockno →
    t.disk (area.start + index + 1) = t.contents blockno
  quiet : t.committer ≠ none → t.outstanding = 0

variable {area : LogArea} {t : Cache N P D} {p : P} {b : Fin N}

theorem Cached.refs_le (hcache : Cached area t) (p : P) (b : Fin N) :
    t.refs p b ≤ (t.buf b).refcnt := by
  rw [hcache.counted b]
  have hle : t.refs p b ≤ ∑ p, t.refs p b :=
    Finset.single_le_sum (f := fun p => t.refs p b) (fun _ _ => Nat.zero_le _) (Finset.mem_univ p)
  omega

theorem Cached.unused (hcache : Cached area t) (hfree : (t.buf b).refcnt = 0) :
    pins (pinned t) (t.buf b).key = 0 ∧ (∀ p, t.refs p b = 0) ∧ (t.buf b).lock = none := by
  have hcnt := hcache.counted b
  have hrefs : ∀ p, t.refs p b = 0 := fun p => by
    have hle := hcache.refs_le p b
    omega
  refine ⟨by omega, hrefs, ?_⟩
  cases hlock : (t.buf b).lock with
  | none => rfl
  | some p =>
    have hpos := (hcache.locker b p hlock).1
    rw [hrefs p] at hpos
    exact absurd hpos (lt_irrefl 0)

theorem pins_eq_one (hmem : blockno ∈ blocks) :
    pins blocks (ROOTDEV, blockno) = 1 := by
  simp [pins, hmem]

theorem pins_eq_zero :
    pins blocks (ROOTDEV, blockno) = 0 ↔ blockno ∉ blocks := by
  simp [pins]

theorem pins_congr {others : List ℕ} {key : ℕ × ℕ}
    (hsame : key.1 = ROOTDEV → (key.2 ∈ blocks ↔ key.2 ∈ others)) :
    pins blocks key = pins others key := by
  simp only [pins]
  by_cases hdev : key.1 = ROOTDEV
  · simp [hdev, hsame hdev]
  · simp [hdev]

theorem Cached.contains (hcache : Cached area t)
    (he : t.lh[tail]? = some blockno) : area.Contains (area.start + tail + 1) := by
  obtain ⟨htail, _⟩ := List.getElem?_eq_some_iff.mp he
  have hroom := hcache.room
  exact ⟨by omega, by omega⟩

theorem contains_head (area : LogArea) : area.Contains area.start :=
  ⟨le_rfl, by have := area.hasHeader; omega⟩

/-! ## A change of one buffer -/

/-- A buffer for the same block gets another lock or other data, and the disk may be
written. -/
theorem Cached.rewrite (hcache : Cached area t) (buf : Buf P D) (isDirty : Bool) (disk : ℕ → D)
    (hkey : buf.key = (t.buf b).key) (hrefcnt : buf.refcnt = (t.buf b).refcnt)
    (hval : (t.buf b).valid = true → buf.valid = true)
    (hlock : ∀ p, buf.lock = some p → 0 < t.refs p b ∧ buf.valid = true)
    (hdirty : isDirty = true → buf.lock ≠ none ∧ ¬ area.Contains (t.buf b).key.2)
    (hclean : ∀ p stage, t.committer = some (p, stage) → buf.lock = some p → isDirty = false)
    (hcurrent : (t.buf b).key.1 = ROOTDEV → buf.valid = true → isDirty = false →
      ¬ area.Contains (t.buf b).key.2 → buf.data = t.contents (t.buf b).key.2)
    (hlog : (t.buf b).key.1 = ROOTDEV → buf.valid = true →
      area.Contains (t.buf b).key.2 → buf.data = disk (t.buf b).key.2)
    (hothers : ∀ c, c ≠ b → (t.buf c).key.1 = ROOTDEV → (t.buf c).valid = true →
      area.Contains (t.buf c).key.2 → disk (t.buf c).key.2 = t.disk (t.buf c).key.2)
    (hstored : ∀ blockno, ¬ area.Contains blockno → blockno ∉ pinned t →
      disk blockno = t.disk blockno)
    (hcopied : ∀ index < written t,
      disk (area.start + index + 1) = t.disk (area.start + index + 1)) :
    Cached area { setBuf t b buf with
      disk := disk, dirty := update t.dirty b isDirty } := by
  have hkeys : ∀ c, (update t.buf b buf c).key = (t.buf c).key := by
    intro c
    by_cases hc : c = b
    · subst hc
      simp [hkey]
    · simp [hc]
  have hcase : ∀ {motive : Fin N → Buf P D → Bool → Prop},
      motive b buf isDirty → (∀ c, c ≠ b → motive c (t.buf c) (t.dirty c)) →
      ∀ c, motive c (update t.buf b buf c) (update t.dirty b isDirty c) := by
    intro motive hself hkept c
    by_cases hc : c = b
    · subst hc
      simpa using hself
    · simpa [hc] using hkept c hc
  refine ⟨hcache.listed, ?_, ?_, ?_, ?_, ?_, ?_, hcache.nodup, hcache.home,
    hcache.room, ?_, ?_, ?_, ?_, ?_, hcache.quiet⟩
  · intro c d hsame hdev
    simp only [setBuf, hkeys] at hsame hdev
    exact hcache.distinct c d hsame hdev
  · intro c
    change (update t.buf b buf c).refcnt = (∑ p, t.refs p c) +
      pins (pinned t) (update t.buf b buf c).key
    rw [hkeys c, ← hcache.counted c]
    by_cases hc : c = b
    · subst hc
      simp [hrefcnt]
    · simp [hc]
  · refine @hcase (fun c buf _ => ∀ p, buf.lock = some p →
      0 < t.refs p c ∧ buf.valid = true ∧ buf.key.1 = ROOTDEV) ?_ fun c _ => hcache.locker c
    intro p hheld
    obtain ⟨hrefs, hval⟩ := hlock p hheld
    exact ⟨hrefs, hval, by rw [hkey]; exact hcache.mounted b p hrefs⟩
  · intro c p hrefs
    simp only [setBuf, hkeys]
    exact hcache.mounted c p hrefs
  · refine @hcase (fun _ buf isDirty => isDirty = true →
      buf.lock ≠ none ∧ ¬ area.Contains buf.key.2) ?_ fun c _ => hcache.dirty c
    rw [hkey]
    exact hdirty
  · exact @hcase (fun _ buf isDirty => ∀ p stage,
      t.committer = some (p, stage) → buf.lock = some p → isDirty = false)
      hclean fun c _ => hcache.clean c
  · intro blockno hpinned
    obtain ⟨c, hb, hold⟩ := hcache.present blockno hpinned
    refine ⟨c, by simpa only [setBuf, hkeys] using hb, ?_⟩
    by_cases hc : c = b
    · subst hc
      simpa [setBuf] using hval hold
    · simpa [setBuf, hc] using hold
  · refine @hcase (fun _ buf isDirty => buf.key.1 = ROOTDEV → buf.valid = true →
      isDirty = false → ¬ area.Contains buf.key.2 →
      buf.data = t.contents buf.key.2) ?_ fun c _ => hcache.current c
    rw [hkey]
    exact hcurrent
  · refine @hcase (fun _ buf _ => buf.key.1 = ROOTDEV → buf.valid = true →
      area.Contains buf.key.2 → buf.data = disk buf.key.2) ?_ ?_
    · rw [hkey]
      exact hlog
    · intro c hc hdev hval hcontains
      rw [hothers c hc hdev hval hcontains]
      exact hcache.logBlock c hdev hval hcontains
  · intro blockno hhome hunpinned
    exact (hstored blockno hhome hunpinned).trans (hcache.stored blockno hhome hunpinned)
  · intro index blockno hi he
    exact (hcopied index hi).trans (hcache.copied index blockno hi he)

theorem Cached.stage (hcache : Cached area t) (committer : Option (P × Stage)) (outstanding : ℕ)
    (hpinned : pinned { t with
      committer := committer, outstanding := outstanding } = pinned t)
    (hclean : ∀ b p stage, committer = some (p, stage) →
      (t.buf b).lock = some p → t.dirty b = false)
    (hcopied : ∀ index blockno, index < written { t with
      committer := committer, outstanding := outstanding } →
      t.lh[index]? = some blockno →
      t.disk (area.start + index + 1) = t.contents blockno)
    (hquiet : committer ≠ none → outstanding = 0) :
    Cached area { t with
      committer := committer, outstanding := outstanding } := by
  refine ⟨hcache.listed, hcache.distinct, ?_, hcache.locker, hcache.mounted,
    hcache.dirty, hclean, hcache.nodup, hcache.home, hcache.room, ?_,
    hcache.current, hcache.logBlock, ?_, hcopied, hquiet⟩
  · rw [hpinned]
    exact hcache.counted
  · rw [hpinned]
    exact hcache.present
  · rw [hpinned]
    exact hcache.stored

theorem Cached.clear (hcache : Cached area t) (hnone : pinned t = []) {p : P}
    {stage : Stage} (hcom : t.committer = some (p, stage)) :
    Cached area (setStage { t with lh := [] } p .writeCleared) := by
  refine ⟨hcache.listed, hcache.distinct, ?_, hcache.locker, hcache.mounted,
    hcache.dirty, ?_, nodup_nil, by simp [setStage], ?_,
    by simp [pinned, setStage], hcache.current, hcache.logBlock, ?_,
    by simp [setStage], fun _ => hcache.quiet (by simp [hcom])⟩
  · have hcnt := hcache.counted
    rw [hnone] at hcnt
    exact hcnt
  · intro b q later hlater hlock
    cases hlater
    exact hcache.clean b p stage hcom hlock
  · exact area.hasHeader
  · have hstored := hcache.stored
    rw [hnone] at hstored
    exact hstored

theorem Cached.bwriteLog (hcache : Cached area t) {p : P}
    (hholds : Holds t p b blockno) (hlog : area.Contains blockno) (data : D)
    (hkeep : ∀ index, index < written t → area.start + index + 1 ≠ blockno) :
    Cached area (bwrite t b data) := by
  obtain ⟨hlock, hkey⟩ := hholds
  have hlog' : area.Contains (t.buf b).key.2 := by simpa [hkey] using hlog
  have hrewrite := hcache.rewrite { t.buf b with data := data } (t.dirty b)
    (update t.disk (t.buf b).key.2 data) rfl rfl id
    (fun q hheld => ⟨(hcache.locker b q hheld).1, (hcache.locker b q hheld).2.1⟩)
    (hcache.dirty b) (hcache.clean b) (fun _ _ _ hhome => absurd hlog' hhome)
    (fun _ _ _ => by simp) ?_ ?_ ?_
  · rw [update_eq_self] at hrewrite
    exact hrewrite
  · intro c hc hdev _ _
    apply update_of_ne
    intro hsame
    exact hc (hcache.distinct c b (Prod.ext (by rw [hdev, hkey]) hsame) hdev)
  · intro other hhome _
    apply update_of_ne
    rintro rfl
    exact hhome hlog'
  · intro index hi
    apply update_of_ne
    simpa [hkey] using hkeep index hi

/-! ## References -/

variable [DecidableEq P]

theorem Cached.recount (hcache : Cached area t) (p : P) (count refcnt : ℕ)
    (order : List (Fin N)) (horder : ∀ c, c ∈ order)
    (hsum : refcnt + t.refs p b = (t.buf b).refcnt + count)
    (hlock : (t.buf b).lock = some p → 0 < count)
    (hdev : (t.buf b).key.1 = ROOTDEV) :
    Cached area { setRefs (setBuf t b { t.buf b with refcnt := refcnt }) p b count
      with order := order } := by
  have hbuf : ∀ c, update t.buf b { t.buf b with refcnt := refcnt } c =
      { t.buf c with refcnt := if c = b then refcnt else (t.buf c).refcnt } := by
    intro c
    by_cases hc : c = b
    · subst hc
      simp
    · simp [hc]
  refine ⟨horder, ?_, ?_, ?_, ?_, ?_, ?_, hcache.nodup, hcache.home,
    hcache.room, ?_, ?_, ?_, hcache.stored, hcache.copied, hcache.quiet⟩
  · intro c d
    simp only [setRefs, setBuf, hbuf]
    exact hcache.distinct c d
  · intro c
    have hcnt := hcache.counted c
    have hrefs := sum_update_entry t.refs p b c count
    change (update t.buf b _ c).refcnt = (∑ q, update t.refs p
      (update (t.refs p) b count) q c) + pins (pinned t) (update t.buf b _ c).key
    rw [hbuf c]
    by_cases hc : c = b
    · subst hc
      simp only [if_true] at hrefs ⊢
      omega
    · simp only [hc, if_false] at hrefs ⊢
      omega
  · intro c q hheld
    simp only [setRefs, setBuf, hbuf, update_entry] at hheld ⊢
    obtain ⟨hpos, hrest⟩ := hcache.locker c q hheld
    refine ⟨?_, hrest⟩
    split
    case isTrue hself =>
      obtain ⟨rfl, rfl⟩ := hself
      exact hlock hheld
    case isFalse => exact hpos
  · intro c q hpos
    simp only [setRefs, setBuf, hbuf, update_entry] at hpos ⊢
    split at hpos
    case isTrue hself =>
      rw [hself.2]
      exact hdev
    case isFalse => exact hcache.mounted c q hpos
  · intro c
    simp only [setRefs, setBuf, hbuf]
    exact hcache.dirty c
  · intro c
    simp only [setRefs, setBuf, hbuf]
    exact hcache.clean c
  · intro blockno hpinned
    simp only [setRefs, setBuf, hbuf]
    exact hcache.present blockno hpinned
  · intro c
    simp only [setRefs, setBuf, hbuf]
    exact hcache.current c
  · intro c
    simp only [setRefs, setBuf, hbuf]
    exact hcache.logBlock c

theorem Cached.recycle (hcache : Cached area t) (p : P)
    (hfree : (t.buf b).refcnt = 0) (hnew : ∀ c, (t.buf c).key ≠ (ROOTDEV, blockno)) :
    Cached area (recycle t p b blockno) := by
  obtain ⟨hpins, hrefs, hunlocked⟩ := hcache.unused hfree
  have hself : (BufferCache.recycle t p b blockno).buf b = { t.buf b with
      key := (ROOTDEV, blockno), valid := false, refcnt := 1 } := by
    simp [BufferCache.recycle, setRefs, setBuf]
  have hothers : ∀ c, c ≠ b → (BufferCache.recycle t p b blockno).buf c = t.buf c := by
    intro c hc
    simp [BufferCache.recycle, setRefs, setBuf, hc]
  have hclean : t.dirty b = false := by
    cases hdirty : t.dirty b with
    | false => rfl
    | true => exact absurd hunlocked (hcache.dirty b hdirty).1
  have hheld : ∀ q c, (BufferCache.recycle t p b blockno).refs q c =
      if q = p ∧ c = b then 1 else t.refs q c := by
    intro q c
    change update t.refs p (update (t.refs p) b (t.refs p b + 1)) q c = _
    rw [update_entry, hrefs p]
  -- A pinned block has a buffer, and it is another one.
  have hunpinned : blockno ∉ pinned t := by
    intro hpinned
    obtain ⟨c, hkey, _⟩ := hcache.present blockno hpinned
    exact hnew c hkey
  refine ⟨hcache.listed, ?_, ?_, ?_, ?_, ?_, ?_, hcache.nodup, hcache.home,
    hcache.room, ?_, ?_, ?_, hcache.stored, hcache.copied, hcache.quiet⟩
  · intro c d hsame hdev
    by_cases hc : c = b <;> by_cases hd : d = b
    · rw [hc, hd]
    · rw [hc, hself, hothers d hd] at hsame
      exact absurd hsame.symm (hnew d)
    · rw [hd, hself, hothers c hc] at hsame
      exact absurd hsame (hnew c)
    · rw [hothers c hc] at hsame hdev
      rw [hothers d hd] at hsame
      exact hcache.distinct c d hsame hdev
  · intro c
    have hcnt := hcache.counted c
    have hsum := sum_update_entry t.refs p b c (t.refs p b + 1)
    change _ = (∑ q, update t.refs p (update (t.refs p) b (t.refs p b + 1)) q c) + pins (pinned t) _
    by_cases hc : c = b
    · subst hc
      have hnone : ∑ q, t.refs q c = 0 := by simp [hrefs]
      rw [hself, pins_eq_zero.mpr hunpinned]
      simp only [if_true] at hsum
      simp only
      omega
    · rw [hothers c hc]
      simp only [hc, if_false] at hsum
      omega
  · intro c q hlock
    by_cases hc : c = b
    · subst hc
      rw [hself] at hlock
      simp [hunlocked] at hlock
    · rw [hothers c hc] at hlock ⊢
      rw [hheld]
      simp only [hc, and_false, if_false]
      exact hcache.locker c q hlock
  · intro c q hpos
    by_cases hc : c = b
    · subst hc
      rw [hself]
    · rw [hothers c hc]
      rw [hheld] at hpos
      simp only [hc, and_false, if_false] at hpos
      exact hcache.mounted c q hpos
  · intro c hdirty
    change t.dirty c = true at hdirty
    by_cases hc : c = b
    · subst hc
      rw [hclean] at hdirty
      cases hdirty
    · rw [hothers c hc]
      exact hcache.dirty c hdirty
  · intro c q stage hcom hlock
    by_cases hc : c = b
    · rw [hc]
      exact hclean
    · rw [hothers c hc] at hlock
      exact hcache.clean c q stage hcom hlock
  · intro other hpinned
    obtain ⟨c, hkey, hval⟩ := hcache.present other hpinned
    have hc : c ≠ b := by
      rintro rfl
      rw [hkey, pins_eq_zero] at hpins
      exact hpins hpinned
    exact ⟨c, by rw [hothers c hc]; exact ⟨hkey, hval⟩⟩
  · intro c hdev hval
    by_cases hc : c = b
    · rw [hc, hself] at hval
      cases hval
    · rw [hothers c hc] at hdev hval ⊢
      exact hcache.current c hdev hval
  · intro c hdev hval
    by_cases hc : c = b
    · rw [hc, hself] at hval
      cases hval
    · rw [hothers c hc] at hdev hval ⊢
      exact hcache.logBlock c hdev hval

theorem Cached.bget (hcache : Cached area t) {after : Cache N P D}
    (hbget : bget t p blockno = .ok after) : Cached area after := by
  unfold BufferCache.bget at hbget
  split at hbget
  case h_1 b hf =>
    cases hbget
    have hkey := List.find?_some hf
    rw [decide_eq_true_iff] at hkey
    exact hcache.recount p _ _ t.order hcache.listed (by omega)
      (fun _ => Nat.succ_pos _) (by rw [hkey])
  case h_2 hmissing =>
    split at hbget
    case h_1 b hf =>
      cases hbget
      have hfree := List.find?_some hf
      rw [decide_eq_true_iff] at hfree
      refine hcache.recycle p hfree fun c hkey => ?_
      exact absurd (decide_eq_true hkey) (List.find?_eq_none.mp hmissing c (hcache.listed c))
    case h_2 => cases hbget

/-! ## `log_write` -/

omit [DecidableEq P] in
theorem Cached.pin (hcache : Cached area t) {p : P}
    (hlock : (t.buf b).lock = some p) (hcom : t.committer = none)
    (hnew : (t.buf b).key.2 ∉ t.lh) (hhome : ¬ area.Contains (t.buf b).key.2)
    (hroom : t.lh.length + 1 < area.size) : Cached area (pin t b) := by
  obtain ⟨_, hval, hdev⟩ := hcache.locker b p hlock
  have hbuf : ∀ c, (BufferCache.pin t b).buf c = { t.buf c with
      refcnt := if c = b then (t.buf b).refcnt + 1 else (t.buf c).refcnt } := by
    intro c
    by_cases hc : c = b
    · subst hc
      simp [BufferCache.pin, setBuf]
    · simp [BufferCache.pin, setBuf, hc]
  have hbefore : pinned t = t.lh := by simp [pinned, hcom]
  have hafter : pinned (BufferCache.pin t b) = t.lh ++ [(t.buf b).key.2] := by
    simp [pinned, BufferCache.pin, setBuf, hcom]
  have hwritten : written (BufferCache.pin t b) = 0 := by
    simp [written, BufferCache.pin, setBuf, hcom]
  refine ⟨hcache.listed, ?_, ?_, ?_, ?_, ?_, ?_, ?_, ?_, ?_, ?_, ?_, ?_, ?_, ?_, hcache.quiet⟩
  · intro c d
    simp only [hbuf]
    exact hcache.distinct c d
  · intro c
    have hcnt := hcache.counted c
    rw [hbefore] at hcnt
    change _ = (∑ q, t.refs q c) + _
    rw [hafter, hbuf c]
    by_cases hc : c = b
    · subst hc
      have hkey : (t.buf c).key = (ROOTDEV, (t.buf c).key.2) := Prod.ext hdev rfl
      rw [hkey, pins_eq_zero.mpr hnew] at hcnt
      simp only [if_true]
      rw [hkey, pins_eq_one (by simp), hcnt]
    · simp only [hc, if_false]
      rw [hcnt]
      congr 1
      refine pins_congr fun ho => ?_
      simp only [mem_append, mem_singleton]
      refine ⟨.inl, fun hmem => hmem.resolve_right fun hsame => hc ?_⟩
      exact hcache.distinct c b (Prod.ext (by rw [ho, hdev]) hsame) ho
  · intro c
    simp only [hbuf]
    exact hcache.locker c
  · intro c
    simp only [hbuf]
    exact hcache.mounted c
  · intro c
    simp only [hbuf]
    exact hcache.dirty c
  · intro c
    simp only [hbuf]
    exact hcache.clean c
  · exact nodup_append.mpr ⟨hcache.nodup, nodup_singleton _,
      fun first hfst second hsnd => by
        rintro rfl
        rw [mem_singleton] at hsnd
        exact hnew (hsnd ▸ hfst)⟩
  · intro blockno hmem
    rcases mem_append.mp hmem with hmem | hmem
    · exact hcache.home blockno hmem
    · rw [mem_singleton.mp hmem]
      exact hhome
  · change (t.lh ++ [_]).length < area.size
    rw [length_append]
    exact hroom
  · intro blockno hpinned
    simp only [hbuf]
    rw [hafter] at hpinned
    rcases mem_append.mp hpinned with hmem | hmem
    · exact hcache.present blockno (hbefore ▸ hmem)
    · rw [mem_singleton.mp hmem]
      exact ⟨b, Prod.ext hdev rfl, hval⟩
  · intro c
    simp only [hbuf]
    exact hcache.current c
  · intro c
    simp only [hbuf]
    exact hcache.logBlock c
  · intro blockno hout hunpinned
    rw [hafter] at hunpinned
    refine hcache.stored blockno hout fun hmem => hunpinned ?_
    exact mem_append_left _ (hbefore ▸ hmem)
  · intro index blockno hi
    rw [hwritten] at hi
    exact absurd hi (Nat.not_lt_zero index)

omit [DecidableEq P] in
theorem Cached.noteLogged (hcache : Cached area t) {p : P}
    (hlock : (t.buf b).lock = some p) (hcom : t.committer = none)
    (hlog : (t.buf b).key.2 ∈ t.lh) : Cached area (noteLogged t b) := by
  obtain ⟨_, _, hdev⟩ := hcache.locker b p hlock
  have hpinned : pinned t = t.lh := by simp [pinned, hcom]
  have hdirty : ∀ c, (BufferCache.noteLogged t b).dirty c = true → t.dirty c = true := by
    intro c
    by_cases hc : c = b
    · subst hc
      simp [BufferCache.noteLogged]
    · simp [BufferCache.noteLogged, hc]
  refine ⟨hcache.listed, hcache.distinct, hcache.counted, hcache.locker,
    hcache.mounted, fun c hc => hcache.dirty c (hdirty c hc), ?_, hcache.nodup,
    hcache.home, hcache.room, hcache.present, ?_, hcache.logBlock, ?_, ?_,
    hcache.quiet⟩
  · intro c q stage hstage
    change t.committer = _ at hstage
    rw [hcom] at hstage
    cases hstage
  · intro c hkey hval hclean hhome
    change (t.buf c).key.1 = ROOTDEV at hkey
    change (t.buf c).data = update t.contents (t.buf b).key.2 (t.buf b).data (t.buf c).key.2
    by_cases hc : c = b
    · subst hc
      simp
    · have ho : (t.buf c).key.2 ≠ (t.buf b).key.2 := fun hsame =>
        hc (hcache.distinct c b (Prod.ext (by rw [hkey, hdev]) hsame) hkey)
      rw [update_of_ne ho]
      refine hcache.current c hkey hval ?_ hhome
      simpa [BufferCache.noteLogged, hc] using hclean
  · intro blockno hhome hunpinned
    change t.disk blockno = update t.contents (t.buf b).key.2 (t.buf b).data blockno
    rw [update_of_ne]
    · exact hcache.stored blockno hhome hunpinned
    · rintro rfl
      exact hunpinned (hpinned ▸ hlog)
  · intro index blockno hi
    have hwritten : written (BufferCache.noteLogged t b) = 0 := by
      simp [written, BufferCache.noteLogged, hcom]
    rw [hwritten] at hi
    exact absurd hi (Nat.not_lt_zero index)

omit [DecidableEq P] in
theorem Cached.logWrite (hcache : Cached area t) {p : P} {after : Cache N P D}
    (hlock : (t.buf b).lock = some p) (hhome : ¬ area.Contains (t.buf b).key.2)
    (hlog : logWrite area t b = .ok after) : Cached area after := by
  unfold BufferCache.logWrite at hlog
  split at hlog
  case isTrue => cases hlog
  case isFalse hroom =>
    split at hlog
    case isTrue => cases hlog
    case isFalse hin =>
      have hcom : t.committer = none := by
        by_contra hcommitting
        have hzero := hcache.quiet hcommitting
        omega
      split at hlog
      case isTrue hlogged =>
        cases hlog
        exact hcache.noteLogged hlock hcom hlogged
      case isFalse hnew =>
        cases hlog
        have hpin := hcache.pin hlock hcom hnew hhome (by omega)
        have hbuf : ((BufferCache.pin t b).buf b).lock = some p ∧
            ((BufferCache.pin t b).buf b).key = (t.buf b).key := by
          simp [BufferCache.pin, setBuf, hlock]
        refine hpin.noteLogged hbuf.1 hcom ?_
        rw [hbuf.2]
        exact mem_append_right _ (mem_singleton_self _)

/-! ## `commit` -/

omit [DecidableEq P] in
theorem Cached.held_current (hcache : Cached area t) {p : P} {stage : Stage}
    (hcom : t.committer = some (p, stage))
    (hholds : Holds t p b blockno) (hhome : ¬ area.Contains blockno) :
    (t.buf b).data = t.contents blockno := by
  obtain ⟨hlock, hkey⟩ := hholds
  obtain ⟨_, hval, hdev⟩ := hcache.locker b p hlock
  have hdata := hcache.current b hdev hval
    (hcache.clean b p stage hcom hlock) (by rw [hkey]; exact hhome)
  rw [hdata, hkey]

omit [DecidableEq P] in
theorem Cached.held_log (hcache : Cached area t) {p : P}
    (hholds : Holds t p b blockno) (hlog : area.Contains blockno) :
    (t.buf b).data = t.disk blockno := by
  obtain ⟨hlock, hkey⟩ := hholds
  obtain ⟨_, hval, hdev⟩ := hcache.locker b p hlock
  have hdata := hcache.logBlock b hdev hval (by rw [hkey]; exact hlog)
  rw [hdata, hkey]

omit [DecidableEq P] in
/-- One iteration of `install_trans`: the disk gets the logged contents, the data
of the buffer stay the same, and the buffer is unpinned. -/
theorem Cached.install (hcache : Cached area t) {p : P}
    {first second : Fin N} (hcom : t.committer = some (p, .installTrans tail))
    (he : t.lh[tail]? = some blockno) (hfst : Holds t p first (area.start + tail + 1))
    (hsnd : Holds t p second blockno) :
    Cached area (setStage (bunpin (bwrite t second (t.buf first).data) second) p
      (.installTrans (tail + 1))) := by
  obtain ⟨htail, hget⟩ := List.getElem?_eq_some_iff.mp he
  have hhome := hcache.home blockno (hget ▸ getElem_mem htail)
  have hwritten : written t = t.lh.length := by simp [written, hcom]
  have hlog : (t.buf first).data = t.contents blockno := by
    rw [hcache.held_log hfst (hcache.contains he)]
    exact hcache.copied tail blockno (by omega) he
  have hsame : (t.buf first).data = (t.buf second).data := by
    rw [hlog, hcache.held_current hcom hsnd hhome]
  obtain ⟨hlock, hkey⟩ := hsnd
  have hbefore : pinned t = blockno :: t.lh.drop (tail + 1) := by
    simp only [pinned, hcom]
    rw [drop_eq_getElem_cons htail, hget]
  have hfresh : blockno ∉ t.lh.drop (tail + 1) := by
    have hnd := hcache.nodup.sublist (drop_sublist tail t.lh)
    rw [drop_eq_getElem_cons htail, hget] at hnd
    exact (nodup_cons.mp hnd).1
  generalize hafter : setStage (bunpin (bwrite t second (t.buf first).data) second)
    p (.installTrans (tail + 1)) = after
  have hbuf : ∀ c, after.buf c = { t.buf c with
      refcnt := if c = second then (t.buf second).refcnt - 1
        else (t.buf c).refcnt } := by
    intro c
    rw [← hafter]
    by_cases hc : c = second
    · subst hc
      simp [setStage, bunpin, bwrite, setBuf, hsame]
    · simp [setStage, bunpin, bwrite, setBuf, hc]
  have hdisk : after.disk = update t.disk blockno (t.contents blockno) := by
    rw [← hafter, ← hlog]
    change update t.disk (t.buf second).key.2 _ = _
    rw [hkey]
  have hpinned : pinned after = t.lh.drop (tail + 1) := by
    rw [← hafter]
    rfl
  have hcopies : written after = t.lh.length := by
    rw [← hafter]
    rfl
  have hlh : after.lh = t.lh := by rw [← hafter]; rfl
  have hrefs : after.refs = t.refs := by rw [← hafter]; rfl
  have hdirty : after.dirty = t.dirty := by rw [← hafter]; rfl
  have hcontents : after.contents = t.contents := by rw [← hafter]; rfl
  refine ⟨?_, ?_, ?_, ?_, ?_, ?_, ?_, hlh ▸ hcache.nodup, hlh ▸ hcache.home,
    hlh ▸ hcache.room, ?_, ?_, ?_, ?_, ?_, ?_⟩
  · rw [← hafter]
    exact hcache.listed
  · intro c d
    simp only [hbuf]
    exact hcache.distinct c d
  · intro c
    have hcnt := hcache.counted c
    rw [hbefore] at hcnt
    rw [hbuf c, hrefs, hpinned]
    by_cases hc : c = second
    · subst hc
      rw [hkey, pins_eq_one (mem_cons_self)] at hcnt
      simp only [if_true]
      rw [hkey, pins_eq_zero.mpr hfresh]
      omega
    · simp only [hc, if_false]
      rw [hcnt]
      congr 1
      refine pins_congr fun hdev => ?_
      have ho : (t.buf c).key.2 ≠ blockno := fun heq =>
        hc (hcache.distinct c second (by rw [hkey, ← heq, ← hdev]) hdev)
      simp [ho]
  · intro c
    simp only [hbuf, hrefs]
    exact hcache.locker c
  · intro c
    simp only [hbuf, hrefs]
    exact hcache.mounted c
  · intro c
    simp only [hbuf, hdirty]
    exact hcache.dirty c
  · intro c q stage hstage
    simp only [hbuf, hdirty]
    rw [← hafter] at hstage
    cases hstage
    exact hcache.clean c p _ hcom
  · intro other ho
    simp only [hbuf]
    rw [hpinned] at ho
    exact hcache.present other (hbefore ▸ mem_cons_of_mem _ ho)
  · intro c
    simp only [hbuf, hdirty, hcontents]
    exact hcache.current c
  · intro c hdev hval hcontains
    simp only [hbuf] at hdev hval hcontains ⊢
    rw [hdisk, update_of_ne]
    · exact hcache.logBlock c hdev hval hcontains
    · intro heq
      exact hhome (heq ▸ hcontains)
  · intro other hout hunpinned
    rw [hpinned] at hunpinned
    rw [hdisk, hcontents]
    by_cases ho : other = blockno
    · subst ho
      simp
    · rw [update_of_ne ho]
      refine hcache.stored other hout ?_
      rw [hbefore, mem_cons, not_or]
      exact ⟨ho, hunpinned⟩
  · intro index other hi hlisted
    rw [hcopies] at hi
    rw [hlh] at hlisted
    rw [hdisk, hcontents, update_of_ne]
    · exact hcache.copied index other (hwritten ▸ hi) hlisted
    · intro heq
      exact hhome (heq ▸ hcache.contains hlisted)
  · intro _
    rw [← hafter]
    exact hcache.quiet (by simp [hcom])

omit [DecidableEq P] in
theorem Cached.next (hcache : Cached area t) {p : P} {stage : Stage}
    (hcom : t.committer = some (p, stage)) (later : Stage)
    (hpinned : pinned (setStage t p later) = pinned t)
    (hcopied : ∀ index blockno, index < written (setStage t p later) → t.lh[index]? = some blockno →
      t.disk (area.start + index + 1) = t.contents blockno) : Cached area (setStage t p later) := by
  refine hcache.stage (some (p, later)) t.outstanding hpinned ?_ hcopied
    (fun _ => hcache.quiet (by simp [hcom]))
  intro b q other ho hlock
  cases ho
  exact hcache.clean b p stage hcom hlock

theorem commitStep_cached {head : List ℕ → D → D} (hcache : Cached area t)
    {p : P} {stage : Stage} (hcom : t.committer = some (p, stage))
    {first second : Fin N} {after : Cache N P D}
    (hstep : commitStep area head t p first second stage = some after) : Cached area after := by
  have hstart := contains_head area
  cases stage with
  | writeLog tail =>
    have hwritten : written t = tail := by simp [written, hcom]
    have hpinned : pinned t = t.lh := by simp [pinned, hcom]
    simp only [commitStep] at hstep
    split at hstep
    case h_1 blockno he =>
      split at hstep
      case isTrue hholds =>
        cases hstep
        obtain ⟨hfst, hsnd⟩ := hholds
        have hlog := hcache.contains he
        have hhome := hcache.home blockno (mem_of_getElem? he)
        have hbwrite := hcache.bwriteLog hfst hlog (t.buf second).data (fun index hi => by omega)
        refine hbwrite.next hcom _ (by simp [pinned, setStage, bwrite, setBuf, hcom]) ?_
        intro index other hi hlisted
        change index < tail + 1 at hi
        by_cases hlast : index = tail
        · subst hlast
          rw [show (bwrite t first (t.buf second).data).lh = t.lh from rfl, he] at hlisted
          cases hlisted
          change update t.disk (t.buf first).key.2 _ _ = _
          rw [hfst.2, update_self]
          exact hcache.held_current hcom hsnd hhome
        · refine hbwrite.copied index other ?_ hlisted
          change index < written t
          omega
      case isFalse => cases hstep
    case h_2 hend =>
      cases hstep
      refine hcache.next hcom _ (by rw [hpinned]; rfl) ?_
      intro index other hi hlisted
      rw [List.getElem?_eq_none_iff] at hend
      change index < t.lh.length at hi
      exact hcache.copied index other (by omega) hlisted
  | writeHead =>
    simp only [commitStep] at hstep
    split at hstep
    case isTrue hholds =>
      cases hstep
      have hbwrite := hcache.bwriteLog hholds hstart
        (head t.lh (t.buf first).data) (fun index _ => by omega)
      refine hbwrite.next hcom _ (by simp [pinned, setStage, bwrite, setBuf, hcom]) ?_
      intro index other hi hlisted
      refine hbwrite.copied index other ?_ hlisted
      simpa [written, setStage, bwrite, setBuf, hcom] using hi
    case isFalse => cases hstep
  | installTrans tail =>
    simp only [commitStep] at hstep
    split at hstep
    case h_1 blockno he =>
      split at hstep
      case isTrue hholds =>
        cases hstep
        exact hcache.install hcom he hholds.1 hholds.2
      case isFalse => cases hstep
    case h_2 hend =>
      cases hstep
      rw [List.getElem?_eq_none_iff] at hend
      exact hcache.clear (by simp [pinned, hcom, hend]) hcom
  | writeCleared =>
    simp only [commitStep] at hstep
    split at hstep
    case isTrue hholds =>
      cases hstep
      have hbwrite := hcache.bwriteLog hholds hstart
        (head t.lh (t.buf first).data) (fun index _ => by omega)
      refine hbwrite.next hcom _ (by simp [pinned, setStage, bwrite, setBuf, hcom]) ?_
      intro index other hi
      exact absurd hi (Nat.not_lt_zero index)
    case isFalse => cases hstep
  | finish =>
    cases hstep
    refine hcache.stage none t.outstanding ?_ ?_ ?_ ?_
    · simp [pinned, hcom]
    · intro _ _ _ hnone
      cases hnone
    · intro index other hi
      exact absurd hi (Nat.not_lt_zero index)
    · intro hnone
      exact absurd rfl hnone

end

end Xv6.LogPinning
