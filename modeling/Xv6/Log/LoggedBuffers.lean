import Xv6.Log.LogPinning

/-!
# Every run of the buffer cache

The invariant holds in every run of callers that log what they change.  What
follows for the callers: the buffer of a logged block is not recycled before it is
installed, the log receives the logged contents, and so does a reader.
-/

namespace Xv6.LoggedBuffers

open BufferCache Interleaving LogPinning
open DiskLog (LogArea)

section
variable {N : ℕ} {P D : Type} [Fintype P] [DecidableEq P] {area : LogArea}
  {t : Cache N P D} {p : P} {b : Fin N}

omit [DecidableEq P] in
theorem acquire_cached (hcached : Cached area t) (hfree : (t.buf b).lock = none)
    (hheld : 0 < t.refs p b) : Cached area (acquire t p b) := by
  have hclean : t.dirty b = false := by
    cases hdirty : t.dirty b with
    | false => rfl
    | true => exact absurd hfree (hcached.dirty b hdirty).1
  have hsame : ∀ cache : Cache N P D, cache.dirty = t.dirty →
      { cache with dirty := Function.update t.dirty b false } = cache := by
    intro cache hcache
    rw [← hclean, Function.update_eq_self, ← hcache]
  unfold BufferCache.acquire
  dsimp only
  split
  case isTrue hval =>
    rw [← hsame (setBuf t b { t.buf b with lock := some p }) rfl]
    refine hcached.rewrite _ false t.disk rfl rfl id ?_ (by simp) (by simp) ?_ ?_
      (fun _ _ _ _ _ => rfl) (fun _ _ _ => rfl) fun _ _ => rfl
    · rintro q hq
      cases hq
      exact ⟨hheld, hval⟩
    · intro hdev _ _ hhome
      exact hcached.current b hdev hval hclean hhome
    · intro hdev _ hlog
      exact hcached.logBlock b hdev hval hlog
  case isFalse hinvalid =>
    rw [← hsame (setBuf t b { t.buf b with
      data := t.disk (t.buf b).key.2, valid := true, lock := some p }) rfl]
    refine hcached.rewrite _ false t.disk rfl rfl (fun _ => rfl) ?_ (by simp) (by simp)
      ?_ (fun _ _ _ => rfl) (fun _ _ _ _ _ => rfl) (fun _ _ _ => rfl) fun _ _ => rfl
    · rintro q hq
      cases hq
      exact ⟨hheld, rfl⟩
    · intro hdev _ _ hhome
      -- A block whose buffer is not valid is not pinned.
      refine hcached.stored _ hhome fun hpinned => ?_
      obtain ⟨c, hkey, hval⟩ := hcached.present _ hpinned
      have hsame := hcached.distinct c b (by rw [hkey, ← hdev]) (by rw [hkey])
      rw [hsame] at hval
      exact hinvalid hval

omit [Fintype P] in
theorem exec_commit {head : List ℕ → D → D} {first second : Fin N} {after : Cache N P D}
    (hexec : exec area head t (p, .commit first second) = some (.ok after)) :
    ∃ stage, t.committer = some (p, stage) ∧
      commitStep area head t p first second stage = some after := by
  simp only [exec] at hexec
  split at hexec
  case h_1 q stage hcom =>
    split at hexec
    case isTrue hself =>
      subst hself
      simp only [Option.map_eq_some_iff, Except.ok.injEq] at hexec
      obtain ⟨_, hstep, rfl⟩ := hexec
      exact ⟨stage, hcom, hstep⟩
    case isFalse => cases hexec
  case h_2 => cases hexec

theorem step_cached {head : List ℕ → D → D} {action : P × Action N D}
    {after : Cache N P D} (hcache : Cached area t) (hallow : Disciplined area t action)
    (hexec : exec area head t action = some (.ok after)) : Cached area after := by
  obtain ⟨p, action⟩ := action
  cases action with
  | bget blockno => exact hcache.bget (Option.some.inj hexec)
  | acquire b =>
    simp only [exec] at hexec
    split at hexec
    case isTrue hguard =>
      cases hexec
      exact acquire_cached hcache hguard.1 hguard.2
    case isFalse => cases hexec
  | modify b data =>
    simp only [exec] at hexec
    split at hexec
    case isTrue hguard =>
      cases hexec
      obtain ⟨hlock, hout⟩ := hguard
      obtain ⟨hheld, hval, _⟩ := hcache.locker b p hlock
      refine hcache.rewrite { t.buf b with data := data } true t.disk rfl rfl id ?_
        ?_ ?_ (by simp) (fun _ _ hlog => absurd hlog hallow)
        (fun _ _ _ _ _ => rfl) (fun _ _ _ => rfl) fun _ _ => rfl
      · intro q hq
        exact hcache.locker b q hq |>.imp_right And.left
      · intro _
        exact ⟨by simp [hlock], hallow⟩
      · intro q stage hcom hq
        change (t.buf b).lock = some q at hq
        rw [hlock] at hq
        cases hq
        simp [hcom] at hout
    case isFalse => cases hexec
  | logWrite b =>
    simp only [exec] at hexec
    split at hexec
    case isTrue hlock => exact hcache.logWrite hlock hallow (Option.some.inj hexec)
    case isFalse => cases hexec
  | release b =>
    simp only [exec] at hexec
    split at hexec
    case isTrue hlock =>
      cases hexec
      have hclean : t.dirty b = false := hallow
      have hchange := hcache.rewrite { t.buf b with lock := none } (t.dirty b) t.disk
        rfl rfl id (by simp) (by simp [hclean]) (by simp)
        (hcache.current b) (hcache.logBlock b)
        (fun _ _ _ _ _ => rfl) (fun _ _ _ => rfl) fun _ _ => rfl
      rw [Function.update_eq_self] at hchange
      exact hchange
    case isFalse => cases hexec
  | drop b =>
    simp only [exec] at hexec
    split at hexec
    case isTrue hguard =>
      cases hexec
      have hle := hcache.refs_le p b
      refine hcache.recount p _ _ _ ?_ (by omega)
        (fun hlock => absurd hlock hguard.2) (hcache.mounted b p hguard.1)
      intro c
      split
      · by_cases hc : c = b
        · simp [hc]
        · exact List.mem_cons_of_mem _ ((List.mem_erase_of_ne hc).mpr (hcache.listed c))
      · exact hcache.listed c
    case isFalse => cases hexec
  | beginOp =>
    simp only [exec] at hexec
    split at hexec
    case isTrue hguard =>
      cases hexec
      exact hcache.stage t.committer (t.outstanding + 1) rfl hcache.clean
        hcache.copied (fun hcommitting => absurd hguard.1 hcommitting)
    case isFalse => cases hexec
  | endOp =>
    simp only [exec] at hexec
    split at hexec
    case isTrue =>
      have hend := Option.some.inj hexec
      unfold endOp at hend
      dsimp only at hend
      split at hend
      · cases hend
      case isFalse hidle =>
        have hnone : t.committer = none := not_not.mp hidle
        split at hend
        case isTrue hzero =>
          cases hend
          refine hcache.stage _ _ ?_ ?_ ?_ (fun _ => hzero)
          · split <;> simp [pinned, hnone]
          · intro b q stage hcom hlock
            cases hcom
            exact hallow b hlock
          · intro index other hi
            refine absurd hi ?_
            split <;> simp [written]
        case isFalse =>
          cases hend
          exact hcache.stage t.committer _ rfl hcache.clean hcache.copied
            (fun hcommitting => absurd hnone hcommitting)
    case isFalse => cases hexec
  | commit first second =>
    obtain ⟨stage, hcom, hstep⟩ := exec_commit hexec
    exact commitStep_cached hcache hcom hstep

/-- The states of the cache in the runs of callers that log what they change. -/
abbrev Runs (area : LogArea) (head : List ℕ → D → D) (t : Cache N P D) : Prop :=
  Reachable (exec area head) (Disciplined area) Initial t

omit [DecidableEq P] in
theorem initial_cached (hinit : Initial t) : Cached area t := by
  have hpinned : pinned t = [] := by simp [pinned, hinit.committer, hinit.lh]
  refine ⟨hinit.order, hinit.distinct, ?_, ?_, ?_, ?_, ?_, ?_, ?_, ?_, ?_, ?_, ?_, ?_, ?_, ?_⟩
  · intro b
    rw [hpinned]
    simp [hinit.refcnt, hinit.refs, pins]
  · intro b p hlock
    simp [hinit.lock] at hlock
  · intro b p hrefs
    simp [hinit.refs] at hrefs
  · intro b hdirty
    simp [hinit.dirty] at hdirty
  · intro b p stage _ _
    exact hinit.dirty b
  · rw [hinit.lh]
    exact List.nodup_nil
  · simp [hinit.lh]
  · rw [hinit.lh]
    exact area.hasHeader
  · simp [hpinned]
  · intro b hdev hval _ _
    rw [hinit.contents]
    exact hinit.data b hdev hval
  · intro b hdev hval _
    exact hinit.data b hdev hval
  · intro blockno _ _
    rw [hinit.contents]
  · simp [hinit.lh]
  · intro hcommitting
    exact absurd hinit.committer hcommitting

theorem runs_cached {head : List ℕ → D → D} (hruns : Runs area head t) : Cached area t :=
  @Reachable.invariant _ _ _ _ _ _ (Cached area) t hruns (fun _ hinit => initial_cached hinit)
    (fun _ _ _ hcache hallow hexec => step_cached hcache hallow hexec)

/-- After `install_trans` no block is left in the header. -/
def Cleared (t : Cache N P D) : Prop :=
  ∀ p stage, t.committer = some (p, stage) → stage = .writeCleared ∨ stage = .finish → t.lh = []

omit [Fintype P] in
theorem commitStep_cleared {head : List ℕ → D → D} {p : P} {stage : Stage}
    (hcom : t.committer = some (p, stage)) (hcleared : Cleared t)
    {first second : Fin N} {after : Cache N P D}
    (hstep : commitStep area head t p first second stage = some after) : Cleared after := by
  intro q later hlater hlast
  cases stage with
  | writeLog tail =>
    simp only [commitStep] at hstep
    split at hstep
    · split at hstep <;> cases hstep
      cases hlater
      simp at hlast
    · cases hstep
      cases hlater
      simp at hlast
  | writeHead =>
    simp only [commitStep] at hstep
    split at hstep <;> cases hstep
    cases hlater
    simp at hlast
  | installTrans tail =>
    simp only [commitStep] at hstep
    split at hstep
    · split at hstep <;> cases hstep
      cases hlater
      simp at hlast
    · cases hstep
      rfl
  | writeCleared =>
    simp only [commitStep] at hstep
    split at hstep <;> cases hstep
    exact hcleared p _ hcom (.inl rfl)
  | finish =>
    cases hstep
    cases hlater

omit [Fintype P] [DecidableEq P] in
theorem setBuf_key (t : Cache N P D) (b c : Fin N) {buf : Buf P D}
    (hkey : buf.key = (t.buf b).key) : ((setBuf t b buf).buf c).key = (t.buf c).key := by
  by_cases hc : c = b
  · subst hc
    simp [setBuf, hkey]
  · simp [setBuf, hc]

omit [Fintype P] in
theorem commitStep_key {head : List ℕ → D → D} {p : P} {stage : Stage}
    {first second : Fin N} {after : Cache N P D}
    (hstep : commitStep area head t p first second stage = some after)
    (c : Fin N) : (after.buf c).key = (t.buf c).key := by
  cases stage with
  | writeLog tail =>
    simp only [commitStep] at hstep
    split at hstep
    · split at hstep <;> cases hstep
      exact setBuf_key t first c rfl
    · cases hstep
      rfl
  | writeHead | writeCleared =>
    simp only [commitStep] at hstep
    split at hstep <;> cases hstep
    exact setBuf_key t first c rfl
  | installTrans tail =>
    simp only [commitStep] at hstep
    split at hstep
    · split at hstep <;> cases hstep
      calc
        _ = ((bwrite t second (t.buf first).data).buf c).key := setBuf_key _ second c (by rfl)
        _ = _ := setBuf_key t second c (by rfl)
    · cases hstep
      rfl
  | finish =>
    cases hstep
    rfl

/-- What the actions outside `commit` do to the blocks of the buffers in use and to
the header: only `log_write`, in an operation, adds to it. -/
structure Frame (t after : Cache N P D) : Prop where
  key : ∀ c, (t.buf c).refcnt ≠ 0 → (after.buf c).key = (t.buf c).key
  header : (after.committer = t.committer ∧ (after.lh = t.lh ∨ 1 ≤ t.outstanding)) ∨
    ∃ p, after.lh = t.lh ∧ after.committer =
      some (p, if 0 < t.lh.length then .writeLog 0 else .finish)

omit [Fintype P] [DecidableEq P] in
theorem Frame.setBuf {after : Cache N P D} {buf : Buf P D}
    (hbuf : after.buf = (setBuf t b buf).buf) (hkey : buf.key = (t.buf b).key)
    (hcom : after.committer = t.committer)
    (hlh : after.lh = t.lh ∨ 1 ≤ t.outstanding) : Frame t after :=
  ⟨fun c _ => by rw [hbuf]; exact setBuf_key t b c hkey, .inl ⟨hcom, hlh⟩⟩

omit [Fintype P] in
theorem bget_frame {blockno : ℕ} {after : Cache N P D}
    (hbget : bget t p blockno = .ok after) : Frame t after := by
  unfold bget at hbget
  split at hbget
  · cases hbget
    exact .setBuf (by rfl) (by rfl) rfl (.inl rfl)
  · split at hbget
    case h_1 b hf =>
      cases hbget
      have hfree := List.find?_some hf
      rw [decide_eq_true_iff] at hfree
      refine ⟨fun c hused => ?_, .inl ⟨rfl, .inl rfl⟩⟩
      have hc : c ≠ b := by
        rintro rfl
        exact hused hfree
      simp [recycle, setRefs, BufferCache.setBuf, hc]
    case h_2 => cases hbget

omit [Fintype P] [DecidableEq P] in
theorem logWrite_frame {after : Cache N P D}
    (hlog : logWrite area t b = .ok after) : Frame t after := by
  unfold logWrite at hlog
  split at hlog
  · cases hlog
  · split at hlog
    · cases hlog
    case isFalse hin =>
      split at hlog <;> cases hlog
      · exact ⟨fun _ _ => rfl, .inl ⟨rfl, .inl rfl⟩⟩
      · exact .setBuf (by rfl) (by rfl) rfl (.inr (not_lt.mp hin))

omit [Fintype P] [DecidableEq P] in
theorem endOp_frame {after : Cache N P D} (hend : endOp t p = .ok after) : Frame t after := by
  unfold endOp at hend
  dsimp only at hend
  split at hend
  · cases hend
  · split at hend <;> cases hend
    · exact ⟨fun _ _ => rfl, .inr ⟨p, rfl, rfl⟩⟩
    · exact ⟨fun _ _ => rfl, .inl ⟨rfl, .inl rfl⟩⟩

omit [Fintype P] in
theorem exec_frame {head : List ℕ → D → D} {action : Action N D} {after : Cache N P D}
    (hexec : exec area head t (p, action) = some (.ok after)) :
    Frame t after ∨ ∃ first second, action = .commit first second := by
  cases action with
  | bget blockno => exact .inl (bget_frame (Option.some.inj hexec))
  | acquire b =>
    simp only [exec] at hexec
    split at hexec <;> cases hexec
    unfold BufferCache.acquire
    dsimp only
    split <;> exact .inl (.setBuf (by rfl) (by rfl) rfl (.inl rfl))
  | modify b data | release b | drop b =>
    simp only [exec] at hexec
    split at hexec <;> cases hexec
    exact .inl (.setBuf (by rfl) (by rfl) rfl (.inl rfl))
  | logWrite b =>
    simp only [exec] at hexec
    split at hexec
    case isTrue => exact .inl (logWrite_frame (Option.some.inj hexec))
    case isFalse => cases hexec
  | beginOp =>
    simp only [exec] at hexec
    split at hexec <;> cases hexec
    exact .inl ⟨fun _ _ => rfl, .inl ⟨rfl, .inl rfl⟩⟩
  | endOp =>
    simp only [exec] at hexec
    split at hexec
    case isTrue => exact .inl (endOp_frame (Option.some.inj hexec))
    case isFalse => cases hexec
  | commit first second => exact .inr ⟨first, second, rfl⟩

theorem step_cleared {head : List ℕ → D → D} {action : P × Action N D}
    {after : Cache N P D} (hcache : Cached area t) (hcleared : Cleared t)
    (hexec : exec area head t action = some (.ok after)) : Cleared after := by
  obtain ⟨p, action⟩ := action
  rcases exec_frame hexec with hframe | ⟨first, second, rfl⟩
  · intro q stage hstage hlast
    rcases hframe.header with ⟨hsame, hlh⟩ | ⟨q, hlh, hbegun⟩
    · rw [hsame] at hstage
      have hnil := hcleared q stage hstage hlast
      rcases hlh with hlh | hin
      · rw [hlh, hnil]
      · have hquiet := hcache.quiet (by simp [hstage])
        omega
    · rw [hbegun] at hstage
      cases hstage
      split at hlast
      case isTrue => simp at hlast
      case isFalse hnil =>
        rw [hlh]
        exact List.length_eq_zero_iff.mp (Nat.le_zero.mp (not_lt.mp hnil))
  · obtain ⟨stage, hcom, hstep⟩ := exec_commit hexec
    exact commitStep_cleared hcom hcleared hstep

theorem runs_cleared {head : List ℕ → D → D} (hruns : Runs area head t) : Cleared t := by
  have hboth := @Reachable.invariant _ _ _ _ _ _ (fun t => Cached area t ∧ Cleared t) t hruns ?_ ?_
  · exact hboth.2
  · intro t hinit
    refine ⟨initial_cached hinit, fun p stage hstage => ?_⟩
    rw [hinit.committer] at hstage
    cases hstage
  · intro t action after hinv hallow hexec
    exact ⟨step_cached hinv.1 hallow hexec, step_cleared hinv.1 hinv.2 hexec⟩

omit [Fintype P] in
theorem exec_key {head : List ℕ → D → D} {action : P × Action N D}
    {after : Cache N P D} (hexec : exec area head t action = some (.ok after))
    {c : Fin N} (hused : (t.buf c).refcnt ≠ 0) : (after.buf c).key = (t.buf c).key := by
  obtain ⟨p, action⟩ := action
  rcases exec_frame hexec with hframe | ⟨first, second, rfl⟩
  · exact hframe.key c hused
  · obtain ⟨_, _, hstep⟩ := exec_commit hexec
    exact commitStep_key hstep c

/-- In every run of callers that log what they change: the blocks of the header are
distinct; as long as one of them is not installed it has exactly one buffer, which
is valid, has the logged contents unless its holder is changing them, has one
reference beside those of its holders and is not recycled; after `install_trans`
no pin is left; the log holds the logged contents of every block that `write_log`
has copied; and `bread` returns the logged contents. -/
theorem logged_buffers_stay_cached (area : LogArea) (head : List ℕ → D → D)
    (t : Cache N P D) (hruns : Runs area head t) :
    t.lh.Nodup ∧
    (∀ blockno ∈ pinned t, ∃ b, (t.buf b).key = (ROOTDEV, blockno) ∧
      (∀ c, (t.buf c).key = (ROOTDEV, blockno) → c = b) ∧
      (t.buf b).valid = true ∧
      (t.dirty b = false → (t.buf b).data = t.contents blockno) ∧
      (t.buf b).refcnt = 1 + ∑ p, t.refs p b ∧
      ∀ action after, exec area head t action = some (.ok after) →
        (after.buf b).key = (ROOTDEV, blockno)) ∧
    ((∀ p tail, t.committer ≠ some (p, .installTrans tail)) → pinned t = t.lh) ∧
    (∀ p stage, t.committer = some (p, stage) → stage = .writeCleared ∨ stage = .finish →
      t.lh = [] ∧ ∀ b, (t.buf b).refcnt = ∑ p, t.refs p b) ∧
    (∀ index blockno, index < written t → t.lh[index]? = some blockno →
      t.disk (area.start + index + 1) = t.contents blockno) ∧
    ∀ p b after, exec area head t (p, .acquire b) = some (.ok after) →
      ¬ area.Contains (t.buf b).key.2 → (after.buf b).valid = true ∧
        (after.buf b).data = t.contents (t.buf b).key.2 := by
  have hcached := runs_cached hruns
  refine ⟨hcached.nodup, ?_, ?_, ?_, hcached.copied, ?_⟩
  · intro blockno hpinned
    obtain ⟨b, hkey, hvalid⟩ := hcached.present blockno hpinned
    have hcounted := hcached.counted b
    rw [hkey, pins_eq_one hpinned] at hcounted
    have hhome : ¬ area.Contains blockno := by
      refine hcached.home blockno ?_
      unfold pinned at hpinned
      split at hpinned
      · exact List.mem_of_mem_drop hpinned
      · exact hpinned
    refine ⟨b, hkey, ?_, hvalid, ?_, by omega, ?_⟩
    · intro c hc
      exact hcached.distinct c b (by rw [hc, hkey]) (by rw [hc])
    · intro hclean
      have hdata := hcached.current b (by rw [hkey]) hvalid hclean (by rw [hkey]; exact hhome)
      rw [hdata, hkey]
    · intro action after hexec
      rw [exec_key hexec (by omega), hkey]
  · intro hcommitter
    unfold pinned
    split
    case h_1 p tail hinstall => exact absurd hinstall (hcommitter p tail)
    case h_2 => rfl
  · intro p stage hcommitter hlast
    have hempty := runs_cleared hruns p stage hcommitter hlast
    have hnone : pinned t = [] := by
      unfold pinned
      split <;> simp [hempty]
    refine ⟨hempty, fun b => ?_⟩
    rw [hcached.counted b, hnone]
    simp [pins]
  · intro p b after hexec hhome
    have hallowed : Disciplined area t (p, .acquire b) := trivial
    have hafter := step_cached hcached hallowed hexec
    simp only [exec] at hexec
    split at hexec
    case isTrue hguard =>
      cases hexec
      have hlock : ((acquire t p b).buf b).lock = some p ∧
          ((acquire t p b).buf b).key = (t.buf b).key := by
        unfold acquire
        dsimp only
        split <;> simp [setBuf]
      have hsame : (acquire t p b).dirty = t.dirty ∧ (acquire t p b).contents = t.contents := by
        unfold acquire
        dsimp only
        split <;> exact ⟨rfl, rfl⟩
      obtain ⟨_, hvalid, hdev⟩ := hafter.locker b p hlock.1
      have hclean : t.dirty b = false := by
        cases hdirty : t.dirty b with
        | false => rfl
        | true => exact absurd hguard.1 (hcached.dirty b hdirty).1
      have hdata := hafter.current b hdev hvalid (by rw [hsame.1, hclean])
        (by rw [hlock.2]; exact hhome)
      rw [hsame.2, hlock.2] at hdata
      exact ⟨hvalid, hdata⟩
    case isFalse => cases hexec

end

/-! ## A commit -/

instance (area : LogArea) (blockno : ℕ) : Decidable (area.Contains blockno) :=
  inferInstanceAs (Decidable (_ ∧ _))

instance {N : ℕ} {P D : Type} [DecidableEq P] (area : LogArea) (t : Cache N P D) :
    DecidablePred (Disciplined area t)
  | (_, .bget _) => inferInstanceAs (Decidable True)
  | (_, .acquire _) => inferInstanceAs (Decidable True)
  | (_, .modify _ _) => inferInstanceAs (Decidable (¬ _))
  | (_, .logWrite _) => inferInstanceAs (Decidable (¬ _))
  | (_, .release _) => inferInstanceAs (Decidable (_ = _))
  | (_, .drop _) => inferInstanceAs (Decidable True)
  | (_, .beginOp) => inferInstanceAs (Decidable True)
  | (p, .endOp) => inferInstanceAs (Decidable (∀ b, (t.buf b).lock = some p → t.dirty b = false))
  | (_, .commit _ _) => inferInstanceAs (Decidable True)

/-- Three buffers; the header is block 2 and the log blocks are 3 and 4. -/
def emptyCache : Cache 3 Unit ℕ where
  disk _ := 0
  buf _ := ⟨(0, 0), false, 0, 0, none⟩
  order := [0, 1, 2]
  outstanding := 0
  lh := []
  committer := none
  refs _ _ := 0
  dirty _ := false
  contents _ := 0

theorem emptyCache_initial : Initial emptyCache :=
  ⟨by decide, by decide, fun _ => rfl, fun _ => rfl, by decide, rfl, rfl,
    fun _ _ => rfl, fun _ => rfl, rfl⟩

/-- Block 10 is changed to 7, logged, and copied to the log. -/
theorem logged_buffers_stay_cached_commit :
    ∃ t : Cache 3 Unit ℕ, Runs ⟨2, 3, by decide⟩ (fun _ data => data) t ∧
      t.lh = [10] ∧ written t = 1 ∧ t.disk 3 = t.contents 10 ∧
      t.contents 10 = 7 := by
  obtain ⟨t, hruns, htest⟩ := @exists_reachable (Cache 3 Unit ℕ)
    (Unit × Action 3 ℕ) Panic (exec ⟨2, 3, by decide⟩ (fun _ data => data))
    (Disciplined ⟨2, 3, by decide⟩) Initial
    (fun t action => decide (Disciplined ⟨2, 3, by decide⟩ t action))
    (fun t => decide (t.lh = [10] ∧ written t = 1 ∧ t.contents 10 = 7)) emptyCache
    [((), .beginOp), ((), .bget 10), ((), .acquire 2), ((), .modify 2 7),
      ((), .logWrite 2), ((), .release 2), ((), .drop 2), ((), .endOp),
      ((), .bget 3), ((), .acquire 1), ((), .bget 10), ((), .acquire 2),
      ((), .commit 1 2)]
    emptyCache_initial (fun _ _ hcheck => of_decide_eq_true hcheck)
    (by decide +kernel)
  obtain ⟨hlh, hwritten, hseven⟩ := of_decide_eq_true htest
  refine ⟨t, hruns, hlh, hwritten, ?_, hseven⟩
  exact (logged_buffers_stay_cached ⟨2, 3, by decide⟩ _ t hruns).2.2.2.2.1 0 10
    (by rw [hwritten]; decide) (by rw [hlh]; rfl)

end Xv6.LoggedBuffers
