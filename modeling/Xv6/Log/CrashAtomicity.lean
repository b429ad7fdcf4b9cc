import Xv6.Log.CrashRecovery

/-!
# Runs of transactions, cut by a crash

The per-write facts of `CrashRecovery` are put together along the order in
which `commit` and `recover_from_log` issue their writes.  A cut of a commit
leaves the disk replayable, to the old contents before the commit write and to
the new ones from then on; a cut of a recovery leaves it replayable to the same
contents; a complete recovery installs them.
-/

namespace Xv6.CrashAtomicity

open LittleEndian WriteSequence DiskLog CrashRecovery Function List

variable {transaction : Transaction} {area : LogArea} {disk homes : Disk}
variable {state : LogState} {header : LogHeader}

def Recoverable (area : LogArea) (disk homes : Disk) : Prop :=
  ∃ transaction, ValidTransaction area transaction ∧ Replayable area disk transaction homes

theorem validTransaction_nil (area : LogArea) : ValidTransaction area [] :=
  ⟨by simp, by simp, by simp⟩

theorem recoverable_of_replayable_nil (hrepl : Replayable area disk [] homes) :
    Recoverable area disk homes :=
  ⟨[], validTransaction_nil area, hrepl⟩

@[simp]
theorem applyTrace_append (first second : List DiskWrite) (disk : Disk) :
    applyTrace (first ++ second) disk = applyTrace second (applyTrace first disk) := by
  simp [applyTrace, applyWrites_append]

@[simp]
theorem applyTrace_singleton (write : DiskWrite) (disk : Disk) :
    applyTrace [write] disk = update disk write.block write.data := rfl

theorem applyTrace_take_invariant (invariant : Disk → Prop) (writes : List DiskWrite) (disk : Disk)
    (hkeeps : ∀ write ∈ writes, ∀ current, invariant current →
      invariant (update current write.block write.data)) (hstart : invariant disk) (cut : ℕ) :
    invariant (applyTrace (writes.take cut) disk) := by
  rw [applyTrace, map_take]
  apply applyWrites_take_invariant invariant _ disk _ hstart
  intro write hwrite current hcurrent
  obtain ⟨diskWrite, hmem, rfl⟩ := mem_map.mp hwrite
  exact hkeeps diskWrite hmem current hcurrent

theorem take_concat_cases (writes : List DiskWrite) (last : DiskWrite) (cut : ℕ) :
    (writes ++ [last]).take cut = writes.take cut ∨
      (writes ++ [last]).take cut = writes ++ [last] := by
  by_cases hcut : cut ≤ writes.length
  · left
    exact take_append_of_le_length hcut
  · right
    apply take_of_length_le
    rw [length_append, length_singleton]
    omega

/-! ## Replaying an announced transaction -/

def clearWrite (area : LogArea) (header : LogHeader) (buffer : Block) :
    DiskWrite :=
  ⟨.clearHead, area.start, encodeHead { header with n := 0 } buffer⟩

theorem recoverable_replay_take (hval : ValidTransaction area transaction)
    (hrepl : Replayable area disk transaction homes) (header : LogHeader) (buffer : Block)
    (cut : ℕ) :
    Recoverable area (applyTrace ((installs transaction ++
        [clearWrite area header buffer]).take cut) disk) homes := by
  rcases take_concat_cases (installs transaction)
    (clearWrite area header buffer) cut with hpart | hall
  · rw [hpart]
    refine ⟨transaction, hval, ?_⟩
    apply applyTrace_take_invariant (fun current => Replayable area current transaction homes)
    · intro write hwrite current hcurrent
      exact replayable_install hval hcurrent hwrite
    · exact hrepl
  · rw [hall, applyTrace_append, applyTrace_singleton]
    apply recoverable_of_replayable_nil
    exact replayable_clear { header with n := 0 } rfl buffer (installs_home hval hrepl)

theorem replayable_replay (hval : ValidTransaction area transaction)
    (hrepl : Replayable area disk transaction homes) (header : LogHeader) (buffer : Block) :
    Replayable area (applyTrace (installs transaction ++
        [clearWrite area header buffer]) disk) [] homes := by
  rw [applyTrace_append, applyTrace_singleton]
  exact replayable_clear { header with n := 0 } rfl buffer (installs_home hval hrepl)

/-! ## Recovery -/

/-- On a replayable disk, recovery issues the home writes of the announced
transaction and then clears the header. -/
theorem recoverFromLog_eq (hval : ValidTransaction area transaction)
    (hrepl : Replayable area disk transaction homes) :
    ∃ header buffer, (recoverFromLog area (boot disk)).trace =
        installs transaction ++ [clearWrite area header buffer] ∧
      (recoverFromLog area (boot disk)).disk =
        applyTrace (installs transaction ++ [clearWrite area header buffer]) disk := by
  have hroom : transaction.length ≤ LOGSIZE := hval.fits.trans (Nat.min_le_left _ _)
  have hinstall : installTrans area (readHead area (boot disk)) =
      bwrites (readHead area (boot disk)) (installs transaction) :=
    installTrans_eq hval (describes_readHead hrepl hroom) hrepl.slot
  refine ⟨(readHead area (boot disk)).lh, bread (resetCount (bwrites (readHead area (boot disk))
      (installs transaction))) area.start, ?_, ?_⟩
  · rw [recoverFromLog, hinstall]
    simp [writeHead, bwrite, resetCount, clearWrite, readHead, boot]
  · rw [recoverFromLog, hinstall]
    simp [writeHead, bwrite, resetCount, clearWrite, readHead, boot]

/-- A recovery that crashes after any number of its own writes leaves the same
contents to recover. -/
theorem recoverable_recovery_take (hrecoverable : Recoverable area disk homes) (cut : ℕ) :
    Recoverable area (applyTrace ((recoveryTrace area disk).take cut) disk) homes := by
  obtain ⟨transaction, hval, hrepl⟩ := hrecoverable
  obtain ⟨header, buffer, htrace, _⟩ := recoverFromLog_eq hval hrepl
  rw [recoveryTrace, htrace]
  exact recoverable_replay_take hval hrepl header buffer cut

theorem recoverable_crashedRecoveries (hrecoverable : Recoverable area disk homes) (cuts : List ℕ) :
    Recoverable area (crashedRecoveries area cuts disk) homes := by
  induction cuts generalizing disk with
  | nil => exact hrecoverable
  | cons cut cuts ih => exact ih (recoverable_recovery_take hrecoverable cut)

theorem replayable_recoveredDisk (hrecoverable : Recoverable area disk homes) :
    Replayable area (recoveredDisk area disk) [] homes := by
  obtain ⟨transaction, hval, hrepl⟩ := hrecoverable
  obtain ⟨header, buffer, _, hdisk⟩ := recoverFromLog_eq hval hrepl
  rw [recoveredDisk, hdisk]
  exact replayable_replay hval hrepl header buffer

/-! ## Commits -/

/-- The number of committing `write_head` calls in a trace. -/
def commits (trace : List DiskWrite) : ℕ := trace.countP fun write => write.site = .commitHead

/-- Contents after committing transactions one after another. -/
def contentsAfterAll (disk : Disk) (transactions : List Transaction) : Disk :=
  transactions.foldl contentsAfter disk

/-- Between commits: an empty log on disk and in memory, and a cache that
agrees with the disk. -/
structure Quiescent (area : LogArea) (state : LogState) (homes : Disk) :
    Prop where
  clean : ∀ block, bread state block = state.disk block
  count : state.lh.n = 0
  replayable : Replayable area state.disk [] homes

theorem commits_logCopies (area : LogArea) (transaction : Transaction)
    (cut : ℕ) : commits ((logCopies area transaction).take cut) = 0 := by
  rw [commits, countP_eq_zero]
  intro write hwrite
  obtain ⟨index, _, rfl⟩ := mem_logCopies (mem_of_mem_take hwrite)
  simp

theorem commits_replay (area : LogArea) (transaction : Transaction)
    (header : LogHeader) (buffer : Block) (cut : ℕ) :
    commits ((installs transaction ++ [clearWrite area header buffer]).take cut) = 0 := by
  rw [commits, countP_eq_zero]
  intro write hwrite
  rcases mem_append.mp (mem_of_mem_take hwrite) with hmem | hmem
  · obtain ⟨entry, _, rfl⟩ := mem_installs hmem
    simp
  · rw [mem_singleton.mp hmem]
    simp [clearWrite]

/-- The writes of one commit: copies, commit point, home writes, clearing. -/
def commitWrites (area : LogArea) (transaction : Transaction)
    (head : Block) (header : LogHeader) (buffer : Block) : List DiskWrite :=
  logCopies area transaction ++ ⟨.commitHead, area.start, head⟩ ::
    (installs transaction ++ [clearWrite area header buffer])

/-- `commit` of a logged transaction issues `commitWrites` and leaves the cache
equal to the disk. -/
theorem commit_eq {disk : Disk} {trace : List DiskWrite}
    (hlogged : Logged state disk trace transaction)
    (hval : ValidTransaction area transaction)
    (hnonempty : transaction ≠ []) :
    ∃ oldHead buffer,
      let writes := commitWrites area transaction (encodeHead state.lh oldHead) state.lh buffer
      (commit area state).trace = trace ++ writes ∧
      (commit area state).disk = applyTrace writes disk ∧
      (commit area state).lh.n = 0 ∧
      ∀ block, bread (commit area state) block = (commit area state).disk block := by
  have hpos : 0 < state.lh.n.toInt := by
    have hcount : state.lh.n.toInt.toNat = transaction.length := hlogged.describes.count
    have hlen : 0 < transaction.length := length_pos_iff.mpr hnonempty
    omega
  have hlog := writeLog_eq hlogged hval
  let oldHead := bread (bwrites state (logCopies area transaction)) area.start
  let head : DiskWrite := ⟨.commitHead, area.start, encodeHead state.lh oldHead⟩
  let announced := bwrites state (logCopies area transaction ++ [head])
  have hhead : writeHead area .commitHead (writeLog area state) = announced := by
    rw [hlog]
    simp [announced, bwrites, writeHead, head, oldHead, ← bwrites_lh state
      (logCopies area transaction)]
  have hslots : ∀ index < transaction.length, bread announced (area.start + index + 1) =
        entryData transaction index := by
    intro index hi
    have hwritten : bread announced (area.start + index + 1) =
        announced.disk (area.start + index + 1) := by
      apply bread_bwrites_clean
      right
      exact ⟨⟨.logCopy, area.start + index + 1, entryData transaction index⟩,
        mem_append_left _ (mem_map.mpr ⟨index, mem_range.mpr hi, rfl⟩), rfl⟩
    have hne : area.start + index + 1 ≠ area.start := by omega
    rw [hwritten, bwrites_disk, applyTrace_append, applyTrace_singleton,
      update_of_ne hne, logCopies_slot transaction _ index hi]
  have hinstall : installTrans area announced = bwrites announced (installs transaction) :=
    installTrans_eq hval (by
      rw [bwrites_lh]
      exact hlogged.describes) hslots
  let installed := resetCount (bwrites announced (installs transaction))
  let buffer := bread installed area.start
  have hcommit : commit area state = bwrite installed (clearWrite area state.lh buffer) := by
    rw [commit, if_pos hpos, hhead, hinstall]
    simp [writeHead, installed, buffer, resetCount, clearWrite, announced]
  refine ⟨oldHead, buffer, ?_, ?_, ?_, ?_⟩
  · rw [hcommit]
    simp [bwrite, installed, resetCount, announced, hlogged.trace_eq, commitWrites, head]
  · rw [hcommit]
    simp [bwrite, installed, resetCount, announced, hlogged.disk_eq,
      commitWrites, head, applyTrace, DiskWrite.write, applyWrites_append]
  · rw [hcommit]
    simp [bwrite, installed, resetCount]
  · intro block
    -- A logged block was dirty until its home write; any other was clean.
    have hinstalled : bread installed block = installed.disk block := by
      change bread (bwrites announced (installs transaction)) block =
        (bwrites announced (installs transaction)).disk block
      by_cases hlisted : ∃ entry ∈ transaction, entry.1.toNat = block
      · obtain ⟨entry, he, rfl⟩ := hlisted
        apply bread_bwrites_clean
        right
        exact ⟨_, installs_mem he, rfl⟩
      · rw [← bwrites_append]
        apply bread_bwrites_clean
        left
        rw [hlogged.disk_eq]
        exact hlogged.clean block fun entry he heq => hlisted ⟨entry, he, heq⟩
    rw [hcommit]
    by_cases hb : block = area.start
    · subst hb
      simp [bread, bwrite, clearWrite]
    · simpa [bread, bwrite, clearWrite, update_of_ne hb] using hinstalled

theorem replayable_logCopies_take (hval : ValidTransaction area transaction)
    (hrepl : Replayable area disk [] homes) (cut : ℕ) :
    Replayable area (applyTrace ((logCopies area transaction).take cut) disk) [] homes := by
  apply applyTrace_take_invariant (fun current => Replayable area current [] homes)
  · intro write hwrite current hcurrent
    exact replayable_logCopy hval hcurrent hwrite
  · exact hrepl

theorem replayable_announced (hval : ValidTransaction area transaction)
    (hrepl : Replayable area disk [] homes) (hdescribes : Describes header transaction)
    (hcount : header.n = BitVec.ofNat 32 transaction.length) (oldHead : Block) :
    Replayable area (update (applyTrace (logCopies area transaction) disk)
        area.start (encodeHead header oldHead)) transaction (contentsAfter homes transaction) := by
  have hcopied : Replayable area (applyTrace (logCopies area transaction) disk) [] homes := by
    simpa using replayable_logCopies_take hval hrepl (logCopies area transaction).length
  exact replayable_commitHead hval hdescribes hcount oldHead (logCopies_slot transaction disk)
    (fun block hout => hcopied.home block hout (by simp))

theorem commits_announced (area : LogArea) (transaction : Transaction)
    (head : Block) (header : LogHeader) (buffer : Block) (rest : ℕ) :
    commits (logCopies area transaction ++ ⟨.commitHead, area.start, head⟩ ::
      (installs transaction ++ [clearWrite area header buffer]).take rest) = 1 := by
  have hfst := commits_logCopies area transaction (logCopies area transaction).length
  have hlast := commits_replay area transaction header buffer rest
  rw [take_length] at hfst
  simp only [commits] at hfst hlast ⊢
  rw [countP_append, countP_cons, hfst, hlast]
  rfl

/-- Where a commit is cut decides which contents are recovered: the old ones
before the commit write, the new ones from it on. -/
theorem recoverable_commit_take (hval : ValidTransaction area transaction)
    (hrepl : Replayable area disk [] homes)
    (hdescribes : Describes header transaction)
    (hcount : header.n = BitVec.ofNat 32 transaction.length)
    (oldHead buffer : Block) (cut : ℕ) :
    let writes := (commitWrites area transaction (encodeHead header oldHead) header buffer).take cut
    (commits writes = 0 ∧ Recoverable area (applyTrace writes disk) homes) ∨
    (commits writes = 1 ∧ Recoverable area (applyTrace writes disk)
        (contentsAfter homes transaction)) := by
  by_cases hcut : cut ≤ (logCopies area transaction).length
  · left
    simp only [commitWrites, take_append_of_le_length hcut]
    exact ⟨commits_logCopies area transaction cut, recoverable_of_replayable_nil
        (replayable_logCopies_take hval hrepl cut)⟩
  · right
    obtain ⟨rest, hrest⟩ := Nat.exists_eq_add_of_lt (Nat.lt_of_not_le hcut)
    have htake : (commitWrites area transaction (encodeHead header oldHead)
        header buffer).take cut =
        logCopies area transaction ++ ⟨.commitHead, area.start, encodeHead header oldHead⟩ ::
            (installs transaction ++ [clearWrite area header buffer]).take rest := by
      rw [commitWrites, hrest, Nat.add_assoc, take_length_add_append, take_succ_cons]
    have hannounced := replayable_announced hval hrepl hdescribes hcount oldHead
    simp only [htake]
    refine ⟨commits_announced area transaction _ header buffer rest, ?_⟩
    rw [applyTrace_append]
    exact recoverable_replay_take hval hannounced header buffer rest

/-! ## Whole runs -/

/-- One transaction: its writes, where they leave the machine, and what any
cut of them leaves to recover. -/
theorem runTransaction_spec {homes : Disk}
    (hquiescent : Quiescent area state homes)
    (hval : ValidTransaction area transaction) :
    ∃ next writes, runTransaction area state transaction = some next ∧
      Quiescent area next (contentsAfter homes transaction) ∧
      next.trace = state.trace ++ writes ∧
      next.disk = applyTrace writes state.disk ∧
      (commits writes = if transaction.isEmpty then 0 else 1) ∧
      ∀ cut, (commits (writes.take cut) = 0 ∧
          Recoverable area (applyTrace (writes.take cut) state.disk) homes) ∨
        (commits (writes.take cut) = 1 ∧ transaction ≠ [] ∧
          Recoverable area (applyTrace (writes.take cut) state.disk)
            (contentsAfter homes transaction)) := by
  have hstart : Logged state state.disk state.trace [] := by
    refine ⟨rfl, rfl, hquiescent.count, ⟨?_, by simp⟩, by simp, ?_⟩
    · simp [LogHeader.count, hquiescent.count]
    · intro block _
      exact hquiescent.clean block
  obtain ⟨loaded, hloaded, hlog⟩ := logged_foldlM transaction [] hstart (by simpa using hval)
  rw [nil_append] at hlog
  have hrun : runTransaction area state transaction = some (commit area loaded) := by
    rw [runTransaction, hloaded]
    rfl
  by_cases hnil : transaction = []
  · subst hnil
    have hskip : commit area loaded = loaded := by
      rw [commit, hlog.count]
      rfl
    refine ⟨loaded, [], by rw [hrun, hskip], ?_, ?_, ?_, rfl, ?_⟩
    · refine ⟨?_, hlog.count, ?_⟩
      · intro block
        rw [hlog.disk_eq]
        exact hlog.clean block (by simp)
      · rw [hlog.disk_eq]
        exact hquiescent.replayable
    · simpa using hlog.trace_eq
    · exact hlog.disk_eq
    · intro cut
      left
      rw [take_nil]
      exact ⟨rfl, recoverable_of_replayable_nil hquiescent.replayable⟩
  · obtain ⟨oldHead, buffer, htrace, hdisk, hcount, hclean⟩ := commit_eq hlog hval hnil
    have hcut := recoverable_commit_take hval hquiescent.replayable
      hlog.describes hlog.count oldHead buffer
    refine ⟨commit area loaded, _, hrun, ⟨hclean, hcount, ?_⟩, htrace, hdisk, ?_, ?_⟩
    · rw [hdisk, commitWrites, applyTrace_append]
      exact replayable_replay hval (replayable_announced hval
        hquiescent.replayable hlog.describes hlog.count oldHead) _ _
    · have hall := commits_announced area transaction
        (encodeHead loaded.lh oldHead) loaded.lh buffer
        (installs transaction ++ [clearWrite area loaded.lh buffer]).length
      rw [take_length] at hall
      simpa [hnil, commitWrites] using hall
    · intro cut
      rcases hcut cut with hold | ⟨hone, hnew⟩
      · exact Or.inl hold
      · exact Or.inr ⟨hone, hnil, hnew⟩

/-- `commit` does nothing for an empty list, so a transaction is one that logs
at least one block. -/
def writingTransactions (transactions : List Transaction) : List Transaction :=
  transactions.filter fun transaction => !transaction.isEmpty

/-- A run of transactions, cut anywhere, leaves the contents of exactly those
whose commit write is on the disk. -/
theorem runTransactions_spec (transactions : List Transaction) {homes : Disk}
    (hquiescent : Quiescent area state homes)
    (hval : ∀ transaction ∈ transactions, ValidTransaction area transaction) :
    ∃ final writes, runTransactions area state transactions = some final ∧
      final.trace = state.trace ++ writes ∧
      ∀ cut, Recoverable area (applyTrace (writes.take cut) state.disk)
        (contentsAfterAll homes ((writingTransactions transactions).take
          (commits (writes.take cut)))) := by
  induction transactions generalizing state homes with
  | nil =>
    refine ⟨state, [], rfl, by simp, ?_⟩
    intro cut
    simpa [contentsAfterAll, writingTransactions, applyTrace] using
      recoverable_of_replayable_nil hquiescent.replayable
  | cons transaction transactions ih =>
    obtain ⟨middle, first, hmiddle, hready, htrace, hdisk, hcommits, hcut⟩ :=
      runTransaction_spec hquiescent (hval transaction (by simp))
    obtain ⟨final, second, hfinal, htraceFinal, hrest⟩ :=
      ih hready fun other ho => hval other (by simp [ho])
    refine ⟨final, first ++ second, ?_, ?_, ?_⟩
    · rw [runTransactions, foldlM_cons, hmiddle]
      exact hfinal
    · rw [htraceFinal, htrace, append_assoc]
    · intro cut
      by_cases hin : cut ≤ first.length
      · rw [take_append_of_le_length hin]
        rcases hcut cut with ⟨hzero, hold⟩ | ⟨hone, hnonempty, hnew⟩
        · simpa [hzero, contentsAfterAll] using hold
        · simpa [hone, hnonempty, contentsAfterAll, writingTransactions] using hnew
      · have hsplit : (first ++ second).take cut =
            first ++ second.take (cut - first.length) := by
          rw [take_append, take_of_length_le (by omega)]
        have hlater := hrest (cut - first.length)
        have hsum : commits (first ++ second.take (cut - first.length)) =
            (if transaction.isEmpty then 0 else 1) +
              commits (second.take (cut - first.length)) := by
          rw [← hcommits]
          exact countP_append
        rw [hsplit, hsum, applyTrace_append, ← hdisk]
        by_cases hnil : transaction = []
        · subst hnil
          simpa [writingTransactions, contentsAfter, homeWrites] using hlater
        · simpa [writingTransactions, hnil, Nat.add_comm 1, contentsAfterAll] using hlater

/-- Crash atomicity.  Commit any list of transactions on a disk with an empty
log, crash after any number of the issued block writes, crash any number of
recoveries after any number of their own writes, and let one more recovery run
to its end: the header is empty, and every block outside the log has its
contents after exactly the first `k` transactions, where `k` counts the commit
writes that reached the disk. -/
theorem recovery_installs_committed (area : LogArea) (disk : Disk)
    (hempty : headCount (disk area.start) = 0)
    (transactions : List Transaction)
    (hvalid : ∀ transaction ∈ transactions, ValidTransaction area transaction) :
    ∃ final, runTransactions area (boot disk) transactions = some final ∧
      ∀ (cut : ℕ) (restarts : List ℕ),
        let survivor := applyTrace (final.trace.take cut) disk
        let recovered := recoveredDisk area (crashedRecoveries area restarts survivor)
        headCount (recovered area.start) = 0 ∧
        ∀ block, ¬ area.Contains block → recovered block = contentsAfterAll disk
            ((writingTransactions transactions).take (commits (final.trace.take cut))) block := by
  have hquiescent : Quiescent area (boot disk) disk := by
    refine ⟨fun block => rfl, rfl, ⟨hempty, by simp, by simp, ?_, by simp⟩⟩
    intro block _ _
    rfl
  obtain ⟨final, writes, hfinal, htrace, hcuts⟩ :=
    runTransactions_spec transactions hquiescent hvalid
  have hwrites : final.trace = writes := by simpa [boot] using htrace
  refine ⟨final, hfinal, ?_⟩
  intro cut restarts
  have hrecovered := replayable_recoveredDisk (recoverable_crashedRecoveries (hcuts cut) restarts)
  rw [hwrites]
  refine ⟨hrecovered.count, ?_⟩
  intro block houtside
  exact hrecovered.home block houtside (by simp)

/-- Two transactions on an all-zero disk with the log of `mkfs`. -/
theorem recovery_installs_committed_two :
    ∃ final, runTransactions ⟨2, 30, by decide⟩ (boot fun _ _ => 0)
      [[(46, fun _ => 1), (47, fun _ => 2)], [(46, fun _ => 3)]] = some final ∧
      ∀ (cut : ℕ) (restarts : List ℕ),
        let survivor := applyTrace (final.trace.take cut) fun _ _ => 0
        let recovered := recoveredDisk ⟨2, 30, by decide⟩
          (crashedRecoveries ⟨2, 30, by decide⟩ restarts survivor)
        headCount (recovered 2) = 0 ∧
        ∀ block, ¬ LogArea.Contains ⟨2, 30, by decide⟩ block →
          recovered block = contentsAfterAll (fun _ _ => 0) ((writingTransactions
              [[(46, fun _ => 1), (47, fun _ => 2)], [(46, fun _ => 3)]]).take
              (commits (final.trace.take cut))) block := by
  apply recovery_installs_committed ⟨2, 30, by decide⟩ (fun _ _ => 0)
  · exact readU32_zero BSIZE 0
  · intro transaction hmem
    rcases mem_cons.mp hmem with rfl | hrest
    · refine ⟨by decide, by decide, ?_⟩
      intro entry hentry
      simp only [mem_cons, not_mem_nil, or_false] at hentry
      rcases hentry with rfl | rfl <;> simp [LogArea.Contains]
    · rw [mem_singleton.mp hrest]
      refine ⟨by decide, by decide, ?_⟩
      intro entry hentry
      rw [mem_singleton.mp hentry]
      simp [LogArea.Contains]

end Xv6.CrashAtomicity
