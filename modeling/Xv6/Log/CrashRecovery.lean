import Xv6.Log.DiskLog

/-!
# Crash atomicity of the redo log

A surviving disk is described by the transaction its header announces and by
the contents `homes` that every block outside the log is to have once that
transaction has been replayed (`Replayable`).  The writes of `write_log` keep
this description for the empty transaction, the commit write switches it to
the new transaction, and the home writes of `install_trans`, whether issued by
`commit` or by a recovery, keep it until the header is cleared.
-/

namespace Xv6.CrashRecovery

open LittleEndian WriteSequence DiskLog Function

variable {transaction : Transaction} {area : LogArea} {disk homes : Disk}
variable {index : ℕ} {header : LogHeader} {logged : Transaction} {state : LogState}
  {trace : List DiskWrite} {write : DiskWrite}

def entryBlock (transaction : Transaction) (index : ℕ) : BitVec 32 :=
  ((transaction[index]?).map Prod.fst).getD 0

def entryData (transaction : Transaction) (index : ℕ) : Block :=
  ((transaction[index]?).map Prod.snd).getD 0

/-- A transaction that `log_write` accepts: it fits in the log and writes
distinct blocks outside the log. -/
structure ValidTransaction (area : LogArea) (transaction : Transaction) :
    Prop where
  fits : transaction.length ≤ min LOGSIZE (area.size - 1)
  distinct : (transaction.map Prod.fst).Nodup
  outside : ∀ entry ∈ transaction, ¬ area.Contains entry.1.toNat

/-- The writes of a transaction to the home locations. -/
def homeWrites (transaction : Transaction) : List (ℕ × Block) :=
  transaction.map fun entry => (entry.1.toNat, entry.2)

def contentsAfter (disk : Disk) (transaction : Transaction) : Disk :=
  applyWrites (homeWrites transaction) disk

/-- The in-memory header lists exactly the blocks of a transaction. -/
structure Describes (header : LogHeader) (transaction : Transaction) :
    Prop where
  count : header.count = transaction.length
  entry : ∀ index < transaction.length, header.entry index = entryBlock transaction index

/-- The header block announces `transaction`, the log blocks hold its new
contents, and replaying it makes every block outside the log equal `homes`. -/
structure Replayable (area : LogArea) (disk : Disk)
    (transaction : Transaction) (homes : Disk) : Prop where
  count : headCount (disk area.start) = BitVec.ofNat 32 transaction.length
  entry : ∀ index < transaction.length, readU32 (disk area.start) (blockOffset index) =
      entryBlock transaction index
  slot : ∀ index < transaction.length, disk (area.start + index + 1) = entryData transaction index
  home : ∀ block, ¬ area.Contains block →
    (∀ entry ∈ transaction, entry.1.toNat ≠ block) → disk block = homes block
  target : ∀ entry ∈ transaction, homes entry.1.toNat = entry.2

theorem entryBlock_eq (hi : index < transaction.length) :
    entryBlock transaction index = transaction[index].1 := by
  simp [entryBlock, hi]

theorem entryData_eq (hi : index < transaction.length) :
    entryData transaction index = transaction[index].2 := by
  simp [entryData, hi]

/-! ## Runs of `bwrite` -/

def bwrites (state : LogState) (writes : List DiskWrite) : LogState := writes.foldl bwrite state

@[simp]
theorem bwrites_lh (state : LogState) (writes : List DiskWrite) :
    (bwrites state writes).lh = state.lh := by
  induction writes generalizing state with
  | nil => rfl
  | cons write writes ih => exact ih (bwrite state write)

@[simp]
theorem bwrites_trace (state : LogState) (writes : List DiskWrite) :
    (bwrites state writes).trace = state.trace ++ writes := by
  induction writes generalizing state with
  | nil => simp [bwrites]
  | cons write writes ih =>
    change (bwrites (bwrite state write) writes).trace = _
    rw [ih]
    simp [bwrite]

@[simp]
theorem bwrites_disk (state : LogState) (writes : List DiskWrite) :
    (bwrites state writes).disk = applyTrace writes state.disk := by
  induction writes generalizing state with
  | nil => rfl
  | cons write writes ih => exact ih (bwrite state write)

theorem bwrites_append (state : LogState) (first second : List DiskWrite) :
    bwrites state (first ++ second) = bwrites (bwrites state first) second := by
  simp [bwrites]

theorem bread_bwrites_untouched (state : LogState) (writes : List DiskWrite)
    (block : ℕ) (huntouched : ∀ write ∈ writes, write.block ≠ block) :
    bread (bwrites state writes) block = bread state block := by
  induction writes generalizing state with
  | nil => rfl
  | cons write writes ih =>
    change bread (bwrites (bwrite state write) writes) block = _
    rw [ih _ fun other ho => huntouched other (List.mem_cons_of_mem write ho)]
    have hne : block ≠ write.block := (huntouched write List.mem_cons_self).symm
    simp [bread, bwrite, update_of_ne hne]

/-- A buffer agrees with the disk after a run of writes if it did so before or
if the run wrote it: every `bwrite` stores the contents it caches. -/
theorem bread_bwrites_clean (state : LogState) (writes : List DiskWrite)
    (block : ℕ) (hclean : bread state block = state.disk block ∨
      ∃ write ∈ writes, write.block = block) :
    bread (bwrites state writes) block = (bwrites state writes).disk block := by
  induction writes generalizing state with
  | nil => simpa [bwrites] using hclean
  | cons write writes ih =>
    apply ih (bwrite state write)
    by_cases hhead : write.block = block
    · left
      subst hhead
      simp [bread, bwrite]
    · rcases hclean with hold | ⟨other, ho, hb⟩
      · left
        have hne : block ≠ write.block := Ne.symm hhead
        simpa [bread, bwrite, update_of_ne hne] using hold
      · right
        rcases List.mem_cons.mp ho with hfst | hrest
        · subst hfst
          exact absurd hb hhead
        · exact ⟨other, hrest, hb⟩

/-- A loop of `bwrite` calls performs a fixed list of writes, provided each
iteration computes its write from the state the earlier ones leave. -/
theorem foldl_bwrite_eq (step : LogState → ℕ → DiskWrite)
    (writes : ℕ → DiskWrite) (state : LogState) (count : ℕ)
    (hstep : ∀ index < count, step (bwrites state ((List.range index).map writes)) index =
        writes index) :
    (List.range count).foldl (fun current index => bwrite current (step current index)) state =
      bwrites state ((List.range count).map writes) := by
  induction count with
  | zero => rfl
  | succ count ih =>
    rw [List.range_succ, List.foldl_append, ih fun index hi => hstep index (Nat.lt_succ_of_lt hi)]
    simp only [List.foldl_cons, List.foldl_nil, List.map_append, List.map_cons, List.map_nil]
    rw [hstep count (Nat.lt_succ_self count)]
    simp [bwrites]

/-! ## The header block -/

private theorem ofNat_toInt_toNat {count : ℕ} (hcount : count ≤ LOGSIZE) :
    (BitVec.ofNat 32 count).toInt.toNat = count := by
  have hbound : count ≤ 30 := hcount
  rw [BitVec.toInt_ofNat', Int.bmod_def]
  norm_num
  omega

theorem headCount_encodeHead (header : LogHeader) (buffer : Block) :
    headCount (encodeHead header buffer) = header.n := by
  have hloop : ∀ count : ℕ, headCount ((List.range count).foldl
      (fun current index => writeU32 current (blockOffset index)
        (header.entry index)) (writeU32 buffer 0 header.n)) = header.n := by
    intro count
    induction count with
    | zero => exact readU32_writeU32_same buffer 0 header.n (by norm_num [BSIZE])
    | succ count ih =>
      rw [List.range_succ, List.foldl_append]
      refine Eq.trans ?_ ih
      apply readU32_writeU32_disjoint
      simp [blockOffset]
  exact hloop header.count

theorem readU32_encodeHead (header : LogHeader) (buffer : Block)
    (hcount : header.count ≤ LOGSIZE) (index : ℕ) (hi : index < header.count) :
    readU32 (encodeHead header buffer) (blockOffset index) = header.entry index := by
  have hloop : ∀ count ≤ LOGSIZE, index < count → readU32 ((List.range count).foldl
        (fun current position => writeU32 current (blockOffset position)
          (header.entry position)) (writeU32 buffer 0 header.n))
        (blockOffset index) = header.entry index := by
    intro count
    induction count with
    | zero => omega
    | succ count ih =>
      intro hfits hlt
      rw [List.range_succ, List.foldl_append]
      simp only [List.foldl_cons, List.foldl_nil]
      by_cases hlast : index = count
      · subst hlast
        apply readU32_writeU32_same
        simp only [blockOffset, BSIZE, LOGSIZE, MAXOPBLOCKS] at hfits ⊢
        omega
      · rw [readU32_writeU32_disjoint _ _ _ _ (by
          simp only [blockOffset]
          omega)]
        exact ih (by omega) (by omega)
  exact hloop header.count hcount hi

theorem describes_readHead (hrepl : Replayable area disk transaction homes)
    (hfits : transaction.length ≤ LOGSIZE) :
    Describes (readHead area (boot disk)).lh transaction := by
  have hcount : (headCount (disk area.start)).toInt.toNat =
      transaction.length := by
    rw [hrepl.count, ofNat_toInt_toNat hfits]
  constructor
  · exact hcount
  · intro index hi
    have hslot : index < LOGSIZE := lt_of_lt_of_le hi hfits
    have hbuffer : bread (boot disk) area.start = disk area.start := rfl
    simp only [LogHeader.entry, hslot, dif_pos, readHead, hbuffer, hcount, hi, if_true]
    exact hrepl.entry index hi

/-! ## Logging the blocks of a transaction -/

/-- What `log_write` has recorded after the blocks of `logged`, over a state
whose buffers agreed with the disk `disk`. -/
structure Logged (state : LogState) (disk : Disk) (trace : List DiskWrite)
    (logged : Transaction) : Prop where
  disk_eq : state.disk = disk
  trace_eq : state.trace = trace
  count : state.lh.n = BitVec.ofNat 32 logged.length
  describes : Describes state.lh logged
  dirty : ∀ entry ∈ logged, bread state entry.1.toNat = entry.2
  clean : ∀ block, (∀ entry ∈ logged, entry.1.toNat ≠ block) → bread state block = disk block

theorem absorbIndex_fresh (hdescribes : Describes header logged) (block : BitVec 32)
    (hfresh : block ∉ logged.map Prod.fst) : absorbIndex header block = logged.length := by
  have hnone : (List.range header.count).find? (fun index =>
      header.entry index = block) = none := by
    apply List.find?_eq_none.mpr
    intro index hi
    rw [List.mem_range, hdescribes.count] at hi
    rw [hdescribes.entry index hi, entryBlock_eq hi]
    intro heq
    apply hfresh
    rw [List.mem_map]
    exact ⟨logged[index], List.getElem_mem hi, by simpa using heq⟩
  rw [absorbIndex, hnone, Option.getD_none, hdescribes.count]

theorem logged_logWrite (area : LogArea) {disk : Disk}
    (hlog : Logged state disk trace logged) (entry : BitVec 32 × Block)
    (hfits : logged.length + 1 ≤ min LOGSIZE (area.size - 1))
    (hfresh : entry.1 ∉ logged.map Prod.fst) :
    ∃ next, logWrite area state entry = some next ∧ Logged next disk trace (logged ++ [entry]) := by
  have hroom : logged.length + 1 ≤ LOGSIZE := hfits.trans (Nat.min_le_left _ _)
  have harea : logged.length + 1 ≤ area.size - 1 := hfits.trans (Nat.min_le_right _ _)
  have hint : state.lh.n.toInt = logged.length := by
    have hnat : (BitVec.ofNat 32 logged.length).toInt.toNat = logged.length :=
      ofNat_toInt_toNat (by omega)
    rw [← hlog.count] at hnat
    have hsigned : 0 ≤ state.lh.n.toInt := by
      have hbound : logged.length ≤ 30 := (Nat.le_of_succ_le hroom : logged.length ≤ LOGSIZE)
      rw [hlog.count, BitVec.toInt_ofNat', Int.bmod_def]
      norm_num
      omega
    omega
  have hi := absorbIndex_fresh hlog.describes entry.1 hfresh
  have hcount := hlog.describes.count
  have hnotfull : ¬ ((LOGSIZE : ℤ) ≤ state.lh.n.toInt ∨
      (area.size : ℤ) - 1 ≤ state.lh.n.toInt) := by
    rw [hint]
    omega
  have hnext : state.lh.n + 1 = BitVec.ofNat 32 (logged ++ [entry]).length := by
    rw [hlog.count, List.length_append]
    exact (BitVec.ofNat_add logged.length 1).symm
  refine ⟨_, by rw [logWrite, if_neg hnotfull], ?_⟩
  simp only [hi, hcount, if_true, hnext]
  constructor
  · exact hlog.disk_eq
  · exact hlog.trace_eq
  · rfl
  · constructor
    · exact ofNat_toInt_toNat (by simpa using hroom)
    · intro index hlt
      rw [List.length_append, List.length_singleton] at hlt
      have hslot : index < LOGSIZE := by omega
      simp only [LogHeader.entry, hslot, dif_pos]
      by_cases hlast : index = logged.length
      · subst hlast
        simp [entryBlock]
      · have hold := hlog.describes.entry index (by omega)
        simp only [LogHeader.entry, hslot, dif_pos] at hold
        rw [if_neg hlast, hold, entryBlock, entryBlock, List.getElem?_append_left (by omega)]
  · intro other ho
    rcases List.mem_append.mp ho with hold | hnew
    · have hne : other.1.toNat ≠ entry.1.toNat := by
        intro heq
        apply hfresh
        rw [← BitVec.eq_of_toNat_eq heq]
        exact List.mem_map_of_mem hold
      simpa [bread, update_of_ne hne] using hlog.dirty other hold
    · rw [List.mem_singleton.mp hnew]
      simp [bread]
  · intro block ho
    have hne : block ≠ entry.1.toNat := (ho entry (by simp)).symm
    have hold := hlog.clean block fun other hmem => ho other (List.mem_append_left _ hmem)
    simpa [bread, update_of_ne hne] using hold

/-- Logging a whole valid transaction never panics and leaves its blocks dirty
in the cache and listed in the header. -/
theorem logged_foldlM {disk : Disk}
    (rest logged : Transaction) (hlog : Logged state disk trace logged)
    (hval : ValidTransaction area (logged ++ rest)) :
    ∃ next, rest.foldlM (logWrite area) state = some next ∧
      Logged next disk trace (logged ++ rest) := by
  induction rest generalizing logged state with
  | nil => exact ⟨state, rfl, by simpa using hlog⟩
  | cons entry rest ih =>
    have happend : logged ++ entry :: rest = (logged ++ [entry]) ++ rest := by simp
    have hfits := hval.fits
    have hfresh : entry.1 ∉ logged.map Prod.fst := by
      have hnd := hval.distinct
      rw [List.map_append, List.nodup_append] at hnd
      intro hmem
      exact hnd.2.2 _ hmem _ (by simp) rfl
    simp only [List.length_append, List.length_cons] at hfits
    obtain ⟨middle, hmiddle, hloggedMiddle⟩ := logged_logWrite area hlog entry (by omega) hfresh
    rw [happend] at hval ⊢
    obtain ⟨next, hnext, hloggedNext⟩ := ih _ hloggedMiddle hval
    refine ⟨next, ?_, hloggedNext⟩
    rw [List.foldlM_cons, hmiddle]
    exact hnext

/-! ## The writes of `commit` and of recovery -/

def logCopies (area : LogArea) (transaction : Transaction) : List DiskWrite :=
  (List.range transaction.length).map fun index =>
    ⟨.logCopy, area.start + index + 1, entryData transaction index⟩

def installs (transaction : Transaction) : List DiskWrite :=
  (List.range transaction.length).map fun index =>
    ⟨.install, (entryBlock transaction index).toNat, entryData transaction index⟩

theorem mem_installs (hwrite : write ∈ installs transaction) :
    ∃ entry ∈ transaction, write = ⟨.install, entry.1.toNat, entry.2⟩ := by
  obtain ⟨index, hi, rfl⟩ := List.mem_map.mp hwrite
  rw [List.mem_range] at hi
  exact ⟨transaction[index], List.getElem_mem hi, by rw [entryBlock_eq hi, entryData_eq hi]⟩

theorem mem_logCopies (hwrite : write ∈ logCopies area transaction) :
    ∃ index < transaction.length, write = ⟨.logCopy, area.start + index + 1,
        entryData transaction index⟩ := by
  obtain ⟨index, hi, rfl⟩ := List.mem_map.mp hwrite
  exact ⟨index, List.mem_range.mp hi, rfl⟩

theorem installs_mem {entry : BitVec 32 × Block} (he : entry ∈ transaction) :
    ⟨.install, entry.1.toNat, entry.2⟩ ∈ installs transaction := by
  obtain ⟨index, hi, rfl⟩ := List.mem_iff_getElem.mp he
  exact List.mem_map.mpr ⟨index, List.mem_range.mpr hi, by rw [entryBlock_eq hi, entryData_eq hi]⟩

theorem writeLog_eq {disk : Disk}
    (hlog : Logged state disk trace transaction) (hval : ValidTransaction area transaction) :
    writeLog area state = bwrites state (logCopies area transaction) := by
  rw [writeLog, hlog.describes.count, logCopies]
  apply foldl_bwrite_eq (fun current tail =>
    ⟨.logCopy, area.start + tail + 1, bread current (current.lh.entry tail).toNat⟩)
  intro index hi
  have hmem := List.getElem_mem hi
  have hfits := hval.fits
  -- A home block is outside the log, so the earlier copies did not touch it.
  have huntouched : ∀ write ∈ (List.range index).map (fun position =>
      (⟨.logCopy, area.start + position + 1, entryData transaction position⟩ : DiskWrite)),
      write.block ≠ transaction[index].1.toNat := by
    intro write hwrite heq
    obtain ⟨position, hpos, rfl⟩ := List.mem_map.mp hwrite
    rw [List.mem_range] at hpos
    apply hval.outside _ hmem
    rw [← heq]
    constructor <;> simp only <;> omega
  simp only [bwrites_lh]
  rw [hlog.describes.entry index hi, entryBlock_eq hi,
    bread_bwrites_untouched _ _ _ huntouched, hlog.dirty _ hmem,
    entryData_eq hi]

theorem installTrans_eq (hval : ValidTransaction area transaction)
    (hdescribes : Describes state.lh transaction) (hslots : ∀ index < transaction.length,
      bread state (area.start + index + 1) = entryData transaction index) :
    installTrans area state = bwrites state (installs transaction) := by
  rw [installTrans, hdescribes.count, installs]
  apply foldl_bwrite_eq (fun current tail =>
    ⟨.install, (current.lh.entry tail).toNat, bread current (area.start + tail + 1)⟩)
  intro index hi
  have hfits := hval.fits
  have huntouched : ∀ write ∈ (List.range index).map (fun position =>
      (⟨.install, (entryBlock transaction position).toNat,
        entryData transaction position⟩ : DiskWrite)),
      write.block ≠ area.start + index + 1 := by
    intro write hwrite heq
    obtain ⟨position, hpos, rfl⟩ := List.mem_map.mp hwrite
    rw [List.mem_range] at hpos
    have hlt : position < transaction.length := by omega
    apply hval.outside _ (List.getElem_mem hlt)
    simp only [entryBlock_eq hlt] at heq
    rw [heq]
    constructor <;> omega
  simp only [bwrites_lh]
  rw [hdescribes.entry index hi, bread_bwrites_untouched _ _ _ huntouched, hslots index hi]

/-! ## What each write keeps -/

theorem area_contains_start (area : LogArea) : area.Contains area.start :=
  ⟨le_refl _, Nat.lt_add_of_pos_right area.hasHeader⟩

theorem replayable_logCopy (hval : ValidTransaction area transaction)
    (hrepl : Replayable area disk [] homes) (hwrite : write ∈ logCopies area transaction) :
    Replayable area (update disk write.block write.data) [] homes := by
  obtain ⟨index, hi, rfl⟩ := mem_logCopies hwrite
  have hfits := hval.fits
  have hstart : area.start ≠ area.start + index + 1 := by omega
  refine ⟨?_, by simp, by simp, ?_, by simp⟩
  · simpa [update_of_ne hstart] using hrepl.count
  · intro block hout ho
    have hne : block ≠ area.start + index + 1 := by
      rintro rfl
      apply hout
      constructor <;> omega
    simp only [update_of_ne hne]
    exact hrepl.home block hout ho

theorem replayable_install (hval : ValidTransaction area transaction)
    (hrepl : Replayable area disk transaction homes)
    (hwrite : write ∈ installs transaction) : Replayable area (update disk write.block write.data)
      transaction homes := by
  obtain ⟨entry, he, rfl⟩ := mem_installs hwrite
  have hout := hval.outside entry he
  have hfits := hval.fits
  have hstart : area.start ≠ entry.1.toNat := by
    intro heq
    apply hout
    rw [← heq]
    exact area_contains_start area
  constructor
  · simpa [update_of_ne hstart] using hrepl.count
  · simpa [update_of_ne hstart] using hrepl.entry
  · intro index hi
    have hslot : area.start + index + 1 ≠ entry.1.toNat := by
      intro heq
      apply hout
      rw [← heq]
      constructor <;> omega
    simpa [update_of_ne hslot] using hrepl.slot index hi
  · intro block hb ho
    have hne : block ≠ entry.1.toNat := (ho entry he).symm
    simpa [update_of_ne hne] using hrepl.home block hb ho
  · exact hrepl.target

/-- Once every home write has been made, clearing the header empties the log. -/
theorem replayable_clear (header : LogHeader) (hzero : header.n = 0) (buffer : Block)
    (hhomes : ∀ block, ¬ area.Contains block → disk block = homes block) :
    Replayable area (update disk area.start (encodeHead header buffer)) [] homes := by
  refine ⟨?_, by simp, by simp, ?_, by simp⟩
  · simp [headCount_encodeHead, hzero]
  · intro block hout _
    have hne : block ≠ area.start := by
      rintro rfl
      exact hout (area_contains_start area)
    simpa [update_of_ne hne] using hhomes block hout

theorem replayable_commitHead (hval : ValidTransaction area transaction)
    (hdescribes : Describes header transaction)
    (hcount : header.n = BitVec.ofNat 32 transaction.length) (buffer : Block)
    (hslots : ∀ index < transaction.length,
      disk (area.start + index + 1) = entryData transaction index)
    (hhomes : ∀ block, ¬ area.Contains block → disk block = homes block) :
    Replayable area (update disk area.start (encodeHead header buffer))
      transaction (contentsAfter homes transaction) := by
  have hroom : transaction.length ≤ LOGSIZE := hval.fits.trans (Nat.min_le_left _ _)
  constructor
  · simp [headCount_encodeHead, hcount]
  · intro index hi
    rw [update_self, readU32_encodeHead header buffer (hdescribes.count.trans_le hroom) index
      (hi.trans_eq hdescribes.count.symm)]
    exact hdescribes.entry index hi
  · intro index hi
    have hne : area.start + index + 1 ≠ area.start := by omega
    rw [update_of_ne hne, hslots index hi]
  · intro block hout ho
    have hne : block ≠ area.start := by
      rintro rfl
      exact hout (area_contains_start area)
    rw [update_of_ne hne, hhomes block hout, contentsAfter, applyWrites_untouched]
    intro write hwrite
    obtain ⟨entry, he, rfl⟩ := List.mem_map.mp hwrite
    exact ho entry he
  · intro entry he
    apply applyWrites_constant
    · intro write hwrite heq
      obtain ⟨other, ho, rfl⟩ := List.mem_map.mp hwrite
      have hb : other.1 = entry.1 := BitVec.eq_of_toNat_eq heq
      rw [List.inj_on_of_nodup_map hval.distinct ho he hb]
    · right
      exact ⟨_, List.mem_map_of_mem he, rfl⟩

theorem logCopies_slot (transaction : Transaction)
    (disk : Disk) (index : ℕ) (hi : index < transaction.length) :
    applyTrace (logCopies area transaction) disk (area.start + index + 1) =
      entryData transaction index := by
  apply applyWrites_constant
  · intro write hwrite heq
    obtain ⟨diskWrite, hmem, rfl⟩ := List.mem_map.mp hwrite
    obtain ⟨position, _, rfl⟩ := mem_logCopies hmem
    have hpos : position = index := by
      simp only [DiskWrite.write] at heq
      omega
    rw [hpos]
    rfl
  · right
    refine ⟨DiskWrite.write ⟨.logCopy, area.start + index + 1,
      entryData transaction index⟩, List.mem_map_of_mem ?_, rfl⟩
    exact List.mem_map.mpr ⟨index, List.mem_range.mpr hi, rfl⟩

/-- After all home writes, every block outside the log has its final
contents. -/
theorem installs_home (hval : ValidTransaction area transaction)
    (hrepl : Replayable area disk transaction homes) (block : ℕ) (hout : ¬ area.Contains block) :
    applyTrace (installs transaction) disk block = homes block := by
  by_cases hlisted : ∃ entry ∈ transaction, entry.1.toNat = block
  · obtain ⟨entry, he, rfl⟩ := hlisted
    rw [hrepl.target entry he]
    apply applyWrites_constant
    · intro write hwrite heq
      obtain ⟨diskWrite, hmem, rfl⟩ := List.mem_map.mp hwrite
      obtain ⟨other, ho, rfl⟩ := mem_installs hmem
      have hb : other.1 = entry.1 := BitVec.eq_of_toNat_eq heq
      rw [← List.inj_on_of_nodup_map hval.distinct ho he hb]
      rfl
    · right
      exact ⟨_, List.mem_map_of_mem (installs_mem he), rfl⟩
  · have ho : ∀ entry ∈ transaction, entry.1.toNat ≠ block :=
      fun entry he heq => hlisted ⟨entry, he, heq⟩
    rw [← hrepl.home block hout ho]
    apply applyWrites_untouched
    intro write hwrite
    obtain ⟨diskWrite, hmem, rfl⟩ := List.mem_map.mp hwrite
    obtain ⟨entry, he, rfl⟩ := mem_installs hmem
    exact ho entry he

end Xv6.CrashRecovery
