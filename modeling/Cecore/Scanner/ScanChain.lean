import Cecore.Scanner.Rescan

/-!
# Chains of scans

A first scan is followed by next scans and prunes, while memory changes. `Chain` lists the results
this leads to. `chain_invariant` says that the parallel streams of such a result stay paired: the
first value of a row is what the first scan saw at its address, its value what the latest next scan
saw there, and batches and workers make no difference. An all-types scan saw less than eight bytes
where its range ends.
-/

set_option autoImplicit false
set_option relaxedAutoImplicit false

namespace Cecore.Scanner

open Library.Stride Platform

/-! ### Pruning -/

/-- `value` into a buffer that holds `buf`. -/
def ScanResult.valueInto (r : ScanResult) (index size : ℕ) (buf : List UInt8) : List UInt8 :=
  match r.shardAt index with
  | none => buf
  | some s => (pread s.files.values ((index - s.cum) * size) size).getD (List.replicate size 0)

/-- `firstValue` into a buffer that holds `buf`. -/
def ScanResult.firstValueInto (r : ScanResult) (index size : ℕ) (buf : List UInt8) : List UInt8 :=
  match r.shardAt index with
  | none => buf
  | some s =>
    match s.files.firstValues with
    | none => r.valueInto index size buf
    | some file => (pread file ((index - s.cum) * size) size).getD (List.replicate size 0)

/-- One turn of the loop of `pruneScanResult`: the result written so far, `vbuf` and `fbuf`. -/
def pruneRow (src : ScanResult) (valueSize : ℕ) (remove : List Bool)
    (out : Writer × List UInt8 × List UInt8) (index : ℕ) : Writer × List UInt8 × List UInt8 :=
  if remove.getD index false = true then out
  else
    let vbuf := src.valueInto index valueSize out.2.1
    let fbuf := src.firstValueInto index valueSize out.2.2
    (out.1.addResult ⟨src.address index, vbuf, fbuf⟩, vbuf, fbuf)

/-- `pruneScanResult`. -/
def pruneScanResult (src : ScanResult) (valueSize : ℕ) (remove : List Bool) : ScanResult :=
  let zeros := List.replicate valueSize 0
  ((List.range src.count).foldl (pruneRow src valueSize remove)
    (Writer.new true, zeros, zeros)).1.finalize

/-- The rows that are not flagged. -/
def keptRows (remove : List Bool) (rows : List Row) : List Row :=
  (rows.zipIdx.filter fun entry ↦ !remove.getD entry.2 false).map Prod.fst

theorem keptRows_sublist (remove : List Bool) (rows : List Row) :
    (keptRows remove rows).Sublist rows := by
  have hkept := (List.filter_sublist (l := rows.zipIdx)
    (p := fun entry ↦ !remove.getD entry.2 false)).map Prod.fst
  rwa [List.zipIdx_map_fst] at hkept

/-- A stored row is read back whatever the buffers held. -/
theorem Stored.read_row {size : ℕ} {r : ScanResult} {rows : List Row}
    (h : Stored size 0 r.shards rows) (hcount : r.count = rows.length) {index : ℕ} {row : Row}
    (hrow : rows[index]? = some row) (buf : List UInt8) :
    r.address index = row.address ∧ r.valueInto index size buf = row.value ∧
      r.firstValueInto index size buf = row.firstValue := by
  have hlt : index < rows.length := (List.getElem?_eq_some_iff.mp hrow).1
  have hread : (r.rows size)[index]? = some row := by rw [rows_eq h hcount, hrow]
  rw [ScanResult.rows, List.getElem?_map, List.getElem?_range (by omega), Option.map_some] at hread
  have hsame := Option.some.inj hread
  obtain ⟨shard, -, -, -, hfind, -⟩ := h.find? (Nat.zero_le index) (by omega)
  have hshard : r.shardAt index = some shard := hfind
  have hvalue : r.valueInto index size buf = r.value index size := by
    rw [ScanResult.valueInto, ScanResult.value, hshard]
  have hfirst : r.firstValueInto index size buf = r.firstValue index size := by
    rw [ScanResult.firstValueInto, ScanResult.firstValue, hshard]
    dsimp only
    cases shard.files.firstValues with
    | none => exact hvalue
    | some _ => rfl
  rw [hvalue, hfirst, ← hsame]
  exact ⟨rfl, rfl, rfl⟩

/-- The loop adds the rows that are not flagged. -/
theorem foldl_pruneRow {size : ℕ} {r : ScanResult} {rows : List Row}
    (h : Stored size 0 r.shards rows) (hcount : r.count = rows.length) (remove : List Bool)
    (entries : List (Row × ℕ)) (hentries : ∀ entry ∈ entries, rows[entry.2]? = some entry.1)
    (out : Writer × List UInt8 × List UInt8) :
    ((entries.map Prod.snd).foldl (pruneRow r size remove) out).1 =
      ((entries.filter fun entry ↦ !remove.getD entry.2 false).map Prod.fst).foldl
        Writer.addResult out.1 := by
  induction entries generalizing out with
  | nil => rfl
  | cons entry rest ih =>
    have hrest := fun other hother ↦ hentries other (List.mem_cons_of_mem entry hother)
    rw [List.map_cons, List.foldl_cons, ih hrest, pruneRow]
    by_cases hflag : remove.getD entry.2 false = true
    · rw [if_pos hflag, List.filter_cons_of_neg (by simp only [hflag]; decide)]
    · have hentry := hentries entry List.mem_cons_self
      obtain ⟨haddress, hvalue, -⟩ := h.read_row hcount hentry out.2.1
      obtain ⟨-, -, hfirst⟩ := h.read_row hcount hentry out.2.2
      rw [if_neg hflag, List.filter_cons_of_pos (by simpa using hflag), List.map_cons,
        List.foldl_cons, haddress, hvalue, hfirst]

/-- A prune writes the rows that are not flagged to a new directory. -/
theorem pruneScanResult_eq {size : ℕ} {r : ScanResult} {rows : List Row}
    (h : Stored size 0 r.shards rows) (hcount : r.count = rows.length) (remove : List Bool) :
    pruneScanResult r size remove = writeRows true (keptRows remove rows) := by
  have hindices : List.range r.count = rows.zipIdx.map Prod.snd := by
    rw [List.zipIdx_map_snd, hcount, List.range_eq_range']
  have hentries : ∀ entry ∈ rows.zipIdx, rows[entry.2]? = some entry.1 :=
    fun entry hentry ↦ List.mem_zipIdx_iff_getElem?.mp hentry
  unfold pruneScanResult writeRows keptRows
  dsimp only
  rw [hindices, foldl_pruneRow h hcount remove rows.zipIdx hentries]

variable {host : Host} {config : ScanConfig} {proc : ProcessHandle} {size : ℕ}

/-! ### Windows that are cut off -/

/-- What can cut a window short: a byte that cannot be fetched, the end of a scanned range, or a
chunk length that wraps around. -/
def Visit.Cut (host : Host) (config : ScanConfig) (proc : ProcessHandle) (size : ℕ) (v : Visit) :
    Prop :=
  proc.memory (v.address + v.length) = none ∨
  (∃ region ∈ scanRegions config proc.queryRegions,
    ∃ range ∈ regionRanges host proc (skipNonResident host config size) region,
      v.address + v.length = range.2) ∨
  sizeModulus ≤ ownedLen host config + (size - 1)

/-- A transfer ends early at a byte that cannot be fetched. -/
theorem memory_eq_none_of_length_lt {memory : ℕ → Option UInt8} {address size : ℕ}
    (hshort : (readPrefix memory address size).length < size) :
    memory (address + (readPrefix memory address size).length) = none := by
  induction size generalizing address with
  | zero => omega
  | succ size ih =>
    rw [readPrefix] at hshort ⊢
    cases hbyte : memory address with
    | none => exact hbyte
    | some byte =>
      simp only [hbyte, List.length_cons] at hshort ⊢
      have hrest := @ih (address + 1) (by omega)
      rwa [Nat.add_right_comm, Nat.add_assoc] at hrest

/-- A chunk that reads less than its lookahead asks for reaches the end of its range. -/
theorem chunksOf_short {owned overlap : ℕ} (howned : 0 < owned) {range : ℕ × ℕ} {c : Chunk}
    (hc : c ∈ chunksOf owned overlap range) (hshort : c.readLen < c.owned + overlap) :
    c.base + c.readLen = range.2 ∨ sizeModulus ≤ owned + overlap := by
  unfold chunksOf at hc
  split_ifs at hc with hempty
  · simp at hc
  · obtain ⟨ws, hws, rfl⟩ := List.mem_map.mp hc
    have hlt := ((mem_offsets howned).mp hws).1
    by_cases hwrap : sizeModulus ≤ owned + overlap
    · exact Or.inr hwrap
    · left
      dsimp only at hshort ⊢
      rw [Nat.mod_eq_of_lt (by omega)] at hshort ⊢
      omega

/-- A window of a first scan has at least one byte, all its bytes were fetched, and it is as long as
a value unless something cuts it short. -/
theorem window_of_mem_scanVisits (hsize : valueSizeForConfig host config = .ok size) {v : Visit}
    (hv : v ∈ scanVisits host config proc size) :
    1 ≤ v.length ∧ (readPrefix proc.memory v.address v.length).length = v.length ∧
      (v.length = size ∨ v.Cut host config proc size) := by
  have hpos := one_le_of_valueSizeForConfig hsize
  obtain ⟨region, hregion, hv⟩ := List.mem_flatMap.mp hv
  obtain ⟨range, hrange, hv⟩ := List.mem_flatMap.mp hv
  obtain ⟨c, hc, hv⟩ := List.mem_flatMap.mp hv
  obtain ⟨offset, hoffset, rfl⟩ := List.mem_map.mp hv
  have hlt := ((mem_offsets (Matcher.one_le_stride host config)).mp hoffset).1
  have hgot : chunkGot proc c ≤ c.readLen := length_readPrefix_le _ _ _
  rw [width_matcher hsize]
  refine ⟨by dsimp only; omega, ?_, ?_⟩
  · have hslice := @slice_readPrefix proc.memory c.base c.readLen offset
      (min size (chunkGot proc c - offset)) (by unfold chunkGot at hlt ⊢; omega)
    dsimp only
    rw [← hslice, List.length_take, List.length_drop]
    unfold chunkGot
    omega
  · by_cases hfull : size ≤ chunkGot proc c - offset
    · exact Or.inl (Nat.min_eq_left hfull)
    · right
      unfold Visit.Cut
      dsimp only
      rw [Nat.min_eq_right (by omega), show c.base + offset + (chunkGot proc c - offset) =
        c.base + chunkGot proc c by omega]
      by_cases hall : chunkGot proc c < c.readLen
      · exact Or.inl (memory_eq_none_of_length_lt hall)
      · right
        have hend := chunksOf_short (ownedLen_pos host config) hc (by omega)
        rw [show chunkGot proc c = c.readLen by omega]
        exact hend.imp_left fun hend ↦ ⟨region, hregion, range, hrange, hend⟩

/-! ### Chains -/

/-- The results a first scan leads to through next scans and prunes, with the size of their values
and the target of the latest next scan. Each scan has its own host, configuration and target. -/
inductive Chain (host : Host) (config : ScanConfig) (proc : ProcessHandle) :
    ℕ → Option ProcessHandle → ScanResult → Prop
  | first {size : ℕ} {r : ScanResult}
      (hsize : ∀ width, valueSizeForConfig host config = .ok width → width = size)
      (hscan : firstScan host config proc = .ok r) : Chain host config proc size none r
  | next {size : ℕ} {latest : Option ProcessHandle} {r : ScanResult}
      (hchain : Chain host config proc size latest r) {host' : Host} {config' : ScanConfig}
      {proc' : ProcessHandle} {size' : ℕ} {r' : ScanResult}
      (hsize : valueSizeForConfig host' config' = .ok size')
      (hscan : nextScan host' config' proc' r = .ok r') :
      Chain host config proc size' (some proc') r'
  | prune {size : ℕ} {latest : Option ProcessHandle} {r : ScanResult}
      (hchain : Chain host config proc size latest r) (remove : List Bool) :
      Chain host config proc size latest (pruneScanResult r size remove)

/-- Where the bytes of a row come from: its first value from the first scan, its value from the
latest next scan, or from the first scan while there was none. -/
structure Provenance (host : Host) (config : ScanConfig) (proc : ProcessHandle) (size : ℕ)
    (latest : Option ProcessHandle) (row : Row) : Prop where
  complete : row.firstValue.length = size ∧ row.value.length = size
  firstValue : config.valueType ≠ .all →
    row.firstValue = readPrefix proc.memory row.address size
  /-- An all-types record is padded with zeros where its window was cut off. -/
  firstWindow : config.valueType = .all → ∃ n, 1 ≤ n ∧ n ≤ 8 ∧
    (readPrefix proc.memory row.address n).length = n ∧
    row.firstValue = allWindow (readPrefix proc.memory row.address n) ∧
    (n = 8 ∨ Visit.Cut host config proc 8 ⟨row.address, n⟩)
  value : ∀ current, latest = some current →
    row.value = readPrefix current.memory row.address size
  unscanned : latest = none → row.value = row.firstValue

/-- The rows a result of a chain stores. -/
structure StoredRows (size : ℕ) (r : ScanResult) (rows : List Row) : Prop where
  stored : Stored size 0 r.shards rows
  count : r.count = rows.length
  recordable : Recordable size rows
  positive : rows ≠ [] → 1 ≤ size

theorem StoredRows.rows_eq {r : ScanResult} {rows : List Row} (h : StoredRows size r rows) :
    r.rows size = rows :=
  Scanner.rows_eq h.stored h.count

theorem storedRows_writeRows {rows : List Row} {storeFirst : Bool} (hrows : Recordable size rows)
    (hfirst : storeFirst = false → ∀ row ∈ rows, row.firstValue = row.value)
    (hpositive : rows ≠ [] → 1 ≤ size) : StoredRows size (writeRows storeFirst rows) rows where
  stored := (stored_writeRows hrows hfirst).1
  count := (stored_writeRows hrows hfirst).2
  recordable := hrows
  positive := hpositive

theorem storedRows_empty (size : ℕ) (storeFirst : Bool) :
    StoredRows size (writeRows storeFirst []) [] :=
  storedRows_writeRows (by simp [Recordable]) (by simp) (by simp)

/-! ### One step of a chain -/

theorem checkNextScan_of_ok {previous r : ScanResult}
    (hscan : nextScan host config proc previous = .ok r) : checkNextScan config = .ok () := by
  unfold nextScan at hscan
  cases hcheck : checkNextScan config with
  | error message => simp [hcheck] at hscan
  | ok _ => rfl

/-- Some rows of another width make a next scan fail. -/
theorem size_eq_of_nextScan (hsize : valueSizeForConfig host config = .ok size) {width : ℕ}
    {previous r : ScanResult} {rows : List Row} (h : StoredRows width previous rows)
    (hne : rows ≠ []) (hscan : nextScan host config proc previous = .ok r) : width = size := by
  have hstride := recordStride_eq h.stored (h.positive hne) hne
  have hcount : 0 < previous.count := by
    rw [h.count]
    exact List.length_pos_iff.mpr hne
  have hwidth := h.positive hne
  unfold nextScan at hscan
  rw [checkNextScan_of_ok hscan, hsize] at hscan
  dsimp only at hscan
  by_contra hdifferent
  rw [if_pos ⟨hcount, by omega, by omega⟩] at hscan
  cases hscan

/-- A next scan that succeeds keeps what `rescanRow` keeps, for any division of the work. -/
theorem StoredRows.nextScanWith (hsize : valueSizeForConfig host config = .ok size) {width : ℕ}
    {previous r : ScanResult} {rows : List Row} (h : StoredRows width previous rows)
    (hscan : nextScan host config proc previous = .ok r) {batch nThreads : ℕ} (hbatch : 1 ≤ batch)
    (hthreads : 1 ≤ nThreads) :
    ∃ other, Scanner.nextScanWith batch nThreads host config proc previous = .ok other ∧
      StoredRows size other (rows.filterMap (rescanRow host config proc size)) := by
  have hcheck := checkNextScan_of_ok hscan
  have hpos := one_le_of_valueSizeForConfig hsize
  by_cases hne : rows = []
  · subst hne
    refine ⟨writeRows true [], ?_, storedRows_empty size true⟩
    have hzero : previous.count = 0 := h.count
    unfold Scanner.nextScanWith
    rw [hcheck, hsize]
    dsimp only
    rw [if_neg (by omega), if_pos hzero]
  · obtain rfl := size_eq_of_nextScan hsize h hne hscan
    obtain ⟨other, hother, hstored, hcount⟩ := @nextScanWith_stored host config proc width batch
      nThreads hbatch hthreads hsize hcheck previous rows h.stored h.count h.recordable
    exact ⟨other, hother, {
      stored := hstored
      count := hcount
      recordable := recordable_filterMap_rescanRow h.recordable
      positive := fun _ ↦ hpos }⟩

theorem StoredRows.nextScan (hsize : valueSizeForConfig host config = .ok size) {width : ℕ}
    {previous r : ScanResult} {rows : List Row} (h : StoredRows width previous rows)
    (hscan : Scanner.nextScan host config proc previous = .ok r) :
    StoredRows size r (rows.filterMap (rescanRow host config proc size)) := by
  obtain ⟨other, hother, hrows⟩ := h.nextScanWith hsize hscan (by decide : 1 ≤ batchSize)
    (one_le_nextWorkerCount host proc previous.count)
  rw [← nextScan_eq_with, hscan] at hother
  rwa [Except.ok.inj hother]

theorem StoredRows.prune {r : ScanResult} {rows : List Row} (h : StoredRows size r rows)
    (remove : List Bool) :
    StoredRows size (pruneScanResult r size remove) (keptRows remove rows) := by
  have hsub := keptRows_sublist remove rows
  rw [pruneScanResult_eq h.stored h.count]
  refine storedRows_writeRows (h.recordable.mono fun row hrow ↦ hsub.subset hrow) (by simp) ?_
  intro hne
  apply h.positive
  rintro rfl
  exact hne (List.sublist_nil.mp hsub)

/-- A first scan stores the records of its windows, or nothing where its configuration has no value
size. -/
theorem storedRows_firstScan {r : ScanResult} (hscan : firstScan host config proc = .ok r)
    (hsize : ∀ width, valueSizeForConfig host config = .ok width → width = size) :
    ∃ rows, StoredRows size r rows ∧ ∀ row ∈ rows, valueSizeForConfig host config = .ok size ∧
      row ∈ (scanHits host config proc size).map Hit.row := by
  cases hvalue : valueSizeForConfig host config with
  | ok width =>
    obtain rfl := hsize width hvalue
    obtain ⟨hstored, hcount⟩ := firstScan_stored hvalue hscan
    exact ⟨_, ⟨hstored, hcount, recordable_scanHits hvalue,
      fun _ ↦ one_le_of_valueSizeForConfig hvalue⟩, fun row hrow ↦ ⟨rfl, hrow⟩⟩
  | error message =>
    refine ⟨[], ?_, by simp⟩
    unfold firstScan at hscan
    rw [checkFirstScan_of_ok hscan, hvalue] at hscan
    dsimp only at hscan
    split_ifs at hscan
    rw [← Except.ok.inj hscan]
    exact storedRows_empty size false

/-! ### The bytes of the rows -/

/-- The rows of a first scan are what it saw. -/
theorem provenance_firstScan (hsize : valueSizeForConfig host config = .ok size) {row : Row}
    (hrow : row ∈ (scanHits host config proc size).map Hit.row) :
    Provenance host config proc size none row := by
  obtain ⟨hvalueLength, hfirstLength, -⟩ := recordable_scanHits hsize row hrow
  obtain ⟨v, hv, value, hvalue, rfl⟩ := mem_rows_iff.mp hrow
  obtain ⟨hone, hcomplete, hcut⟩ := window_of_mem_scanVisits hsize hv
  have hle := length_le_of_mem_scanVisits hsize hv
  refine ⟨⟨hfirstLength, hvalueLength⟩, ?_, ?_, ?_, fun _ ↦ rfl⟩
  · intro hall
    obtain ⟨stride, width, pred, hsingle⟩ := matcher_eq_single host hall
    rw [hsingle] at hvalue
    have hbytes := (Matcher.mem_report_single.mp hvalue).1
    dsimp only at hfirstLength ⊢
    rw [hbytes, hcomplete] at hfirstLength
    rw [hbytes, hfirstLength]
  · intro hall
    have height : size = 8 := by
      have hwidth := width_matcher hsize
      rw [matcher_eq_allTypes hall] at hwidth
      exact hwidth.symm
    subst height
    rw [matcher_eq_allTypes hall] at hvalue
    obtain ⟨_, _, rfl⟩ := List.mem_map.mp hvalue
    exact ⟨v.length, hone, hle, hcomplete, rfl, hcut⟩
  · intro current hcurrent
    cases hcurrent

theorem rescanRow_eq_some {row kept : Row} (hkept : rescanRow host config proc size row = some kept) :
    kept.address = row.address ∧ kept.firstValue = row.firstValue ∧ kept.value.length = size ∧
      kept.value = readPrefix proc.memory kept.address size := by
  unfold rescanRow at hkept
  dsimp only at hkept
  split_ifs at hkept with hmatch
  rw [← Option.some.inj hkept]
  exact ⟨rfl, rfl, hmatch.1, rfl⟩

/-- A next scan keeps the first value of a row and reads its value again. -/
theorem Provenance.rescan {latest : Option ProcessHandle} {row kept : Row}
    (h : Provenance host config proc size latest row) {host' : Host} {config' : ScanConfig}
    {proc' : ProcessHandle} (hkept : rescanRow host' config' proc' size row = some kept) :
    Provenance host config proc size (some proc') kept := by
  obtain ⟨haddress, hfirst, hlength, hvalue⟩ := rescanRow_eq_some hkept
  refine ⟨⟨hfirst ▸ h.complete.1, hlength⟩, ?_, ?_, ?_, by simp⟩
  · rw [haddress, hfirst]
    exact h.firstValue
  · rw [haddress, hfirst]
    exact h.firstWindow
  · intro current hcurrent
    rw [← Option.some.inj hcurrent]
    exact hvalue

theorem map_address_rescan (host : Host) (config : ScanConfig) (proc : ProcessHandle) (size : ℕ)
    (rows : List Row) :
    ((rows.filterMap (rescanRow host config proc size)).map Row.address).Sublist
      (rows.map Row.address) := by
  induction rows with
  | nil => exact List.Sublist.refl _
  | cons row rest ih =>
    rw [List.filterMap_cons, List.map_cons]
    cases hkept : rescanRow host config proc size row with
    | none => exact ih.cons _
    | some kept =>
      rw [List.map_cons, (rescanRow_eq_some hkept).1]
      exact ih.cons_cons _

/-- Every result of a chain stores rows whose bytes come from where they should. -/
theorem Chain.storedRows {latest : Option ProcessHandle} {r : ScanResult}
    (h : Chain host config proc size latest r) :
    ∃ rows, StoredRows size r rows ∧ ∀ row ∈ rows, Provenance host config proc size latest row := by
  induction h with
  | first hsize hscan =>
    obtain ⟨rows, hstored, hrows⟩ := storedRows_firstScan hscan hsize
    exact ⟨rows, hstored, fun row hrow ↦
      provenance_firstScan (hrows row hrow).1 (hrows row hrow).2⟩
  | next hchain hsize hscan ih =>
    obtain ⟨rows, hstored, hrows⟩ := ih
    refine ⟨_, hstored.nextScan hsize hscan, ?_⟩
    intro kept hkept
    obtain ⟨row, hrow, hrescan⟩ := List.mem_filterMap.mp hkept
    obtain rfl := size_eq_of_nextScan hsize hstored (List.ne_nil_of_mem hrow) hscan
    exact (hrows row hrow).rescan hrescan
  | prune hchain remove ih =>
    obtain ⟨rows, hstored, hrows⟩ := ih
    exact ⟨_, hstored.prune remove, fun row hrow ↦
      hrows row ((keptRows_sublist remove rows).subset hrow)⟩

/-! ### The result -/

/-- In every result of a chain the rows carry the bytes of the first scan and of the latest next
scan. A further next scan or prune keeps a subsequence of the addresses, and no division into
batches and workers changes what a next scan returns. -/
theorem chain_invariant {latest : Option ProcessHandle} {r : ScanResult}
    (h : Chain host config proc size latest r) :
    (∀ row ∈ r.rows size, Provenance host config proc size latest row) ∧
    (∀ host' config' proc' size' r', valueSizeForConfig host' config' = .ok size' →
      nextScan host' config' proc' r = .ok r' →
        ((r'.rows size').map Row.address).Sublist ((r.rows size).map Row.address) ∧
        ∀ batch nThreads, 1 ≤ batch → 1 ≤ nThreads → ∃ other,
          nextScanWith batch nThreads host' config' proc' r = .ok other ∧
            other.rows size' = r'.rows size') ∧
    (∀ host' config' proc' message, nextScan host' config' proc' r = .error message →
      ∀ batch nThreads, nextScanWith batch nThreads host' config' proc' r = .error message) ∧
    ∀ remove, (((pruneScanResult r size remove).rows size).map Row.address).Sublist
      ((r.rows size).map Row.address) := by
  obtain ⟨rows, hstored, hrows⟩ := h.storedRows
  rw [hstored.rows_eq]
  refine ⟨hrows, ?_, ?_, ?_⟩
  · intro host' config' proc' size' r' hsize hscan
    have hnext := hstored.nextScan hsize hscan
    rw [hnext.rows_eq]
    refine ⟨map_address_rescan host' config' proc' size' rows, ?_⟩
    intro batch nThreads hbatch hthreads
    obtain ⟨other, hother, hsame⟩ := hstored.nextScanWith hsize hscan hbatch hthreads
    exact ⟨other, hother, hsame.rows_eq⟩
  · intro host' config' proc' message hscan batch nThreads
    unfold nextScan at hscan
    unfold nextScanWith
    cases hcheck : checkNextScan config' with
    | error text => simpa [hcheck] using hscan
    | ok _ =>
      cases hsize : valueSizeForConfig host' config' with
      | error text => simpa [hcheck, hsize] using hscan
      | ok size' =>
        rw [hcheck, hsize] at hscan
        dsimp only at hscan ⊢
        split_ifs at hscan ⊢
        exact hscan
  · intro remove
    rw [(hstored.prune remove).rows_eq]
    exact (keptRows_sublist remove rows).map Row.address

/-- An aligned search for 16-bit zeros, an unchanged scan and a prune of the first row. -/
theorem chain_invariant_zeroSearch :
    ∃ r, Chain sampleHost (zeroSearch 4) zeroProcess 2 (some zeroProcess) r ∧ r.count = 3 ∧
      ∀ row ∈ r.rows 2, row.value = readPrefix zeroProcess.memory row.address 2 := by
  have hfirst := @Chain.first sampleHost (zeroSearch 4) zeroProcess 2 _
    (fun width hwidth ↦ (Except.ok.inj hwidth).symm) rfl
  have hnext := @Chain.next _ _ _ _ _ _ hfirst sampleHost (zeroSearch 4).unchanged zeroProcess 2 _
    rfl rfl
  have hprune := hnext.prune [true]
  refine ⟨_, hprune, by decide, ?_⟩
  intro row hrow
  exact ((chain_invariant hprune).1 row hrow).value zeroProcess rfl

/-- Four zero bytes and four others, in one private mapping. -/
def cutProcess : ProcessHandle where
  memory := fun address ↦ if address < 0x1000 ∨ 0x1008 ≤ address then none
    else if address < 0x1004 then some 0 else some 1
  queryRegions := [⟨0x1000, 8, MemProt.read ||| MemProt.write, .privateMap, .committed⟩]
  pagemap := fun _ ↦ none
  supportsConcurrentReads := true

/-- An all-types search for zero that stops before the other bytes. -/
def cutSearch : ScanConfig := { valueType := .all, stopAddress := 0x1004 }

/-- Whether a next scan keeps a row whose first value is not what was at its address. -/
def keepsPadded (host : Host) (config next : ScanConfig) (proc : ProcessHandle) (size : ℕ) : Bool :=
  match firstScan host config proc with
  | .error _ => false
  | .ok previous =>
    match nextScan host next proc previous with
    | .error _ => false
    | .ok r => (r.rows size).any fun row ↦
        decide (row.firstValue ≠ readPrefix proc.memory row.address size)

/-- The first scan pads the window with zeros where its range ends, and the next scan reads the
other bytes there: the row survives with a first value that was never in memory. -/
theorem cutSearch_pads_firstValue :
    ∃ r row, Chain sampleHost cutSearch cutProcess 8 (some cutProcess) r ∧ row ∈ r.rows 8 ∧
      row.firstValue ≠ readPrefix cutProcess.memory row.address 8 := by
  have hpadded : keepsPadded sampleHost cutSearch { cutSearch with compareType := .changed }
      cutProcess 8 = true := by decide
  unfold keepsPadded at hpadded
  cases hscan : firstScan sampleHost cutSearch cutProcess with
  | error message => simp [hscan] at hpadded
  | ok previous =>
    cases hnext : nextScan sampleHost { cutSearch with compareType := .changed } cutProcess
        previous with
    | error message => simp [hscan, hnext] at hpadded
    | ok r =>
      simp only [hscan, hnext, List.any_eq_true, decide_eq_true_eq] at hpadded
      obtain ⟨row, hrow, hdiffers⟩ := hpadded
      have hfirst := @Chain.first sampleHost cutSearch cutProcess 8 previous
        (fun width hwidth ↦ (Except.ok.inj hwidth).symm) hscan
      exact ⟨r, row, hfirst.next rfl hnext, hrow, hdiffers⟩

end Cecore.Scanner
