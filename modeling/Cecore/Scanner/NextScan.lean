import Cecore.Scanner.Visits

/-!
# The next scan

`MemoryScanner::nextScan`: the stored matches of the previous result are read back in batches, their
values are read again, and `nextScanCompare` decides which of them stay. `nextScanWith` leaves the
length of a batch and the number of workers open; `nextScanWith_stored` removes both, and the files:
the result is `rescanRow` applied to every stored match.
-/

set_option autoImplicit false
set_option relaxedAutoImplicit false

namespace Cecore.Scanner

open Library.LittleEndian Library.Records Platform

/-! ### Comparing one match -/

def supportsPercentageCompare : ScanCompare → Bool
  | .greater | .less | .between | .increased | .decreased => true
  | _ => false

/-- `compareNextNumeric<T>` for an integer type. -/
def compareNextInt (unit : FloatUnit) (config : ScanConfig) (type : IntType)
    (currentVal oldVal : List UInt8) : Bool :=
  let cur := type.decode (currentVal.take type.width)
  let old := type.decode (oldVal.take type.width)
  if config.percentageScan && supportsPercentageCompare config.compareType then
    unit.percentage (.int type) config.compareType config.percentageValue config.percentageValue2
      currentVal oldVal
  else match config.compareType with
    | .sameAsFirst => decide (cur = old)
    | .increasedBy => decide (old < cur) && decide (type.cast (cur - old) = type.cast config.intValue)
    | .decreasedBy => decide (cur < old) && decide (type.cast (old - cur) = type.cast config.intValue)
    | cmp =>
      if cmp.atLeastChanged then getCompare intOperators cmp cur old 0
      else getCompare intOperators cmp cur (type.cast config.intValue) (type.cast config.intValue2)

/-- `compareNextNumeric<T>` for a floating-point type. -/
def compareNextFloat (unit : FloatUnit) (config : ScanConfig) (format : FloatFormat)
    (currentVal oldVal : List UInt8) : Bool :=
  let cur := leNat (currentVal.take format.width)
  let old := leNat (oldVal.take format.width)
  if config.percentageScan && supportsPercentageCompare config.compareType then
    unit.percentage (.float format) config.compareType config.percentageValue
      config.percentageValue2 currentVal oldVal
  else match config.compareType with
    | .sameAsFirst => format.eq cur old
    | .increasedBy | .decreasedBy =>
      unit.deltaBy format config.compareType config.floatValue cur old
    | cmp =>
      if cmp.atLeastChanged then getCompare format.operators cmp cur old 0
      else compareFloating unit format config cur (floatNeedle unit format config.floatValue)
        (floatNeedle unit format config.floatValue2)

/-- The compare of strings and byte patterns, with the exact compare of the type. -/
def compareNextBytes (config : ScanConfig) (currentVal oldVal firstVal : List UInt8)
    (exact : Bool) : Bool :=
  if config.compareType = .sameAsFirst then decide (currentVal = firstVal)
  else if config.compareType.atLeastChanged then
    decide (currentVal ≠ oldVal) == (decide (config.compareType = .changed) ||
      decide (config.compareType = .increased) || decide (config.compareType = .decreased))
  else if config.compareType = .exact then exact
  else decide (config.compareType = .unknown)

/-- The compare of groups and formulas, with the exact compare of the type. -/
def compareNextBlock (config : ScanConfig) (currentVal oldVal firstVal : List UInt8)
    (exact : Bool) : Bool :=
  match config.compareType with
  | .unknown => true
  | .changed => decide (currentVal ≠ oldVal)
  | .unchanged => decide (currentVal = oldVal)
  | .sameAsFirst => decide (currentVal = firstVal)
  | .exact => exact
  | _ => false

/-- The needle of a string scan; it is only asked for after the value size, which throws first. -/
def stringNeedle (host : Host) (config : ScanConfig) : List UInt8 :=
  match encodeStringBytes host config.stringValue config.stringEncoding with
  | .ok needle => needle
  | .error _ => []

/-- `nextScanCompare`. -/
def nextScanCompare (host : Host) (config : ScanConfig) (valueSize : ℕ)
    (currentVal oldVal firstVal : List UInt8) : Bool :=
  let compareVal := if config.compareType = .sameAsFirst then firstVal else oldVal
  match config.valueType with
  | .byte => compareNextInt host.floatUnit config .uint8 currentVal compareVal
  | .int16 => compareNextInt host.floatUnit config .int16 currentVal compareVal
  | .int32 => compareNextInt host.floatUnit config .int32 currentVal compareVal
  | .int64 => compareNextInt host.floatUnit config .int64 currentVal compareVal
  | .pointer => compareNextInt host.floatUnit config .uintptr currentVal compareVal
  | .float => compareNextFloat host.floatUnit config .single currentVal compareVal
  | .double => compareNextFloat host.floatUnit config .double currentVal compareVal
  | .string => compareNextBytes config currentVal oldVal firstVal
      (decide ((stringNeedle host config).length = valueSize) &&
        decide (currentVal = stringNeedle host config))
  | .unicodeString => compareNextBytes config currentVal oldVal firstVal
      (decide ((utf16LeBytes config.stringValue).length = valueSize) &&
        decide (currentVal = utf16LeBytes config.stringValue))
  | .byteArray => compareNextBytes config currentVal oldVal firstVal
      (compareMaskedBytes currentVal config.byteArray config.byteArrayMask)
  | .binary => compareNextBytes config currentVal oldVal firstVal
      (decide (config.byteArray ≠ []) &&
        decide (config.byteMask.length = config.byteArray.length) &&
        maskedMatch currentVal config.byteArray config.byteMask)
  | .grouped => compareNextBlock config currentVal oldVal firstVal
      (groupedBlockMatches host.floatUnit config valueSize currentVal)
  | .custom => compareNextBlock config currentVal oldVal firstVal
      (config.customFormula ≠ [] &&
        host.evalFormula config.customFormula currentVal compareVal true = some true)
  | .all =>
    if config.compareType = .sameAsFirst then decide (currentVal = firstVal)
    else decide (currentVal ≠ oldVal) == decide (config.compareType = .changed)

/-! ### Workers -/

/-- `BATCH`. -/
def batchSize : ℕ := 4096

/-- `kMTFloor`: smaller results are scanned by one worker. -/
def kMTFloor : ℕ := 2 ^ 16

/-- A record of a batch whose value was read again, if it stays. -/
def scanRecord (host : Host) (config : ScanConfig) (proc : ProcessHandle) (size : ℕ)
    (batch : Batch) (i : ℕ) : Option Row :=
  match (proc.readMany batch.addresses size)[i]? with
  | some (some currentVal) =>
    let oldVal := (batch.oldValues.drop (i * size)).take size
    let firstVal := (batch.firstValues.drop (i * size)).take size
    if nextScanCompare host config size currentVal oldVal firstVal then
      some ⟨batch.addresses.getD i 0, currentVal, firstVal⟩
    else none
  | _ => none

/-- One batch: the matches that stay. -/
def scanBatch (host : Host) (config : ScanConfig) (proc : ProcessHandle) (size n : ℕ)
    (batch : Batch) : List Row :=
  (List.range n).filterMap (scanRecord host config proc size batch)

/-- A worker's loop over `[idx, last)`. A turn advances by at least one record. -/
def nextScanWorker (host : Host) (config : ScanConfig) (proc : ProcessHandle) (size : ℕ)
    (shards : List Shard) : (turns idx last : ℕ) → List Row
  | 0, _, _ => []
  | turns + 1, idx, last =>
    if idx < last then
      let n := min batchSize (last - idx)
      match readShards shards size n idx n with
      | none => []
      | some batch => scanBatch host config proc size n batch ++
          nextScanWorker host config proc size shards turns (idx + n) last
    else []

/-- The same loop with batches of any length. -/
def nextScanWorkerWith (batch : ℕ) (host : Host) (config : ScanConfig) (proc : ProcessHandle)
    (size : ℕ) (shards : List Shard) : (turns idx last : ℕ) → List Row
  | 0, _, _ => []
  | turns + 1, idx, last =>
    if idx < last then
      let n := min batch (last - idx)
      match readShards shards size n idx n with
      | none => []
      | some records => scanBatch host config proc size n records ++
          nextScanWorkerWith batch host config proc size shards turns (idx + n) last
    else []

theorem nextScanWorker_eq_with (host : Host) (config : ScanConfig) (proc : ProcessHandle)
    (size : ℕ) (shards : List Shard) (turns idx last : ℕ) :
    nextScanWorker host config proc size shards turns idx last =
      nextScanWorkerWith batchSize host config proc size shards turns idx last := by
  induction turns generalizing idx with
  | zero => rfl
  | succ turns ih =>
    rw [nextScanWorker, nextScanWorkerWith]
    simp only [ih]

def nextWorkerCount (host : Host) (proc : ProcessHandle) (total : ℕ) : ℕ :=
  let nThreads := if total < kMTFloor ∨ !proc.supportsConcurrentReads then 1
    else max 1 host.threadCount
  (max 1 (min (nThreads : ℤ) (signedOf 4 (max 1 (total / batchSize) % 2 ^ 32)))).toNat

/-- The configurations a next scan refuses. -/
def checkNextScan (config : ScanConfig) : Except Text Unit :=
  let allowed := config.compareType = .exact ∨ config.compareType = .changed ∨
    config.compareType = .unchanged ∨ config.compareType = .sameAsFirst ∨
    config.compareType = .unknown
  if config.valueType = .grouped then
    if config.groupedTerms = [] then
      .error "ValueType::Grouped requires grouped terms (use parseGrouped)".toList
    else if config.groupedValueSize = 0 then
      .error "ValueType::Grouped has invalid grouped terms".toList
    else if ¬allowed then
      .error "ValueType::Grouped next scan supports exact/changed/unchanged/samefirst/unknown".toList
    else .ok ()
  else if config.valueType = .custom then
    if config.customValueSize = 0 then
      .error "ValueType::Custom requires customValueSize > 0".toList
    else if config.compareType = .exact ∧ config.customFormula = [] then
      .error "ValueType::Custom exact next scan requires customFormula".toList
    else if ¬allowed then
      .error "ValueType::Custom next scan supports exact/changed/unchanged/samefirst/unknown".toList
    else .ok ()
  else .ok ()

/-- `nextScan`. -/
def nextScan (host : Host) (config : ScanConfig) (proc : ProcessHandle) (previous : ScanResult) :
    Except Text ScanResult :=
  match checkNextScan config with
  | .error message => .error message
  | .ok () =>
    match valueSizeForConfig host config with
    | .error message => .error message
    | .ok size =>
      if previous.count > 0 ∧ previous.recordStride ≠ 0 ∧ previous.recordStride ≠ size then
        .error ("next scan value size differs from the previous scan; ".toList ++
          "the search length must stay constant across scans".toList)
      else if previous.count = 0 then .ok (writeRows true [])
      else
        let total := previous.count
        let worker := fun first last ↦
          nextScanWorker host config proc size previous.shards (last - first) first last
        let nThreads := nextWorkerCount host proc total
        if nThreads = 1 then .ok (writeRows true (worker 0 total))
        else
          let per := (total + nThreads - 1) / nThreads
          .ok (assembleShardedResult ((List.range nThreads).map fun t ↦
            writeRows true (worker (min total (t * per)) (min total (min total (t * per) + per)))))

/-- `nextScan` with batches of any length and any number of workers. -/
def nextScanWith (batch nThreads : ℕ) (host : Host) (config : ScanConfig) (proc : ProcessHandle)
    (previous : ScanResult) : Except Text ScanResult :=
  match checkNextScan config with
  | .error message => .error message
  | .ok () =>
    match valueSizeForConfig host config with
    | .error message => .error message
    | .ok size =>
      if previous.count > 0 ∧ previous.recordStride ≠ 0 ∧ previous.recordStride ≠ size then
        .error ("next scan value size differs from the previous scan; ".toList ++
          "the search length must stay constant across scans".toList)
      else if previous.count = 0 then .ok (writeRows true [])
      else
        let total := previous.count
        let worker := fun first last ↦
          nextScanWorkerWith batch host config proc size previous.shards (last - first) first last
        if nThreads = 1 then .ok (writeRows true (worker 0 total))
        else
          let per := (total + nThreads - 1) / nThreads
          .ok (assembleShardedResult ((List.range nThreads).map fun t ↦
            writeRows true (worker (min total (t * per)) (min total (min total (t * per) + per)))))

theorem nextScan_eq_with (host : Host) (config : ScanConfig) (proc : ProcessHandle)
    (previous : ScanResult) :
    nextScan host config proc previous =
      nextScanWith batchSize (nextWorkerCount host proc previous.count) host config proc
        previous := by
  unfold nextScan nextScanWith
  simp only [nextScanWorker_eq_with]

/-! ### Batches and workers disappear -/

variable {host : Host} {config : ScanConfig} {proc : ProcessHandle} {size : ℕ}

/-- What becomes of one stored match. -/
def rescanRow (host : Host) (config : ScanConfig) (proc : ProcessHandle) (size : ℕ) (row : Row) :
    Option Row :=
  let currentVal := readPrefix proc.memory row.address size
  if currentVal.length = size ∧
      nextScanCompare host config size currentVal row.value row.firstValue = true then
    some ⟨row.address, currentVal, row.firstValue⟩
  else none

theorem getElem?_readMany (hsize : 1 ≤ size) (addresses : List ℕ) (i : ℕ) :
    (proc.readMany addresses size)[i]? = addresses[i]?.map fun address ↦
      if (readPrefix proc.memory address size).length = size then
        some (readPrefix proc.memory address size) else none := by
  unfold ProcessHandle.readMany ProcessHandle.read
  rw [List.getElem?_map]
  congr 1
  funext address
  dsimp only
  by_cases hempty : readPrefix proc.memory address size = []
  · rw [if_pos ⟨by omega, hempty⟩, hempty, if_neg (by simp; omega)]
  · rw [if_neg fun h ↦ hempty h.2]

theorem filterMap_range_getElem? {α β : Type} (l : List α) (f : α → Option β) :
    ((List.range l.length).filterMap fun i ↦ l[i]?.bind f) = l.filterMap f := by
  induction l with
  | nil => rfl
  | cons a rest ih =>
    rw [List.length_cons, List.range_succ_eq_map, List.filterMap_cons, List.filterMap_map,
      List.filterMap_cons, ← ih]
    rfl

/-- A batch of stored matches is rescanned match by match. -/
theorem scanBatch_ofRows (hsize : 1 ≤ size) {rows : List Row}
    (hwidth : ∀ row ∈ rows, row.value.length = size ∧ row.firstValue.length = size) :
    scanBatch host config proc size rows.length (Batch.ofRows rows) =
      rows.filterMap (rescanRow host config proc size) := by
  have hrow : ∀ i (hi : i < rows.length),
      scanRecord host config proc size (Batch.ofRows rows) i =
        rescanRow host config proc size rows[i] := by
    intro i hi
    have hget : rows[i]? = some rows[i] := List.getElem?_eq_getElem hi
    have hold : ((Batch.ofRows rows).oldValues.drop (i * size)).take size = rows[i].value :=
      slice_flatMap (fun row hmem ↦ (hwidth row hmem).1) hget
    have hfirst : ((Batch.ofRows rows).firstValues.drop (i * size)).take size =
        rows[i].firstValue := slice_flatMap (fun row hmem ↦ (hwidth row hmem).2) hget
    have haddress : (Batch.ofRows rows).addresses[i]? = some rows[i].address := by
      rw [Batch.ofRows, List.getElem?_map, hget, Option.map_some]
    rw [scanRecord, getElem?_readMany hsize, haddress, hold, hfirst, Option.map_some, rescanRow,
      List.getD_eq_getElem?_getD, haddress, Option.getD_some]
    dsimp only
    by_cases hfull : (readPrefix proc.memory rows[i].address size).length = size
    · rw [if_pos hfull]
      dsimp only
      simp only [hfull, true_and]
    · rw [if_neg hfull, if_neg fun h ↦ hfull h.1]
  rw [scanBatch, ← filterMap_range_getElem? rows]
  refine List.filterMap_congr fun i hi ↦ ?_
  rw [List.mem_range] at hi
  rw [hrow i hi, List.getElem?_eq_getElem hi, Option.bind_some]

/-- A worker rescans the stored matches of its slice. -/
theorem nextScanWorkerWith_eq {batch : ℕ} (hbatch : 1 ≤ batch) (hsize : 1 ≤ size)
    {shards : List Shard} {rows : List Row} (hstored : Stored size 0 shards rows)
    (hwidth : ∀ row ∈ rows, row.value.length = size ∧ row.firstValue.length = size)
    {turns idx last : ℕ} (hturns : last - idx ≤ turns) (hlast : last ≤ rows.length) :
    nextScanWorkerWith batch host config proc size shards turns idx last =
      ((rows.drop idx).take (last - idx)).filterMap (rescanRow host config proc size) := by
  induction turns generalizing idx with
  | zero =>
    rw [nextScanWorkerWith, Nat.le_zero.mp hturns]
    rfl
  | succ turns ih =>
    rw [nextScanWorkerWith]
    split_ifs with hlt
    · set n := min batch (last - idx) with hn
      have hpos : 1 ≤ n := by omega
      have hle : n ≤ last - idx := Nat.min_le_right _ _
      have hslice : ((rows.drop idx).take n).length = n := by
        rw [List.length_take, List.length_drop]
        omega
      have hslices : ∀ row ∈ (rows.drop idx).take n,
          row.value.length = size ∧ row.firstValue.length = size := fun row hrow ↦
        hwidth row (List.mem_of_mem_drop (List.mem_of_mem_take hrow))
      have hscanned := @scanBatch_ofRows host config proc size hsize _ hslices
      rw [hslice] at hscanned
      have hsplit : (rows.drop idx).take (last - idx) =
          (rows.drop idx).take n ++ (rows.drop (idx + n)).take (last - (idx + n)) := by
        rw [← List.drop_drop, ← List.take_add]
        congr 1
        omega
      dsimp only
      rw [readShards_eq hstored le_rfl (by omega)]
      dsimp only
      rw [hscanned, ih (by omega), hsplit, List.filterMap_append]
    · rw [Nat.sub_eq_zero_of_le (by omega)]
      rfl

/-- The slices of the workers are the whole list. -/
theorem flatMap_slices {α : Type} (l : List α) {per workers : ℕ} (hcover : l.length ≤ workers * per) :
    ((List.range workers).flatMap fun t ↦
      (l.drop (min l.length (t * per))).take
        (min l.length (min l.length (t * per) + per) - min l.length (t * per))) = l := by
  have htaken : ∀ count, ((List.range count).flatMap fun t ↦
      (l.drop (min l.length (t * per))).take
        (min l.length (min l.length (t * per) + per) - min l.length (t * per))) =
      l.take (count * per) := by
    intro count
    induction count with
    | zero => simp
    | succ count ih =>
      rw [List.range_succ, List.flatMap_append, ih, List.flatMap_singleton, Nat.succ_mul,
        List.take_add]
      congr 1
      by_cases hinside : count * per ≤ l.length
      · rw [Nat.min_eq_right hinside, List.take_eq_take_iff, List.length_drop]
        omega
      · have hall : min l.length (count * per) = l.length := Nat.min_eq_left (by omega)
        have hnone : l.drop (count * per) = [] := List.drop_eq_nil_of_le (by omega)
        rw [hall, hnone, List.drop_length, List.take_nil, List.take_nil]
  rw [htaken, List.take_of_length_le hcover]

theorem recordable_filterMap_rescanRow {rows : List Row} (hrows : Recordable size rows) :
    Recordable size (rows.filterMap (rescanRow host config proc size)) := by
  intro kept hkept
  obtain ⟨row, hrow, hrescan⟩ := List.mem_filterMap.mp hkept
  obtain ⟨-, hfirst, haddress⟩ := hrows row hrow
  unfold rescanRow at hrescan
  dsimp only at hrescan
  split_ifs at hrescan with hmatch
  rw [← Option.some.inj hrescan]
  exact ⟨hmatch.1, hfirst, haddress⟩

theorem one_le_nextWorkerCount (host : Host) (proc : ProcessHandle) (total : ℕ) :
    1 ≤ nextWorkerCount host proc total := by
  unfold nextWorkerCount
  dsimp only
  rw [Int.le_toNat (by omega)]
  exact le_max_left _ _

/-- A next scan stores what becomes of every stored match, in order, for any division of the work
into workers and batches. -/
theorem nextScanWith_stored {batch nThreads : ℕ} (hbatch : 1 ≤ batch) (hthreads : 1 ≤ nThreads)
    (hsize : valueSizeForConfig host config = .ok size) (hcheck : checkNextScan config = .ok ())
    {previous : ScanResult} {rows : List Row} (hstored : Stored size 0 previous.shards rows)
    (hcount : previous.count = rows.length) (hrows : Recordable size rows) :
    ∃ r, nextScanWith batch nThreads host config proc previous = .ok r ∧
      Stored size 0 r.shards (rows.filterMap (rescanRow host config proc size)) ∧
      r.count = (rows.filterMap (rescanRow host config proc size)).length := by
  have hpos := one_le_of_valueSizeForConfig hsize
  have hwidth : ∀ row ∈ rows, row.value.length = size ∧ row.firstValue.length = size :=
    fun row hrow ↦ ⟨(hrows row hrow).1, (hrows row hrow).2.1⟩
  have hkept := @recordable_filterMap_rescanRow host config proc size rows hrows
  have hstride : ¬(previous.count > 0 ∧ previous.recordStride ≠ 0 ∧
      previous.recordStride ≠ size) := by
    rintro ⟨hsome, -, hdifferent⟩
    refine hdifferent (recordStride_eq hstored hpos ?_)
    rintro rfl
    rw [hcount] at hsome
    exact lt_irrefl _ hsome
  unfold nextScanWith
  rw [hcheck, hsize]
  dsimp only
  rw [if_neg hstride]
  split_ifs with hzero hsingle
  · have hnil : rows = [] := List.length_eq_zero_iff.mp (hcount ▸ hzero)
    subst hnil
    exact ⟨_, rfl, stored_writeRows (by simp [Recordable]) (by simp)⟩
  · refine ⟨_, rfl, ?_⟩
    rw [nextScanWorkerWith_eq hbatch hpos hstored hwidth le_rfl hcount.le, hcount, List.drop_zero,
      Nat.sub_zero, List.take_length]
    exact stored_writeRows hkept (by simp)
  · refine ⟨_, rfl, ?_⟩
    rw [hcount]
    have hcover : rows.length ≤ nThreads * ((rows.length + nThreads - 1) / nThreads) := by
      have hdiv := Nat.div_add_mod (rows.length + nThreads - 1) nThreads
      have hmod := Nat.mod_lt (rows.length + nThreads - 1) hthreads
      omega
    set per := (rows.length + nThreads - 1) / nThreads
    have hworker : ∀ t, nextScanWorkerWith batch host config proc size previous.shards
        (min rows.length (min rows.length (t * per) + per) - min rows.length (t * per))
        (min rows.length (t * per)) (min rows.length (min rows.length (t * per) + per)) =
        ((rows.drop (min rows.length (t * per))).take
          (min rows.length (min rows.length (t * per) + per) -
            min rows.length (t * per))).filterMap (rescanRow host config proc size) := fun t ↦
      nextScanWorkerWith_eq hbatch hpos hstored hwidth le_rfl (Nat.min_le_left _ _)
    have hparts := @stored_assemble size true ((List.range nThreads).map fun t ↦
        ((rows.drop (min rows.length (t * per))).take
          (min rows.length (min rows.length (t * per) + per) -
            min rows.length (t * per))).filterMap (rescanRow host config proc size))
      (by
        intro part hpart
        obtain ⟨t, -, rfl⟩ := List.mem_map.mp hpart
        exact recordable_filterMap_rescanRow (hrows.mono fun row hrow ↦
          List.mem_of_mem_drop (List.mem_of_mem_take hrow)))
      (by simp)
    rw [List.map_map] at hparts
    have hflatten : ((List.range nThreads).map fun t ↦
        ((rows.drop (min rows.length (t * per))).take
          (min rows.length (min rows.length (t * per) + per) -
            min rows.length (t * per))).filterMap
              (rescanRow host config proc size)).flatten =
        rows.filterMap (rescanRow host config proc size) := by
      rw [← List.flatMap_def, ← List.filterMap_flatMap, flatMap_slices rows hcover]
    simp only [hworker]
    rw [hflatten] at hparts
    exact hparts

/-- A next scan rescans every stored match, in order. -/
theorem nextScan_rows (hsize : valueSizeForConfig host config = .ok size)
    (hcheck : checkNextScan config = .ok ()) {previous : ScanResult} {rows : List Row}
    (hstored : Stored size 0 previous.shards rows) (hcount : previous.count = rows.length)
    (hrows : Recordable size rows) :
    ∃ r, nextScan host config proc previous = .ok r ∧
      r.rows size = rows.filterMap (rescanRow host config proc size) := by
  obtain ⟨r, hnext, hkept, hkeptCount⟩ := @nextScanWith_stored host config proc size batchSize
    (nextWorkerCount host proc previous.count) (by decide) (one_le_nextWorkerCount host proc _)
    hsize hcheck previous rows hstored hcount hrows
  exact ⟨r, (nextScan_eq_with host config proc previous).trans hnext, rows_eq hkept hkeptCount⟩

end Cecore.Scanner
