import Cecore.Scanner.NextScan
import Cecore.Scanner.Exactness

/-!
# Unchanged next scans

An unchanged scan over unchanged memory returns its input exactly when every recorded window is read
again as it was recorded (`nextScan_unchanged_iff`). It is not for all-types windows cut off by the
end of a region, and a NaN is not equal to itself.
-/

set_option autoImplicit false
set_option relaxedAutoImplicit false

namespace Cecore.Scanner

open Library.LittleEndian Platform

variable {host : Host} {config : ScanConfig} {proc : ProcessHandle} {size : ℕ}

/-! ### Rows of a first scan -/

theorem mem_rows_iff {row : Row} : row ∈ (scanHits host config proc size).map Hit.row ↔
    ∃ v ∈ scanVisits host config proc size, ∃ value ∈ (matcher host config).report
      (readPrefix proc.memory v.address v.length), row = ⟨v.address, value, value⟩ := by
  constructor
  · intro hrow
    obtain ⟨hit, hhit, rfl⟩ := List.mem_map.mp hrow
    obtain ⟨v, hv, hhit⟩ := List.mem_flatMap.mp hhit
    obtain ⟨value, hvalue, rfl⟩ := List.mem_map.mp hhit
    exact ⟨v, hv, value, hvalue, rfl⟩
  · rintro ⟨v, hv, value, hvalue, rfl⟩
    exact List.mem_map.mpr ⟨⟨v.address, value⟩,
      List.mem_flatMap.mpr ⟨v, hv, List.mem_map.mpr ⟨value, hvalue, rfl⟩⟩, rfl⟩

theorem length_le_of_mem_scanVisits (hsize : valueSizeForConfig host config = .ok size) {v : Visit}
    (hv : v ∈ scanVisits host config proc size) : v.length ≤ size := by
  obtain ⟨region, -, hv⟩ := List.mem_flatMap.mp hv
  obtain ⟨range, -, hv⟩ := List.mem_flatMap.mp hv
  obtain ⟨c, -, hv⟩ := List.mem_flatMap.mp hv
  obtain ⟨offset, -, rfl⟩ := List.mem_map.mp hv
  rw [← width_matcher hsize]
  exact Nat.min_le_left _ _

/-- A first scan that succeeds was given a configuration it accepts. -/
theorem checkFirstScan_of_ok {r : ScanResult} (hscan : firstScan host config proc = .ok r) :
    checkFirstScan config = .ok () := by
  unfold firstScan at hscan
  cases hcheck : checkFirstScan config with
  | error message => simp [hcheck] at hscan
  | ok _ => rfl

/-! ### Unchanged scans -/

theorem filterMap_eq_self_iff {α : Type} {f : α → Option α} {l : List α} :
    l.filterMap f = l ↔ ∀ a ∈ l, f a = some a := by
  induction l with
  | nil => simp
  | cons a rest ih =>
    rw [List.filterMap_cons]
    cases hfa : f a with
    | none =>
      have hshort : rest.filterMap f ≠ a :: rest := by
        intro heq
        have hle := List.length_filterMap_le f rest
        rw [heq, List.length_cons] at hle
        omega
      simp [hfa, hshort]
    | some b =>
      simp only [List.cons.injEq, ih, List.mem_cons, forall_eq_or_imp, hfa, Option.some.injEq]

/-- The format a value type is compared in, if it is a floating-point type. -/
def floatFormatOf : ValueType → Option FloatFormat
  | .float => some .single
  | .double => some .double
  | _ => none

/-- The unchanged compare of a value with itself fails for a NaN only. -/
theorem nextScanCompare_self (host : Host) (hcompare : config.compareType = .unchanged)
    (value : List UInt8) (hsize : valueSizeForConfig host config = .ok size)
    (hlength : value.length = size) :
    nextScanCompare host config size value value value = true ↔
      ∀ format, floatFormatOf config.valueType = some format →
        format.isNaN (leNat value) = false := by
  unfold valueSizeForConfig at hsize
  unfold nextScanCompare
  cases htype : config.valueType <;>
    simp only [htype, compareNextInt, compareNextFloat, compareNextBytes, compareNextBlock,
      hcompare, supportsPercentageCompare, ScanCompare.atLeastChanged, getCompare, intOperators,
      FloatFormat.operators, floatFormatOf] at hsize ⊢
  case float =>
    have htake : value.take FloatFormat.single.width = value :=
      List.take_of_length_le (by rw [hlength, ← Except.ok.inj hsize]; decide)
    simp [htake]
  case double =>
    have htake : value.take FloatFormat.double.width = value :=
      List.take_of_length_le (by rw [hlength, ← Except.ok.inj hsize]; decide)
    simp [htake]
  all_goals simp

/-- A first scan's matches are read again as they were recorded, and none is a NaN. -/
structure RowsReread (host : Host) (config : ScanConfig) (proc : ProcessHandle) (size : ℕ) :
    Prop where
  /-- The window of an all-types match can be read in full, with zeros where the scan had nothing to
  look at. -/
  wholeWindow : config.valueType = .all → ∀ v ∈ scanVisits host config proc size,
    (matcher host config).report (readPrefix proc.memory v.address v.length) ≠ [] →
      readPrefix proc.memory v.address 8 = allWindow (readPrefix proc.memory v.address v.length)
  noNaN : ∀ format, floatFormatOf config.valueType = some format →
    ∀ v ∈ scanVisits host config proc size,
      (matcher host config).report (readPrefix proc.memory v.address v.length) ≠ [] →
        format.isNaN (leNat (readPrefix proc.memory v.address v.length)) = false

/-- The configuration of the next scan: the same search for unchanged values. -/
def ScanConfig.unchanged (config : ScanConfig) : ScanConfig :=
  { config with compareType := .unchanged }

theorem valueSizeForConfig_unchanged :
    valueSizeForConfig host config.unchanged = valueSizeForConfig host config := rfl

theorem checkNextScan_unchanged (hcheck : checkFirstScan config = .ok ()) :
    checkNextScan config.unchanged = .ok () := by
  unfold checkFirstScan at hcheck
  unfold checkNextScan ScanConfig.unchanged
  dsimp only
  split_ifs at hcheck ⊢ <;> simp_all [ScanConfig.groupedValueSize]

/-- A row of an unchanged scan stays as it is. -/
theorem rescanRow_unchanged (hsize : valueSizeForConfig host config = .ok size) {row : Row}
    (hwidth : row.value.length = size) (hfirst : row.firstValue = row.value) :
    rescanRow host config.unchanged proc size row = some row ↔
      readPrefix proc.memory row.address size = row.value ∧
        ∀ format, floatFormatOf config.valueType = some format →
          format.isNaN (leNat row.value) = false := by
  obtain ⟨address, value, firstValue⟩ := row
  dsimp only at hwidth hfirst ⊢
  subst hfirst
  have hself := nextScanCompare_self host rfl firstValue
    (valueSizeForConfig_unchanged.trans hsize) hwidth
  unfold rescanRow
  dsimp only
  constructor
  · intro hkept
    split_ifs at hkept with hmatch
    have hread : readPrefix proc.memory address size = firstValue :=
      congrArg Row.value (Option.some.inj hkept)
    rw [hread] at hmatch
    exact ⟨hread, hself.mp hmatch.2⟩
  · rintro ⟨hread, hnan⟩
    rw [hread, if_pos ⟨hwidth, hself.mpr hnan⟩]

/-- An unchanged scan over unchanged memory returns the rows it was given exactly when they are
read again as they were recorded. -/
theorem nextScan_unchanged_iff (hsize : valueSizeForConfig host config = .ok size)
    {previous : ScanResult} (hscan : firstScan host config proc = .ok previous) :
    (∃ r, nextScan host config.unchanged proc previous = .ok r ∧
        r.rows size = previous.rows size) ↔ RowsReread host config proc size := by
  obtain ⟨hstored, hcount⟩ := firstScan_stored hsize hscan
  have hrecordable := @recordable_scanHits host config proc size hsize
  obtain ⟨r, hnext, hrows⟩ := @nextScan_rows host config.unchanged proc size
    (valueSizeForConfig_unchanged.trans hsize)
    (checkNextScan_unchanged (checkFirstScan_of_ok hscan)) _ _ hstored hcount hrecordable
  have hprevious := firstScan_rows hsize hscan
  have hkeeps : (∃ r, nextScan host config.unchanged proc previous = .ok r ∧
      r.rows size = previous.rows size) ↔
      ∀ row ∈ (scanHits host config proc size).map Hit.row,
        rescanRow host config.unchanged proc size row = some row := by
    rw [← filterMap_eq_self_iff, ← hrows, hprevious]
    constructor
    · rintro ⟨r', hr', hsame⟩
      obtain rfl : r = r' := Except.ok.inj (hnext.symm.trans hr')
      exact hsame
    · exact fun hsame ↦ ⟨r, hnext, hsame⟩
  rw [hkeeps]
  constructor
  · intro hstay
    have hwindow : ∀ v ∈ scanVisits host config proc size, ∀ value ∈ (matcher host config).report
        (readPrefix proc.memory v.address v.length),
        readPrefix proc.memory v.address size = value ∧
          ∀ format, floatFormatOf config.valueType = some format →
            format.isNaN (leNat value) = false := by
      intro v hv value hvalue
      have hmem := mem_rows_iff.mpr ⟨v, hv, value, hvalue, rfl⟩
      exact (rescanRow_unchanged hsize (hrecordable _ hmem).1 rfl).mp (hstay _ hmem)
    constructor
    · intro hall v hv hne
      obtain ⟨value, hvalue⟩ := List.exists_mem_of_ne_nil _ hne
      have hread := (hwindow v hv value hvalue).1
      have hsize8 : size = 8 := by
        have hwidth := width_matcher hsize
        rw [matcher_eq_allTypes hall] at hwidth
        exact hwidth.symm
      rw [matcher_eq_allTypes hall] at hvalue
      obtain ⟨_, _, rfl⟩ := List.mem_map.mp hvalue
      rw [← hsize8]
      exact hread
    · intro format hformat v hv hne
      obtain ⟨value, hvalue⟩ := List.exists_mem_of_ne_nil _ hne
      have hnan := (hwindow v hv value hvalue).2 format hformat
      have hall : config.valueType ≠ .all := by
        intro hall
        rw [hall] at hformat
        cases hformat
      obtain ⟨stride, width, pred, hsingle⟩ := matcher_eq_single host hall
      rw [hsingle] at hvalue
      rw [← (Matcher.mem_report_single.mp hvalue).1]
      exact hnan
  · intro hreread row hrow
    have hwidth := (hrecordable row hrow).1
    obtain ⟨v, hv, value, hvalue, rfl⟩ := mem_rows_iff.mp hrow
    have hne := List.ne_nil_of_mem hvalue
    refine (rescanRow_unchanged hsize hwidth rfl).mpr ⟨?_, ?_⟩
    · by_cases hall : config.valueType = .all
      · have hwindow := hreread.wholeWindow hall v hv hne
        have hsize8 : size = 8 := by
          have := width_matcher hsize
          rw [matcher_eq_allTypes hall] at this
          exact this.symm
        rw [matcher_eq_allTypes hall] at hvalue
        obtain ⟨_, _, rfl⟩ := List.mem_map.mp hvalue
        rw [hsize8]
        exact hwindow
      · obtain ⟨stride, width, pred, hsingle⟩ := matcher_eq_single host hall
        rw [hsingle] at hvalue
        have hbytes := (Matcher.mem_report_single.mp hvalue).1
        have hle := length_readPrefix_le proc.memory v.address v.length
        have hlen := length_le_of_mem_scanVisits hsize hv
        dsimp only at hwidth ⊢
        rw [hbytes] at hwidth ⊢
        have hfull : v.length = size := by omega
        rw [hfull]
    · intro format hformat
      have hnan := hreread.noNaN format hformat v hv hne
      have hall : config.valueType ≠ .all := by
        intro hall
        rw [hall] at hformat
        cases hformat
      obtain ⟨stride, width, pred, hsingle⟩ := matcher_eq_single host hall
      rw [hsingle] at hvalue
      rw [(Matcher.mem_report_single.mp hvalue).1]
      exact hnan

/-- An aligned search for 16-bit zeros keeps its rows. -/
theorem nextScan_unchanged_zeroSearch :
    ∃ previous r, firstScan sampleHost (zeroSearch 4) zeroProcess = .ok previous ∧
      nextScan sampleHost (zeroSearch 4).unchanged zeroProcess previous = .ok r ∧
        r.rows 2 = previous.rows 2 := by
  obtain ⟨r, hnext, hsame⟩ := (@nextScan_unchanged_iff sampleHost (zeroSearch 4)
    zeroProcess 2 rfl _ rfl).mpr
    ⟨fun hall ↦ (by cases hall), fun format hformat ↦ (by cases hformat)⟩
  exact ⟨_, r, rfl, hnext, hsame⟩

/-- An all-types search for zero. -/
def zeroAllSearch : ScanConfig := { valueType := .all }

/-- Whether a next scan returns the rows of the first scan before it, when both succeed. -/
def keepsRows (host : Host) (config next : ScanConfig) (proc : ProcessHandle) (size : ℕ) :
    Option Bool :=
  match firstScan host config proc with
  | .error _ => none
  | .ok previous =>
    match nextScan host next proc previous with
    | .error _ => none
    | .ok r => some (decide (r.rows size = previous.rows size))

/-- The last row of the region has four bytes; its eight-byte window cannot be read again, so an
unchanged scan drops it. -/
theorem nextScan_unchanged_drops_tail :
    ∃ previous r, firstScan sampleHost zeroAllSearch zeroProcess = .ok previous ∧
      nextScan sampleHost zeroAllSearch.unchanged zeroProcess previous = .ok r ∧
        r.rows 8 ≠ previous.rows 8 := by
  have hdrops : keepsRows sampleHost zeroAllSearch zeroAllSearch.unchanged zeroProcess 8 =
      some false := by decide +kernel
  unfold keepsRows at hdrops
  cases hscan : firstScan sampleHost zeroAllSearch zeroProcess with
  | error message => simp [hscan] at hdrops
  | ok previous =>
    cases hnext : nextScan sampleHost zeroAllSearch.unchanged zeroProcess previous with
    | error message => simp [hscan, hnext] at hdrops
    | ok r => exact ⟨previous, r, rfl, hnext, by simpa [hscan, hnext] using hdrops⟩

end Cecore.Scanner
