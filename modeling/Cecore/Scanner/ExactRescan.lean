import Cecore.Scanner.Rescan

/-!
# Exact next scans

First and next scans have separate matchers. `nextScan_exact_iff` compares them for every value
type: an exact next scan keeps exactly the rows whose addresses a first scan of the same
configuration reports on the same memory when every row agrees with that scan in the sense of
`RowAgrees`.
-/

set_option autoImplicit false
set_option relaxedAutoImplicit false

namespace Cecore.Scanner

open Library.LittleEndian Platform

/-! ### Kept rows and kept keys -/

section Filter

variable {α β : Type} {f : α → β} {p : α → Bool} {q : β → Bool} {l : List α}

theorem of_countP_and_eq {r : α → Bool} (h : l.countP (fun a ↦ r a && p a) = l.countP r) :
    ∀ a ∈ l, r a = true → p a = true := by
  induction l with
  | nil => simp
  | cons a rest ih =>
    have hle : rest.countP (fun a ↦ r a && p a) ≤ rest.countP r :=
      List.countP_mono_left fun b _ hb ↦ (Bool.and_eq_true_iff.mp hb).1
    rw [List.countP_cons, List.countP_cons] at h
    cases hr : r a <;> cases hp : p a <;> simp only [hr, hp, Bool.and_true, Bool.and_false,
      Bool.false_eq_true, if_true, if_false] at h
    case true.false => omega
    all_goals
      intro b hb hrb
      rcases List.mem_cons.mp hb with rfl | hmem
      · first
          | exact hp
          | (rw [hr] at hrb; cases hrb)
      · exact ih (by omega) b hmem hrb

/-- Keeping rows by a test of their own and keeping keys by a test of theirs give the same keys
exactly when the tests agree row by row. -/
theorem map_filter_eq_filter_map_iff [DecidableEq β] :
    (l.filter p).map f = (l.map f).filter q ↔ ∀ a ∈ l, p a = q (f a) := by
  constructor
  · intro hsame a ha
    cases hq : q (f a) with
    | false =>
      cases hp : p a with
      | false => rfl
      | true =>
        have hmem : f a ∈ (l.filter p).map f :=
          List.mem_map_of_mem (List.mem_filter.mpr ⟨ha, hp⟩)
        rw [hsame, List.mem_filter, hq] at hmem
        cases hmem.2
    | true =>
      have hcount := congrArg (List.countP fun b ↦ decide (b = f a)) hsame
      rw [List.countP_map, List.countP_filter, List.filter_map, List.countP_map,
        List.countP_filter] at hcount
      have hall : l.countP (fun x ↦ ((fun b ↦ decide (b = f a)) ∘ f) x && (q ∘ f) x) =
          l.countP ((fun b ↦ decide (b = f a)) ∘ f) := by
        refine List.countP_congr fun x _ ↦ ?_
        simp only [Function.comp_apply, Bool.and_eq_true, decide_eq_true_eq, and_iff_left_iff_imp]
        intro hx
        rw [hx, hq]
      rw [hall] at hcount
      exact of_countP_and_eq hcount a ha (by simp)
  · intro hagree
    rw [List.filter_map]
    congr 1
    exact List.filter_congr hagree

end Filter

variable {host : Host} {config : ScanConfig} {proc : ProcessHandle} {size : ℕ}

/-! ### The two matchers -/

/-- The next scan's compare of the bytes now at a row. -/
def stillMatches (host : Host) (config : ScanConfig) (proc : ProcessHandle) (size : ℕ)
    (row : Row) : Bool :=
  nextScanCompare host config size (readPrefix proc.memory row.address size) row.value
    row.firstValue

/-- The types whose first scan can ignore case. -/
def foldsCase (config : ScanConfig) : Prop :=
  (config.valueType = .string ∨ config.valueType = .unicodeString) ∧ config.caseSensitive = false

theorem unicodeFoldMatch_self : ∀ bytes : List UInt8, unicodeFoldMatch bytes bytes = true
  | [] => rfl
  | [_] => rfl
  | low :: high :: rest => by simp [unicodeFoldMatch, unicodeFoldMatch_self rest]

theorem caseSensitive_of_not_foldsCase (h : ¬foldsCase config)
    (htype : config.valueType = .string ∨ config.valueType = .unicodeString) :
    config.caseSensitive = true := by
  by_contra hfold
  exact h ⟨htype, by simpa using hfold⟩

theorem stringPredicate_self (bytes : List UInt8) : stringPredicate config bytes bytes = true := by
  unfold stringPredicate
  split_ifs <;> simp

theorem eq_of_stringPredicate {needle bytes : List UInt8} (hcase : config.caseSensitive = true)
    (h : stringPredicate config needle bytes = true) : bytes = needle := by
  simpa [stringPredicate, hcase] using h

theorem unicodePredicate_self : unicodePredicate config (utf16LeBytes config.stringValue) = true := by
  unfold unicodePredicate
  split_ifs
  · exact decide_eq_true rfl
  · exact unicodeFoldMatch_self _

theorem eq_of_unicodePredicate {bytes : List UInt8} (hcase : config.caseSensitive = true)
    (h : unicodePredicate config bytes = true) : bytes = utf16LeBytes config.stringValue := by
  simpa [unicodePredicate, hcase] using h

theorem compareNextInt_exact {unit : FloatUnit} (hcompare : config.compareType = .exact)
    {type : IntType} {current old : List UInt8} (hlength : current.length = type.width) :
    compareNextInt unit config type current old = intPredicate type config current := by
  have htake : current.take type.width = current := List.take_of_length_le hlength.le
  simp [compareNextInt, intPredicate, relationalPredicate, hcompare, supportsPercentageCompare,
    ScanCompare.atLeastChanged, getCompare, intOperators, htake]

theorem compareNextFloat_exact {unit : FloatUnit} (hcompare : config.compareType = .exact)
    {format : FloatFormat} {current old : List UInt8} (hlength : current.length = format.width) :
    compareNextFloat unit config format current old = floatPredicate unit format config current := by
  have htake : current.take format.width = current := List.take_of_length_le hlength.le
  simp [compareNextFloat, floatPredicate, hcompare, supportsPercentageCompare,
    ScanCompare.atLeastChanged, htake]

/-- On a full value the two matchers agree, but for case folding, patterns with a mask of another
length, and the types that compare with the past. -/
theorem nextScanCompare_exact (hsize : valueSizeForConfig host config = .ok size)
    (hcheck : checkFirstScan config = .ok ()) (hcompare : config.compareType = .exact)
    (hall : config.valueType ≠ .all) (hcustom : config.valueType ≠ .custom)
    {current old first : List UInt8} (hlength : current.length = size) :
    (nextScanCompare host config size current old first = true →
      (config.valueType = .byteArray → config.byteArrayMask.length = config.byteArray.length) →
        (matcher host config).report current ≠ []) ∧
    ((matcher host config).report current ≠ [] → ¬foldsCase config →
      nextScanCompare host config size current old first = true) := by
  have hpos := one_le_of_valueSizeForConfig hsize
  have hwidth := width_matcher hsize
  have hint : ∀ (type : IntType) (past : List UInt8), type.width = size →
      (compareNextInt host.floatUnit config type current past = true ↔
        (Matcher.single config.alignment type.width (intPredicate type config)).report current ≠
          []) := by
    intro type past htype
    rw [compareNextInt_exact hcompare (hlength.trans htype.symm), Matcher.report_single_ne_nil]
    exact ⟨fun h ↦ ⟨hlength.trans htype.symm, h⟩, fun h ↦ h.2⟩
  have hfloat : ∀ (format : FloatFormat) (past : List UInt8), format.width = size →
      (compareNextFloat host.floatUnit config format current past = true ↔
        (Matcher.single config.alignment format.width
          (floatPredicate host.floatUnit format config)).report current ≠ []) := by
    intro format past hformat
    rw [compareNextFloat_exact hcompare (hlength.trans hformat.symm), Matcher.report_single_ne_nil]
    exact ⟨fun h ↦ ⟨hlength.trans hformat.symm, h⟩, fun h ↦ h.2⟩
  have hbytes : ∀ exact, compareNextBytes config current old first exact = exact := by
    intro exact
    simp [compareNextBytes, hcompare, ScanCompare.atLeastChanged]
  have hblock : ∀ exact, compareNextBlock config current old first exact = exact := by
    intro exact
    simp [compareNextBlock, hcompare]
  unfold valueSizeForConfig at hsize
  unfold matcher at hwidth ⊢
  unfold nextScanCompare
  cases htype : config.valueType <;> simp only [htype] at hsize hwidth ⊢
  case all => exact absurd htype hall
  case custom => exact absurd htype hcustom
  case string =>
    cases hencode : encodeStringBytes host config.stringValue config.stringEncoding with
    | error message => simp [hencode] at hsize
    | ok needle =>
      rw [hencode] at hwidth
      rw [hbytes, stringNeedle, hencode]
      cases needle with
      | nil =>
        have hone : (1 : ℕ) = size := hwidth
        have hempty : 0 ≠ size := by omega
        simp [hempty]
      | cons head tail =>
        dsimp only at hwidth ⊢
        rw [Matcher.width_single] at hwidth
        rw [Matcher.report_single_ne_nil, Bool.and_eq_true, decide_eq_true_iff, decide_eq_true_iff]
        constructor
        · rintro ⟨-, rfl⟩ -
          exact ⟨rfl, stringPredicate_self _⟩
        · rintro ⟨-, hpred⟩ hcase
          have hsensitive := caseSensitive_of_not_foldsCase hcase (Or.inl htype)
          exact ⟨hwidth, eq_of_stringPredicate hsensitive hpred⟩
  case unicodeString =>
    rw [hbytes, length_utf16LeBytes]
    split_ifs at hwidth ⊢ with hempty
    · have htwo : (2 : ℕ) = size := hwidth
      have hnone : 2 * config.stringValue.length ≠ size := by rw [hempty]; simp; omega
      simp [hnone]
    · rw [Matcher.width_single] at hwidth
      rw [Matcher.report_single_ne_nil, Bool.and_eq_true, decide_eq_true_iff, decide_eq_true_iff]
      constructor
      · rintro ⟨-, hsame⟩ -
        refine ⟨hlength.trans hwidth.symm, ?_⟩
        rw [hsame]
        exact unicodePredicate_self
      · rintro ⟨-, hpred⟩ hcase
        have hsensitive := caseSensitive_of_not_foldsCase hcase (Or.inr htype)
        exact ⟨by omega, eq_of_unicodePredicate hsensitive hpred⟩
  case byteArray =>
    rw [hbytes]
    split_ifs at hwidth ⊢ with hguard
    · rw [Matcher.report_nothing]
      refine ⟨fun hmatch hmask ↦ ?_, fun h ↦ absurd rfl h⟩
      rcases hguard with hpattern | hmismatch
      · simp [compareMaskedBytes, hpattern] at hmatch
      · exact absurd (hmask trivial) hmismatch
    · rw [Matcher.width_single] at hwidth
      obtain ⟨hpattern, -⟩ := not_or.mp hguard
      rw [Matcher.report_single_ne_nil]
      simp only [compareMaskedBytes, ne_eq, hpattern, not_false_eq_true, decide_true, Bool.true_and,
        hlength, hwidth, true_and]
      exact ⟨fun h _ ↦ h, fun h _ ↦ h⟩
  case binary =>
    rw [hbytes]
    split_ifs at hwidth ⊢ with hguard
    · rw [Matcher.report_nothing]
      rcases hguard with hpattern | hmismatch
      · simp [hpattern]
      · simp [hmismatch]
    · rw [Matcher.width_single] at hwidth
      obtain ⟨hpattern, hmask⟩ := not_or.mp hguard
      rw [Matcher.report_single_ne_nil]
      simp only [ne_eq, hpattern, not_false_eq_true, decide_true, Bool.true_and, not_not.mp hmask,
        hlength, hwidth, true_and]
      exact ⟨fun h _ ↦ h, fun h _ ↦ h⟩
  case grouped =>
    rw [hblock]
    split_ifs at hwidth ⊢ with hguard
    · unfold checkFirstScan at hcheck
      rw [if_pos htype] at hcheck
      rcases hguard with hterms | hzero
      · simp [hterms] at hcheck
      · split_ifs at hcheck
    · rw [Matcher.width_single] at hwidth
      rw [Matcher.report_single_ne_nil]
      simp only [hcompare, hlength, hwidth, true_and, reduceCtorEq, decide_false, Bool.false_or]
      exact ⟨fun h _ ↦ h, fun h _ ↦ h⟩
  case byte => exact ⟨fun h _ ↦ (hint .uint8 _ (Except.ok.inj hsize)).mp h,
      fun h _ ↦ (hint .uint8 _ (Except.ok.inj hsize)).mpr h⟩
  case int16 => exact ⟨fun h _ ↦ (hint .int16 _ (Except.ok.inj hsize)).mp h,
      fun h _ ↦ (hint .int16 _ (Except.ok.inj hsize)).mpr h⟩
  case int32 => exact ⟨fun h _ ↦ (hint .int32 _ (Except.ok.inj hsize)).mp h,
      fun h _ ↦ (hint .int32 _ (Except.ok.inj hsize)).mpr h⟩
  case int64 => exact ⟨fun h _ ↦ (hint .int64 _ (Except.ok.inj hsize)).mp h,
      fun h _ ↦ (hint .int64 _ (Except.ok.inj hsize)).mpr h⟩
  case pointer => exact ⟨fun h _ ↦ (hint .uintptr _ (Except.ok.inj hsize)).mp h,
      fun h _ ↦ (hint .uintptr _ (Except.ok.inj hsize)).mpr h⟩
  case float => exact ⟨fun h _ ↦ (hfloat .single _ (Except.ok.inj hsize)).mp h,
      fun h _ ↦ (hfloat .single _ (Except.ok.inj hsize)).mpr h⟩
  case double => exact ⟨fun h _ ↦ (hfloat .double _ (Except.ok.inj hsize)).mp h,
      fun h _ ↦ (hfloat .double _ (Except.ok.inj hsize)).mpr h⟩

/-! ### Rows a first scan reports -/

/-- A first scan of the configuration looks at the whole value at an address. -/
def Seen (host : Host) (config : ScanConfig) (proc : ProcessHandle) (size address : ℕ) : Prop :=
  ⟨address, size⟩ ∈ scanVisits host config proc size

/-- The addresses a result holds. -/
def reportedAddresses (r : ScanResult) (size : ℕ) : List ℕ := (r.rows size).map Row.address

theorem mem_reportedAddresses_iff (hsize : valueSizeForConfig host config = .ok size)
    {r : ScanResult} (hscan : firstScan host config proc = .ok r) {address : ℕ} :
    address ∈ reportedAddresses r size ↔ ∃ v ∈ scanVisits host config proc size,
      v.address = address ∧
        (matcher host config).report (readPrefix proc.memory v.address v.length) ≠ [] := by
  unfold reportedAddresses
  rw [firstScan_rows hsize hscan]
  constructor
  · intro hmem
    obtain ⟨row, hrow, rfl⟩ := List.mem_map.mp hmem
    obtain ⟨v, hv, value, hvalue, rfl⟩ := mem_rows_iff.mp hrow
    exact ⟨v, hv, rfl, List.ne_nil_of_mem hvalue⟩
  · rintro ⟨v, hv, rfl, hne⟩
    obtain ⟨value, hvalue⟩ := List.exists_mem_of_ne_nil _ hne
    exact List.mem_map.mpr ⟨_, mem_rows_iff.mpr ⟨v, hv, value, hvalue, rfl⟩, rfl⟩

/-- Apart from the all-types scan, an address is reported when its whole value was looked at and
matches. -/
theorem mem_reportedAddresses_iff_seen (hsize : valueSizeForConfig host config = .ok size)
    (hall : config.valueType ≠ .all) {r : ScanResult}
    (hscan : firstScan host config proc = .ok r) {address : ℕ} :
    address ∈ reportedAddresses r size ↔ Seen host config proc size address ∧
      (matcher host config).report (readPrefix proc.memory address size) ≠ [] := by
  rw [mem_reportedAddresses_iff hsize hscan]
  have hwidth := width_matcher hsize
  constructor
  · rintro ⟨v, hv, rfl, hne⟩
    have hfull : v.length = size := by
      obtain ⟨stride, width, pred, hsingle⟩ := matcher_eq_single host hall
      rw [hsingle] at hne hwidth
      rw [Matcher.width_single] at hwidth
      have hlength := (Matcher.report_single_ne_nil.mp hne).1
      have hle := length_readPrefix_le proc.memory v.address v.length
      have hvisit := length_le_of_mem_scanVisits hsize hv
      omega
    rw [hfull] at hne
    refine ⟨?_, hne⟩
    obtain ⟨address, length⟩ := v
    dsimp only at hfull
    subst hfull
    exact hv
  · rintro ⟨hseen, hne⟩
    exact ⟨_, hseen, rfl, hne⟩

/-- A row on which the next scan decides as a first scan would. -/
structure RowAgrees (host : Host) (config : ScanConfig) (proc : ProcessHandle) (size : ℕ)
    (row : Row) : Prop where
  /-- A row that still matches is where a first scan looks, and its pattern is well formed. -/
  seen : config.valueType ≠ .all → stillMatches host config proc size row = true →
    Seen host config proc size row.address ∧ (config.valueType = .byteArray →
      config.byteArrayMask.length = config.byteArray.length)
  /-- A string that matches up to case matches. -/
  exactCase : foldsCase config → Seen host config proc size row.address →
    (matcher host config).report (readPrefix proc.memory row.address size) ≠ [] →
      stillMatches host config proc size row = true
  /-- In an all-types scan, the window is as recorded exactly when a sub-type matches. -/
  unchanged : config.valueType = .all →
    (readPrefix proc.memory row.address size = row.value ↔
      ∃ v ∈ scanVisits host config proc size, v.address = row.address ∧
        true ∈ allTypeMatches host.floatUnit config
          (readPrefix proc.memory v.address v.length))

theorem report_allTypes_ne_nil {unit : FloatUnit} {bytes : List UInt8} :
    (Matcher.allTypes unit config).report bytes ≠ [] ↔ true ∈ allTypeMatches unit config bytes := by
  unfold Matcher.allTypes
  dsimp only
  rw [Ne, List.map_eq_nil_iff, List.filter_eq_nil_iff]
  constructor
  · intro hne
    by_contra hnone
    refine hne fun found hmem hfound ↦ hnone ?_
    have htrue : found = true := hfound
    exact htrue ▸ hmem
  · exact fun hmem hnone ↦ hnone true hmem rfl

/-- On a readable row the next scan decides as the first scan reports exactly when the row agrees
with the scan. -/
theorem stillMatches_eq_reported_iff (hsize : valueSizeForConfig host config = .ok size)
    (hcompare : config.compareType = .exact) (hcustom : config.valueType ≠ .custom)
    {current : ScanResult} (hscan : firstScan host config proc = .ok current) {row : Row}
    (hread : Readable proc.memory row.address size) :
    stillMatches host config proc size row =
        decide (row.address ∈ reportedAddresses current size) ↔
      RowAgrees host config proc size row := by
  have hlength := (length_readPrefix_eq_iff proc.memory row.address size).mpr hread
  have hcheck := checkFirstScan_of_ok hscan
  rw [Bool.eq_iff_iff, decide_eq_true_iff]
  by_cases hall : config.valueType = .all
  · have hmatch : stillMatches host config proc size row = true ↔
        readPrefix proc.memory row.address size = row.value := by
      simp [stillMatches, nextScanCompare, hall, hcompare]
    have hreported : row.address ∈ reportedAddresses current size ↔
        ∃ v ∈ scanVisits host config proc size, v.address = row.address ∧
          true ∈ allTypeMatches host.floatUnit config
            (readPrefix proc.memory v.address v.length) := by
      rw [mem_reportedAddresses_iff hsize hscan, matcher_eq_allTypes hall]
      simp only [report_allTypes_ne_nil]
    rw [hmatch, hreported]
    constructor
    · intro hagree
      refine ⟨fun hne ↦ absurd hall hne, fun hfold ↦ ?_, fun _ ↦ hagree⟩
      rcases hfold.1 with hstring | hunicode
      · rw [hall] at hstring
        cases hstring
      · rw [hall] at hunicode
        cases hunicode
    · exact fun hagrees ↦ hagrees.unchanged hall
  · obtain ⟨hinto, hback⟩ := nextScanCompare_exact hsize hcheck hcompare hall hcustom
      hlength
    rw [mem_reportedAddresses_iff_seen hsize hall hscan]
    constructor
    · intro hagree
      refine ⟨fun _ hmatch ↦ ⟨(hagree.mp hmatch).1, fun hbytes ↦ ?_⟩,
        fun _ hseen hne ↦ hagree.mpr ⟨hseen, hne⟩, fun h ↦ absurd h hall⟩
      have hne := (hagree.mp hmatch).2
      by_contra hmask
      refine hne ?_
      have hnothing : matcher host config = .nothing (max 1 config.byteArray.length) := by
        simp [matcher, hbytes, hmask]
      rw [hnothing, Matcher.report_nothing]
    · intro hagrees
      constructor
      · intro hmatch
        obtain ⟨hseen, hmask⟩ := hagrees.seen hall hmatch
        exact ⟨hseen, hinto hmatch hmask⟩
      · rintro ⟨hseen, hne⟩
        by_cases hfold : foldsCase config
        · exact hagrees.exactCase hfold hseen hne
        · exact hback hne hfold

/-! ### The result -/

theorem checkNextScan_exact (hcompare : config.compareType = .exact)
    (hcheck : checkFirstScan config = .ok ()) : checkNextScan config = .ok () := by
  unfold checkFirstScan at hcheck
  unfold checkNextScan
  dsimp only
  split_ifs at hcheck ⊢ <;> simp_all

/-- The string `AB` at `0x1000`. -/
def upperProcess : ProcessHandle where
  memory := fun address ↦ if address = 0x1000 then some 65 else if address = 0x1001 then some 66
    else none
  queryRegions := [⟨0x1000, 2, MemProt.read, .privateMap, .committed⟩]
  pagemap := fun _ ↦ none
  supportsConcurrentReads := true

/-- A search for `ab` that ignores case. -/
def lowerSearch : ScanConfig where
  valueType := .string
  stringValue := [97, 98]
  caseSensitive := false

/-- A search for `AB`. -/
def upperSearch : ScanConfig where
  valueType := .string
  stringValue := [65, 66]

end Cecore.Scanner
