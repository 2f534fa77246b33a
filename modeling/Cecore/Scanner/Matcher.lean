import Cecore.Scanner.NaiveScan

/-!
# What a configuration looks for

A `Matcher` is a first scan without its buffers: how far apart the positions are, how many bytes
are looked at, and which records those bytes give. A window that the memory does not fill is given
shorter. `scanRegion_eq_scanWindows` says that the scan of a buffer is the matcher applied to every
window it owns, so everything after it (chunks, workers, page skipping, rescans) reasons about
windows and no longer about value types.
-/

set_option autoImplicit false
set_option relaxedAutoImplicit false

namespace Cecore.Scanner

open Library.LittleEndian Library.Stride

structure Matcher where
  stride : ℕ
  width : ℕ
  /-- The records for the bytes of a window, in order. -/
  report : List UInt8 → List (List UInt8)

namespace Matcher

/-- One record for every full window that satisfies a predicate. -/
def single (stride width : ℕ) (pred : List UInt8 → Bool) : Matcher where
  stride := max 1 stride
  width := width
  report := fun bytes ↦ if bytes.length = width ∧ pred bytes = true then [bytes] else []

@[simp] theorem width_single (stride width : ℕ) (pred : List UInt8 → Bool) :
    (single stride width pred).width = width := rfl

theorem mem_report_single {stride width : ℕ} {pred : List UInt8 → Bool} {bytes value : List UInt8} :
    value ∈ (single stride width pred).report bytes ↔
      value = bytes ∧ bytes.length = width ∧ pred bytes = true := by
  unfold single
  dsimp only
  split_ifs with hmatch
  · simp [hmatch]
  · simp [hmatch]

theorem report_single_ne_nil {stride width : ℕ} {pred : List UInt8 → Bool} {bytes : List UInt8} :
    (single stride width pred).report bytes ≠ [] ↔ bytes.length = width ∧ pred bytes = true := by
  unfold single
  dsimp only
  split_ifs with hmatch
  · simp [hmatch]
  · simp [hmatch]

/-- No records at all. -/
def nothing (width : ℕ) : Matcher := single 1 width fun _ ↦ false

@[simp] theorem report_nothing (width : ℕ) (bytes : List UInt8) :
    (nothing width).report bytes = [] := by
  simp [nothing, single]

/-- One record for each numeric sub-type that matches. -/
def allTypes (unit : FloatUnit) (config : ScanConfig) : Matcher where
  stride := max 1 config.alignment
  width := 8
  report := fun bytes ↦
    ((allTypeMatches unit config bytes).filter id).map fun _ ↦ allWindow bytes

end Matcher

/-- The predicate of a string scan on the bytes of a value. -/
def stringPredicate (config : ScanConfig) (needle bytes : List UInt8) : Bool :=
  if !config.caseSensitive then decide (bytes.map toLowerByte = needle.map toLowerByte)
  else decide (bytes = needle)

/-- The predicate of a UTF-16 scan on the bytes of a value. -/
def unicodePredicate (config : ScanConfig) (bytes : List UInt8) : Bool :=
  if config.caseSensitive then decide (bytes = utf16LeBytes config.stringValue)
  else unicodeFoldMatch bytes (utf16LeBytes config.stringValue)

/-- The predicate of a first floating-point scan on the bytes of a value. -/
def floatPredicate (unit : FloatUnit) (format : FloatFormat) (config : ScanConfig)
    (bytes : List UInt8) : Bool :=
  compareFloating unit format config (leNat bytes) (floatNeedle unit format config.floatValue)
    (floatNeedle unit format config.floatValue2)

/-- The matcher of a configuration. -/
def matcher (host : Host) (config : ScanConfig) : Matcher :=
  let numeric := fun width pred ↦ Matcher.single config.alignment width pred
  match config.valueType with
  | .byte => numeric 1 (intPredicate .uint8 config)
  | .int16 => numeric 2 (intPredicate .int16 config)
  | .int32 => numeric 4 (intPredicate .int32 config)
  | .int64 => numeric 8 (intPredicate .int64 config)
  | .pointer => numeric 8 (intPredicate .uintptr config)
  | .float => numeric 4 (floatPredicate host.floatUnit .single config)
  | .double => numeric 8 (floatPredicate host.floatUnit .double config)
  | .string =>
    match encodeStringBytes host config.stringValue config.stringEncoding with
    | .ok [] => .nothing 1
    | .ok needle => .single 1 needle.length (stringPredicate config needle)
    | .error _ => .nothing 1
  | .unicodeString =>
    if config.stringValue = [] then .nothing 2
    else .single 2 (config.stringValue.length * 2) (unicodePredicate config)
  | .byteArray =>
    if config.byteArray = [] ∨ config.byteArrayMask.length ≠ config.byteArray.length then
      .nothing (max 1 config.byteArray.length)
    else .single 1 config.byteArray.length fun bytes ↦
      maskedMatch bytes config.byteArray config.byteArrayMask
  | .binary =>
    if config.byteArray = [] ∨ config.byteMask.length ≠ config.byteArray.length then
      .nothing (max 1 config.byteArray.length)
    else numeric config.byteArray.length fun bytes ↦
      maskedMatch bytes config.byteArray config.byteMask
  | .all => .allTypes host.floatUnit config
  | .grouped =>
    if config.groupedTerms = [] ∨ config.groupedValueSize = 0 then
      .nothing (max 1 config.groupedValueSize)
    else numeric config.groupedValueSize fun bytes ↦
      decide (config.compareType = .unknown) ||
        groupedBlockMatches host.floatUnit config config.groupedValueSize bytes
  | .custom => numeric (max 1 config.customValueSize) fun bytes ↦
      decide (config.compareType = .unknown) || (decide (config.customFormula ≠ []) &&
        decide (host.evalFormula config.customFormula bytes bytes false = some true))

/-- A matcher applied to every window of a buffer that starts below `limit`. -/
def scanWindows (m : Matcher) (buf : List UInt8) (base limit : ℕ) : List Hit :=
  (offsets limit m.stride).flatMap fun offset ↦
    (m.report (slice buf offset m.width)).map (Hit.mk (base + offset))

theorem matcher_eq_allTypes {host : Host} {config : ScanConfig} (hall : config.valueType = .all) :
    matcher host config = .allTypes host.floatUnit config := by
  simp only [matcher, hall]

/-- Every type but the all-types scan records a window when a predicate holds of it. -/
theorem matcher_eq_single (host : Host) {config : ScanConfig} (hall : config.valueType ≠ .all) :
    ∃ stride width pred, matcher host config = .single stride width pred := by
  unfold matcher
  cases htype : config.valueType <;> dsimp only
  case all => exact absurd htype hall
  case string =>
    split <;> exact ⟨_, _, _, rfl⟩
  all_goals first
    | exact ⟨_, _, _, rfl⟩
    | (split_ifs <;> exact ⟨_, _, _, rfl⟩)

theorem Matcher.one_le_stride (host : Host) (config : ScanConfig) :
    1 ≤ (matcher host config).stride := by
  by_cases hall : config.valueType = .all
  · rw [matcher_eq_allTypes hall]
    exact Nat.le_max_left _ _
  · obtain ⟨stride, width, pred, hsingle⟩ := matcher_eq_single host hall
    rw [hsingle]
    exact Nat.le_max_left _ _

/-- The bytes a matcher looks at are the value size of its configuration. -/
theorem width_matcher {host : Host} {config : ScanConfig} {size : ℕ}
    (hsize : valueSizeForConfig host config = .ok size) : (matcher host config).width = size := by
  unfold valueSizeForConfig at hsize
  unfold matcher
  cases htype : config.valueType <;> simp only [htype] at hsize ⊢
  case string =>
    cases hencode : encodeStringBytes host config.stringValue config.stringEncoding with
    | error message => simp [hencode] at hsize
    | ok needle =>
      rw [hencode] at hsize
      have hmax := Except.ok.inj hsize
      cases needle with
      | nil => exact hmax
      | cons first rest =>
        rw [← hmax, Nat.max_eq_right (by simp)]
        rfl
  case unicodeString =>
    have hmax := Except.ok.inj hsize
    split_ifs with hempty
    · rw [← hmax, hempty]; rfl
    · have := List.length_pos_iff.mpr hempty
      rw [← hmax, Nat.max_eq_right (by omega), Matcher.width_single]
  case byteArray =>
    split_ifs with hguard
    · exact Except.ok.inj hsize
    · have := List.length_pos_iff.mpr (not_or.mp hguard).1
      rw [← Except.ok.inj hsize, Nat.max_eq_right this, Matcher.width_single]
  case binary =>
    split_ifs with hguard
    · exact Except.ok.inj hsize
    · have := List.length_pos_iff.mpr (not_or.mp hguard).1
      rw [← Except.ok.inj hsize, Nat.max_eq_right this, Matcher.width_single]
  case grouped =>
    split_ifs with hguard
    · exact Except.ok.inj hsize
    · have := (not_or.mp hguard).2
      rw [← Except.ok.inj hsize, Nat.max_eq_right (by omega), Matcher.width_single]
  all_goals exact Except.ok.inj hsize

theorem one_le_of_valueSizeForConfig {host : Host} {config : ScanConfig} {size : ℕ}
    (hsize : valueSizeForConfig host config = .ok size) : 1 ≤ size := by
  unfold valueSizeForConfig at hsize
  cases htype : config.valueType <;> simp only [htype] at hsize
  case string =>
    cases hencode : encodeStringBytes host config.stringValue config.stringEncoding with
    | error message => simp [hencode] at hsize
    | ok needle =>
      rw [hencode] at hsize
      have := Except.ok.inj hsize
      omega
  all_goals
    have := Except.ok.inj hsize
    omega

/-! ### The plain loop as windows -/

theorem offsets_eq_filter_lt {limit less step : ℕ} (hstep : 0 < step) (hless : less ≤ limit) :
    offsets less step = (offsets limit step).filter fun offset ↦ decide (offset < less) := by
  have hantisymm : ∀ first second : ℕ, first < second → second < first → first = second := by omega
  refine List.Perm.eq_of_pairwise (fun first second _ _ ↦ hantisymm first second) ?_ ?_ ?_
  · exact offsets_pairwise hstep
  · exact (offsets_pairwise hstep).filter _
  · rw [List.perm_ext_iff_of_nodup]
    · intro offset
      rw [List.mem_filter, mem_offsets hstep, mem_offsets hstep, decide_eq_true_iff]
      constructor
      · rintro ⟨hlt, hdvd⟩
        exact ⟨⟨by omega, hdvd⟩, hlt⟩
      · rintro ⟨⟨-, hdvd⟩, hlt⟩
        exact ⟨hlt, hdvd⟩
    · exact (offsets_pairwise hstep).imp fun h ↦ ne_of_lt h
    · exact ((offsets_pairwise hstep).imp fun h ↦ ne_of_lt h).filter _

theorem flatMap_ite_singleton {α β : Type} (l : List α) (keep : α → Prop) [DecidablePred keep]
    (f : α → β) :
    (l.flatMap fun a ↦ if keep a then [f a] else []) =
      (l.filter fun a ↦ decide (keep a)).map f := by
  induction l with
  | nil => rfl
  | cons a rest ih =>
    rw [List.flatMap_cons, ih, List.filter_cons]
    by_cases ha : keep a <;> simp [ha]

/-- The plain loop over a buffer looks at every window the buffer owns: those that start later do
not fit. -/
theorem strideScan_eq_scanWindows {buf : List UInt8} {base stride width limit : ℕ}
    {pred : List UInt8 → Bool} (hwidth : 1 ≤ width) (hlimit : limit ≤ buf.length)
    (hlook : buf.length + 1 ≤ limit + width) :
    strideScan buf base stride width pred =
      scanWindows (.single stride width pred) buf base limit := by
  have hstride : 0 < max 1 stride := by omega
  have hlength : ∀ offset, (slice buf offset width).length = min width (buf.length - offset) := by
    intro offset
    rw [slice, List.length_take, List.length_drop]
  have hwindows : scanWindows (.single stride width pred) buf base limit =
      ((offsets limit (max 1 stride)).filter fun offset ↦
        decide (offset + width ≤ buf.length ∧ pred (slice buf offset width) = true)).map
        (emitAt buf base width) := by
    rw [← flatMap_ite_singleton]
    refine List.flatMap_congr fun offset hoffset ↦ ?_
    have hlt := ((mem_offsets hstride).mp hoffset).1
    have hfull : (slice buf offset width).length = width ↔ offset + width ≤ buf.length := by
      rw [hlength]
      omega
    simp only [Matcher.single, hfull]
    split_ifs <;> rfl
  rw [hwindows, strideScan]
  by_cases hshort : buf.length < width
  · rw [if_pos hshort, List.filter_eq_nil_iff.mpr, List.map_nil]
    intro offset _
    rw [decide_eq_true_iff]
    omega
  · rw [if_neg hshort, offsets_eq_filter_lt hstride (by omega : buf.length - width + 1 ≤ limit),
      List.filter_filter]
    congr 1
    refine List.filter_congr fun offset _ ↦ ?_
    have hfit : offset < buf.length - width + 1 ↔ offset + width ≤ buf.length := by omega
    rw [Bool.decide_and, decide_eq_decide.mpr hfit, Bool.and_comm, Bool.decide_eq_true]

theorem scanWindows_nothing (buf : List UInt8) (base limit width : ℕ) :
    scanWindows (.nothing width) buf base limit = [] := by
  simp [scanWindows, Matcher.nothing, Matcher.single]

/-- The all-types scan looks at eight bytes from each position it owns. -/
theorem scanBufferAllTypes_eq_scanWindows {unit : FloatUnit} {buf : List UInt8} {base limit : ℕ}
    {config : ScanConfig} (hlimit : limit ≤ buf.length) :
    scanBufferAllTypes unit buf base config limit =
      scanWindows (.allTypes unit config) buf base limit := by
  unfold scanBufferAllTypes scanWindows
  rw [Nat.min_eq_left hlimit]
  refine List.flatMap_congr fun offset _ ↦ ?_
  have hint : ∀ type : IntType, type.width ≤ 8 →
      allIntMatch type config (buf.drop offset) = allIntMatch type config (slice buf offset 8) := by
    intro type htype
    simp only [allIntMatch, slice, List.take_take, Nat.min_eq_left htype, List.length_take,
      Nat.le_min, htype, true_and]
  have hfloat : ∀ format : FloatFormat, format.width ≤ 8 →
      allFloatMatch unit format config (buf.drop offset) =
        allFloatMatch unit format config (slice buf offset 8) := by
    intro format hformat
    simp only [allFloatMatch, slice, List.take_take, Nat.min_eq_left hformat, List.length_take,
      Nat.le_min, hformat, true_and]
  have hmatches : allTypeMatches unit config (buf.drop offset) =
      allTypeMatches unit config (slice buf offset 8) := by
    unfold allTypeMatches
    rw [hint .int8 (by decide), hint .int16 (by decide), hint .int32 (by decide),
      hint .int64 (by decide), hfloat .single (by decide), hfloat .double (by decide)]
  have hwindow : allWindow (buf.drop offset) = allWindow (slice buf offset 8) := by
    unfold allWindow slice
    rw [List.take_take, Nat.min_self, List.length_take]
    congr 2
    omega
  simp only [Matcher.allTypes, List.map_map, hmatches, hwindow]
  rfl

/-- The scan of a buffer is its matcher applied to every window it owns. `hlook` says that the
bytes past the owned positions are lookahead, less than one value. -/
theorem scanRegion_eq_scanWindows {host : Host} {config : ScanConfig} {buf : List UInt8}
    {base limit size : ℕ} (hsize : valueSizeForConfig host config = .ok size)
    (hlimit : limit ≤ buf.length) (hlook : buf.length + 1 ≤ limit + size) :
    scanRegion host config buf base limit = scanWindows (matcher host config) buf base limit := by
  have hpos := one_le_of_valueSizeForConfig hsize
  have hint : ∀ {type : IntType}, type.Standard → type.width = size →
      scanIntegerFast host.simd type buf base config.alignment config.intValue config.intValue2
        config.compareType =
      scanWindows (.single config.alignment type.width (intPredicate type config)) buf base
        limit := by
    intro type htype hwidth
    rw [scanIntegerFast_eq htype, strideScan_eq_scanWindows htype.pos hlimit (by omega)]
  have hfloat : ∀ {format : FloatFormat}, format.width = size →
      scanFloat host format buf base config =
      scanWindows (.single config.alignment format.width
        (floatPredicate host.floatUnit format config)) buf base limit := by
    rintro format hformat
    rw [scanFloat_eq (by omega)]
    exact strideScan_eq_scanWindows (by omega) hlimit (by omega)
  have hwidth := width_matcher hsize
  unfold valueSizeForConfig at hsize
  unfold matcher at hwidth ⊢
  unfold scanRegion
  cases htype : config.valueType <;> simp only [htype] at hsize hwidth ⊢
  case byte => exact hint (Or.inl rfl) (Except.ok.inj hsize)
  case int16 => exact hint (Or.inr (Or.inl rfl)) (Except.ok.inj hsize)
  case int32 => exact hint (Or.inr (Or.inr (Or.inl rfl))) (Except.ok.inj hsize)
  case int64 => exact hint (Or.inr (Or.inr (Or.inr rfl))) (Except.ok.inj hsize)
  case pointer => exact hint (Or.inr (Or.inr (Or.inr rfl))) (Except.ok.inj hsize)
  case float => exact hfloat (Except.ok.inj hsize)
  case double => exact hfloat (Except.ok.inj hsize)
  case string =>
    cases hencode : encodeStringBytes host config.stringValue config.stringEncoding with
    | error message => simp [hencode] at hsize
    | ok needle =>
      rw [hencode] at hwidth
      cases needle with
      | nil => exact (scanWindows_nothing _ _ _ _).symm
      | cons first rest =>
        have hlen : (first :: rest).length = size := hwidth
        dsimp only
        rw [scanBufferString_eq _ _ _ (by simp),
          strideScan_eq_scanWindows (by simp) hlimit (by omega)]
        rfl
  case unicodeString =>
    split_ifs at hwidth ⊢ with hempty
    · rw [scanWindows_nothing, scanBufferUnicode, hempty]
      rfl
    · have hlen : config.stringValue.length * 2 = size := hwidth
      have hencoded : utf16LeBytes config.stringValue ≠ [] := by
        intro hnil
        have hlength := length_utf16LeBytes config.stringValue
        rw [hnil, List.length_nil] at hlength
        exact hempty (List.length_eq_zero_iff.mp (by omega))
      rw [scanBufferUnicode, if_neg hencoded, length_utf16LeBytes, Nat.mul_comm,
        strideScan_eq_scanWindows (by omega) hlimit (by omega)]
      congr 2
      funext bytes
      cases hcase : config.caseSensitive <;> simp [unicodePredicate, hcase]
  case byteArray =>
    split_ifs at hwidth ⊢ with hguard
    · rw [scanWindows_nothing, scanBufferAOB, if_pos]
      rcases hguard with h | h
      · exact Or.inl h
      · exact Or.inr (Or.inl h)
    · obtain ⟨hpattern, hmask⟩ := not_or.mp hguard
      have hlen : config.byteArray.length = size := hwidth
      rw [scanBufferAOB_eq _ _ _ hpattern (not_not.mp hmask),
        strideScan_eq_scanWindows (by omega) hlimit (by omega)]
  case binary =>
    split_ifs at hwidth ⊢ with hguard
    · rw [scanWindows_nothing, scanBufferBinary, if_pos hguard]
    · have hlen : config.byteArray.length = size := hwidth
      rw [scanBufferBinary, if_neg hguard, strideScan_eq_scanWindows (by omega) hlimit (by omega)]
  case all => exact scanBufferAllTypes_eq_scanWindows hlimit
  case grouped =>
    by_cases hunknown : config.compareType = .unknown
    · rw [if_pos hunknown, scanBufferUnknown]
      by_cases hzero : config.groupedValueSize = 0
      · rw [if_pos hzero, if_pos (Or.inr hzero), scanWindows_nothing]
      · have hterms : config.groupedTerms ≠ [] := by
          intro hnil
          simp [ScanConfig.groupedValueSize, hnil] at hzero
        rw [if_neg (not_or.mpr ⟨hterms, hzero⟩)] at hwidth ⊢
        have hlen : config.groupedValueSize = size := hwidth
        rw [if_neg hzero, strideScan_eq_scanWindows (by omega) hlimit (by omega)]
        simp [hunknown]
    · rw [if_neg hunknown, scanBufferGrouped]
      split_ifs at hwidth ⊢ with hguard
      · rw [scanWindows_nothing]
      · have hlen : config.groupedValueSize = size := hwidth
        rw [strideScan_eq_scanWindows (by omega) hlimit (by omega)]
        simp [hunknown]
  case custom =>
    have hlen : max 1 config.customValueSize = size := hwidth
    rw [scanBufferCustom, strideScan_eq_scanWindows (by omega) hlimit (by omega)]

end Cecore.Scanner
