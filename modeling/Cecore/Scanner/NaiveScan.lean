import Cecore.Scanner.BufferScan
import Mathlib.Tactic.Ring

/-!
# Every buffer scan is the naive scan

The vector and anchored scans report what the plain loop reports: `scanIntegerFast_eq`,
`scanFloat_eq`, `scanBufferString_eq` and `scanBufferAOB_eq` rewrite each of them to `strideScan`
with one predicate. `scanRegion_eq` collects them: for every type but the all-types scan, a buffer
is scanned with the stride, width and predicate of the configuration.
-/

set_option autoImplicit false
set_option relaxedAutoImplicit false

namespace Cecore.Scanner

open Library.LittleEndian Library.Stride Library.BitMask

theorem length_slice {buf : List UInt8} {offset width : ℕ} (h : offset + width ≤ buf.length) :
    (slice buf offset width).length = width := by
  unfold slice
  rw [List.length_take, List.length_drop]
  omega

theorem slice_slice {buf : List UInt8} {start size offset width : ℕ} (h : offset + width ≤ size) :
    slice (slice buf start size) offset width = slice buf (start + offset) width := by
  unfold slice
  rw [List.drop_take, List.drop_drop, List.take_take, Nat.min_eq_left (by omega)]

/-! ### Lanes -/

/-- The lanes of a buffer are its offsets at a stride of one lane. -/
theorem scanLanes_eq_strideScan {buf : List UInt8} {base width : ℕ} (hwidth : 0 < width)
    (hfit : width ≤ buf.length) (pred : List UInt8 → Bool) :
    scanLanes buf base width 0 ((buf.length - width) / width + 1) pred =
      strideScan buf base width width pred := by
  have hcount : (buf.length - width + 1 + width - 1) / width = (buf.length - width) / width + 1 := by
    rw [show buf.length - width + 1 + width - 1 = buf.length - width + width by omega,
      Nat.add_div_right _ hwidth]
  rw [scanLanes, strideScan, if_neg (by omega), Nat.max_eq_right hwidth, offsets_eq_map, hcount,
    List.filter_map, List.map_map, List.range_eq_range']
  rfl

/-- Scanning lanes in two runs. -/
theorem scanLanes_append (buf : List UInt8) (base width first second : ℕ)
    (pred : List UInt8 → Bool) :
    scanLanes buf base width 0 first pred ++ scanLanes buf base width first second pred =
      scanLanes buf base width 0 (first + second) pred := by
  unfold scanLanes
  rw [← List.map_append, ← List.filter_append, ← List.range'_append_1, Nat.zero_add]

theorem scanLanes_congr {buf : List UInt8} {base width first count : ℕ}
    {pred other : List UInt8 → Bool}
    (h : ∀ lane, first ≤ lane → lane < first + count →
      pred (slice buf (lane * width) width) = other (slice buf (lane * width) width)) :
    scanLanes buf base width first count pred = scanLanes buf base width first count other := by
  unfold scanLanes
  congr 1
  refine List.filter_congr fun lane hlane ↦ ?_
  rw [List.mem_range'_1] at hlane
  exact h lane hlane.1 hlane.2

/-! ### Vector compares -/

/-- A byte of a compare result is all ones or zero with its lane. -/
theorem getElem?_cmpeqLanes {laneBytes lanes : ℕ} {vector needle : List UInt8} {lane byte : ℕ}
    (hlane : lane < lanes) (hbyte : byte < laneBytes) :
    (cmpeqLanes laneBytes lanes vector needle)[lane * laneBytes + byte]? =
      some (if slice vector (lane * laneBytes) laneBytes = needle then 0xFF else 0) := by
  unfold cmpeqLanes
  induction lanes generalizing lane with
  | zero => omega
  | succ lanes ih =>
    have hlength : ((List.range lanes).flatMap fun lane ↦ List.replicate laneBytes
        (if slice vector (lane * laneBytes) laneBytes = needle then (0xFF : UInt8) else 0)).length
          = lanes * laneBytes := by
      simp [List.length_flatMap]
    rw [List.range_succ, List.flatMap_append, List.getElem?_append, hlength]
    by_cases hlast : lane = lanes
    · subst hlast
      rw [if_neg (by omega), Nat.add_sub_cancel_left]
      simp [hbyte]
    · have hlt : lane < lanes := by omega
      have hindex : lane * laneBytes + byte < lanes * laneBytes := by
        calc lane * laneBytes + byte < lane * laneBytes + laneBytes := by omega
          _ = (lane + 1) * laneBytes := by ring
          _ ≤ lanes * laneBytes := Nat.mul_le_mul_right _ hlt
      rw [if_pos hindex]
      exact ih hlt

/-- The lowest mask bit of a lane tells whether the lane equals the needle. -/
theorem testBit_movemask_cmpeqLanes {laneBytes lanes : ℕ} {vector needle : List UInt8} {lane : ℕ}
    (hbytes : 0 < laneBytes) (hlane : lane < lanes) :
    (movemask (cmpeqLanes laneBytes lanes vector needle)).testBit (lane * laneBytes) =
      decide (slice vector (lane * laneBytes) laneBytes = needle) := by
  have hbyte := @getElem?_cmpeqLanes laneBytes lanes vector needle lane 0 hlane hbytes
  rw [Nat.add_zero] at hbyte
  rw [testBit_movemask, hbyte]
  by_cases heq : slice vector (lane * laneBytes) laneBytes = needle <;> simp [heq]

/-- The hits of one vector are those of its lanes. -/
theorem emitMaskLanes_eq_scanLanes {buf needle : List UInt8} {base laneBytes lanes firstLane : ℕ}
    (hbytes : 0 < laneBytes) :
    (let mask := movemask (cmpeqLanes laneBytes lanes
        (slice buf (firstLane * laneBytes) (lanes * laneBytes)) needle)
      if mask ≠ 0 then emitMaskLanes buf base laneBytes lanes firstLane mask else []) =
      scanLanes buf base laneBytes firstLane lanes fun bytes ↦ decide (bytes = needle) := by
  set mask := movemask (cmpeqLanes laneBytes lanes
    (slice buf (firstLane * laneBytes) (lanes * laneBytes)) needle) with hmask
  have hbit : ∀ lane < lanes, mask.testBit (lane * laneBytes) =
      decide (slice buf ((firstLane + lane) * laneBytes) laneBytes = needle) := by
    intro lane hlane
    have hfit : lane * laneBytes + laneBytes ≤ lanes * laneBytes := by
      calc lane * laneBytes + laneBytes = (lane + 1) * laneBytes := by ring
        _ ≤ lanes * laneBytes := Nat.mul_le_mul_right _ hlane
    rw [hmask, testBit_movemask_cmpeqLanes hbytes hlane, slice_slice hfit, ← Nat.add_mul]
  have hemit : emitMaskLanes buf base laneBytes lanes firstLane mask =
      scanLanes buf base laneBytes firstLane lanes fun bytes ↦ decide (bytes = needle) := by
    unfold emitMaskLanes scanLanes
    rw [List.range'_eq_map_range, List.filter_map, List.map_map]
    congr 1
    exact List.filter_congr fun lane hlane ↦ hbit lane (List.mem_range.mp hlane)
  by_cases hzero : mask = 0
  · rw [if_neg (not_not.mpr hzero), ← hemit, emitMaskLanes, hzero]
    simp
  · rw [if_pos hzero, hemit]

/-- Whole vectors followed by the lanes left over are all the lanes. -/
theorem flatMap_scanLanes (buf : List UInt8) (base width lanes blocks : ℕ)
    (pred : List UInt8 → Bool) :
    ((List.range blocks).flatMap fun block ↦ scanLanes buf base width (block * lanes) lanes pred) =
      scanLanes buf base width 0 (blocks * lanes) pred := by
  induction blocks with
  | zero => simp [scanLanes]
  | succ blocks ih =>
    rw [List.range_succ, List.flatMap_append, ih, List.flatMap_singleton, scanLanes_append,
      Nat.succ_mul]

/-! ### Integers -/

/-- The widths the integer templates are instantiated at. -/
def IntType.Standard (type : IntType) : Prop :=
  type.width = 1 ∨ type.width = 2 ∨ type.width = 4 ∨ type.width = 8

theorem IntType.Standard.pos {type : IntType} (h : type.Standard) : 0 < type.width := by
  rcases h with h | h | h | h <;> omega

theorem IntType.Standard.dvd {type : IntType} (h : type.Standard) : 32 / type.width * type.width = 32
    := by
  rcases h with h | h | h | h <;> rw [h]

/-- The compare of whole vectors and single lanes, as the compare of every lane. -/
theorem scanExactVector_eq {vectorBytes : ℕ} {type : IntType} {buf : List UInt8} {nLanes base : ℕ}
    {needle : ℤ} (hwidth : 0 < type.width)
    (hvector : vectorBytes / type.width * type.width = vectorBytes)
    (hfit : nLanes * type.width ≤ buf.length) :
    scanExactVector vectorBytes type buf nLanes base needle =
      scanLanes buf base type.width 0 nLanes fun bytes ↦
        decide (type.decode bytes = type.cast needle) := by
  have hlane : ∀ lane, 0 ≤ lane → lane < 0 + nLanes / (vectorBytes / type.width) *
      (vectorBytes / type.width) →
      decide (slice buf (lane * type.width) type.width = toLE type.width (type.castBits needle)) =
        decide (type.decode (slice buf (lane * type.width) type.width) = type.cast needle) := by
    intro lane _ hlane
    have hlanes := Nat.div_mul_le_self nLanes (vectorBytes / type.width)
    have hend : lane * type.width + type.width ≤ buf.length := by
      calc lane * type.width + type.width = (lane + 1) * type.width := by ring
        _ ≤ nLanes * type.width := Nat.mul_le_mul_right _ (by omega)
        _ ≤ buf.length := hfit
    exact decide_eq_decide.mpr (type.decode_eq_cast_iff needle (length_slice hend)).symm
  have hblock : ∀ block, _ = scanLanes buf base type.width (block * (vectorBytes / type.width))
      (vectorBytes / type.width) fun bytes ↦
        decide (bytes = toLE type.width (type.castBits needle)) := fun block ↦
    emitMaskLanes_eq_scanLanes hwidth
  rw [hvector] at hblock
  have hvectors := List.flatMap_congr (l := List.range (nLanes / (vectorBytes / type.width)))
    fun block _ ↦ hblock block
  calc scanExactVector vectorBytes type buf nLanes base needle
      = _ ++ scanLanes buf base type.width _ _ _ := congrArg (· ++ _) hvectors
    _ = scanLanes buf base type.width 0 nLanes fun bytes ↦
          decide (type.decode bytes = type.cast needle) := by
      have hsame := @scanLanes_congr buf base type.width 0 _
        (fun bytes ↦ decide (bytes = toLE type.width (type.castBits needle)))
        (fun bytes ↦ decide (type.decode bytes = type.cast needle)) hlane
      rw [flatMap_scanLanes, hsame, scanLanes_append, Nat.div_add_mod']

/-- `scanExactInteger` reports the aligned offsets whose value is the needle, in every mode. -/
theorem scanExactInteger_eq {type : IntType} (htype : type.Standard) (simd : SimdMode)
    (buf : List UInt8) (base alignment : ℕ) (needle : ℤ) :
    scanExactInteger simd type buf base alignment needle =
      strideScan buf base alignment type.width fun bytes ↦
        decide (type.decode bytes = type.cast needle) := by
  unfold scanExactInteger
  by_cases hshort : buf.length < type.width
  · rw [if_pos hshort, strideScan, if_pos hshort]
  · rw [if_neg hshort]
    by_cases haligned : max 1 alignment = type.width
    · have hstride : strideScan buf base alignment type.width (fun bytes ↦
          decide (type.decode bytes = type.cast needle)) =
          scanLanes buf base type.width 0 ((buf.length - type.width) / type.width + 1) fun bytes ↦
            decide (type.decode bytes = type.cast needle) := by
        rw [scanLanes_eq_strideScan htype.pos (by omega), strideScan, strideScan, haligned,
          Nat.max_eq_right htype.pos]
      have hfit : ((buf.length - type.width) / type.width + 1) * type.width ≤ buf.length := by
        have := Nat.div_mul_le_self (buf.length - type.width) type.width
        rw [Nat.add_mul, Nat.one_mul]
        omega
      rw [if_pos haligned, hstride]
      cases simd with
      | scalar => rfl
      | sse2 =>
        dsimp only
        split_ifs with hlanes
        · refine scanExactVector_eq htype.pos ?_ hfit
          rcases hlanes with h | h | h <;> rw [h]
        · rfl
      | avx2 => exact scanExactVector_eq htype.pos htype.dvd hfit
    · rw [if_neg haligned]

/-- The predicate of a first integer scan on the bytes of a value. -/
def intPredicate (type : IntType) (config : ScanConfig) (bytes : List UInt8) : Bool :=
  relationalPredicate config.compareType (type.cast config.intValue) (type.cast config.intValue2)
    (type.decode bytes)

theorem scanIntegerFast_eq {type : IntType} (htype : type.Standard) (simd : SimdMode)
    (buf : List UInt8) (base : ℕ) (config : ScanConfig) :
    scanIntegerFast simd type buf base config.alignment config.intValue config.intValue2
        config.compareType =
      strideScan buf base config.alignment type.width (intPredicate type config) := by
  unfold scanIntegerFast intPredicate
  split_ifs with hexact
  · rw [scanExactInteger_eq htype, hexact]
    rfl
  · rfl

/-! ### Floating point -/

/-- Dropping the lanes outside the window first loses no match. -/
theorem scanRoundedFloat_eq (lanes : ℕ) (unit : FloatUnit) (format : FloatFormat)
    (buf : List UInt8) (nLanes base : ℕ) (config : ScanConfig) (needle : ℕ) :
    scanRoundedFloat lanes unit format buf nLanes base config needle =
      scanLanes buf base format.width 0 nLanes fun bytes ↦
        compareFloatingExact unit format config (leNat bytes) needle := by
  have hwindow : ∀ bytes : List UInt8,
      (format.le (unit.window format config.roundingType config.floatTolerance needle).1
          (leNat bytes) &&
        format.le (leNat bytes)
          (unit.window format config.roundingType config.floatTolerance needle).2 &&
        compareFloatingExact unit format config (leNat bytes) needle) =
      compareFloatingExact unit format config (leNat bytes) needle := by
    intro bytes
    cases hmatch : compareFloatingExact unit format config (leNat bytes) needle with
    | false => simp
    | true =>
      unfold compareFloatingExact at hmatch
      split_ifs at hmatch with hfinite hmode
      · have hin := unit.rounded_in_window format config.roundingType config.floatDecimals
          config.floatTolerance (leNat bytes) needle (by simpa using hfinite) (Or.inl hmatch)
        simp [hin]
      · have hin := unit.rounded_in_window format config.roundingType config.floatDecimals
          config.floatTolerance (leNat bytes) needle (by simpa using hfinite) (Or.inr hmatch)
        simp [hin]
  unfold scanRoundedFloat
  simp only [hwindow]
  rw [scanLanes_append, Nat.div_add_mod']

/-- Unrounded equality with a finite needle is the exact comparison: an infinity or NaN equals no
finite needle. -/
theorem eq_needle_eq_compareFloatingExact {unit : FloatUnit} {format : FloatFormat}
    {config : ScanConfig} {needle : ℕ} (hmode : config.roundingType = 0)
    (hneedle : format.isFinite needle = true) (current : ℕ) :
    format.eq current needle = compareFloatingExact unit format config current needle := by
  unfold compareFloatingExact
  rw [hmode]
  by_cases hfinite : format.isFinite current = true
  · simp [hfinite]
  · have hne : format.key current ≠ format.key needle := by
      simp only [FloatFormat.isFinite, decide_eq_true_eq, FloatFormat.key] at hfinite hneedle ⊢
      split_ifs <;> omega
    simp [hfinite, FloatFormat.eq, hne]

theorem tryScanExactFloat_eq {simd : SimdMode} {unit : FloatUnit} {format : FloatFormat}
    {buf : List UInt8} {base alignment : ℕ} {config : ScanConfig} {hits : List Hit}
    (hwidth : 0 < format.width)
    (hscan : tryScanExactFloat simd unit format buf base alignment config = some hits) :
    hits = scanBufferFloating unit format buf base alignment config := by
  unfold tryScanExactFloat at hscan
  dsimp only at hscan
  split_ifs at hscan with hexact haligned hshort hfinite hmode hscalar
  all_goals
    rw [not_not] at hexact haligned
    have hneedle : format.isFinite (floatNeedle unit format config.floatValue) = true := by
      simpa using hfinite
    have hcompare : ∀ bytes : List UInt8, compareFloating unit format config (leNat bytes)
        (floatNeedle unit format config.floatValue) (floatNeedle unit format config.floatValue2) =
        compareFloatingExact unit format config (leNat bytes)
          (floatNeedle unit format config.floatValue) := fun bytes ↦ if_pos hexact
    have hhits := (Option.some.inj hscan).symm
    rw [scanBufferFloating, haligned, ← scanLanes_eq_strideScan hwidth (by omega), hhits]
    simp only [hcompare]
  · have hequal := @eq_needle_eq_compareFloatingExact unit format config _ hmode hneedle
    simp only [hequal]
  · exact scanRoundedFloat_eq _ unit format buf _ base config _

theorem scanFloat_eq {format : FloatFormat} (hwidth : 0 < format.width) (host : Host)
    (buf : List UInt8) (base : ℕ) (config : ScanConfig) :
    scanFloat host format buf base config =
      scanBufferFloating host.floatUnit format buf base config.alignment config := by
  unfold scanFloat
  cases hscan : tryScanExactFloat host.simd host.floatUnit format buf base config.alignment config with
  | none => rfl
  | some hits => exact tryScanExactFloat_eq hwidth hscan

/-! ### Byte patterns and strings -/

theorem slice_one_eq_iff (buf : List UInt8) (offset : ℕ) (byte : UInt8) :
    slice buf offset 1 = [byte] ↔ buf[offset]? = some byte := by
  unfold slice
  rw [List.take_one, List.head?_drop]
  cases buf[offset]? <;> simp

/-- The anchor positions of sixteen bytes, read off the compare mask. -/
theorem setBits_movemask_eq_filter (buf : List UInt8) (p : ℕ) (anchor : UInt8) :
    setBits 16 16 (movemask (cmpeqLanes 1 16 (slice buf p 16) [anchor])) =
      (List.range 16).filter fun lane ↦ decide (buf[p + lane]? = some anchor) := by
  have hlength : (cmpeqLanes 1 16 (slice buf p 16) [anchor]).length = 16 := by
    simp [cmpeqLanes, List.length_flatMap]
  have hbits : ∀ lane ∈ List.range 16,
      (movemask (cmpeqLanes 1 16 (slice buf p 16) [anchor])).testBit lane =
        decide (buf[p + lane]? = some anchor) := by
    intro lane hlane
    rw [List.mem_range] at hlane
    have hbit := @testBit_movemask_cmpeqLanes 1 16 (slice buf p 16) [anchor] lane Nat.one_pos hlane
    rw [Nat.mul_one, slice_slice (by omega)] at hbit
    rw [hbit]
    exact decide_eq_decide.mpr (slice_one_eq_iff buf (p + lane) anchor)
  rw [setBits_eq_filter (hlength ▸ movemask_lt _)]
  · exact List.filter_congr hbits
  · exact (List.length_filter_le _ _).trans (by simp)

/-- The anchored walk finds every position of the anchor byte, in order. -/
theorem anchorScan_eq (simd : SimdMode) (buf : List UInt8) (startPos endPos : ℕ) (anchor : UInt8) :
    anchorScan simd buf startPos endPos anchor =
      (List.range' startPos (endPos - startPos)).filter fun p ↦
        decide (buf[p]? = some anchor) := by
  unfold anchorScan
  set blocks := if simd = .scalar then 0 else (endPos - startPos) / 16 with hblocks
  have hfit : 16 * blocks ≤ endPos - startPos := by
    rw [hblocks]
    split_ifs
    · omega
    · exact Nat.mul_div_le _ _
  have hvectors : ∀ count, ((List.range count).flatMap fun block ↦
      (setBits 16 16 (movemask (cmpeqLanes 1 16 (slice buf (startPos + 16 * block) 16)
        [anchor]))).map (startPos + 16 * block + ·)) =
      (List.range' startPos (16 * count)).filter fun p ↦ decide (buf[p]? = some anchor) := by
    intro count
    induction count with
    | zero => rfl
    | succ count ih =>
      rw [List.range_succ, List.flatMap_append, ih, List.flatMap_singleton,
        setBits_movemask_eq_filter, Nat.mul_succ, ← List.range'_append_1, List.filter_append]
      congr 1
      rw [List.range'_eq_map_range (s := startPos + 16 * count), List.filter_map]
      rfl
  dsimp only
  rw [hvectors, ← List.filter_append, Nat.sub_sub, ← Nat.sub_sub, List.range'_append_1]
  congr 2
  omega

/-- An anchored search filtered by the whole compare is the search at every offset: a match has
the anchor byte in its place. -/
theorem filter_anchorScan_eq {simd : SimdMode} {buf : List UInt8} {limit anchorIdx : ℕ}
    {anchor : UInt8} {keep : ℕ → Bool}
    (hanchor : ∀ offset < limit, keep offset = true → buf[offset + anchorIdx]? = some anchor) :
    ((anchorScan simd buf anchorIdx (limit + anchorIdx) anchor).map (· - anchorIdx)).filter keep =
      (List.range limit).filter keep := by
  have hid : ((fun p ↦ p - anchorIdx) ∘ fun offset ↦ anchorIdx + offset) = id := by
    funext offset
    simp
  rw [anchorScan_eq, Nat.add_sub_cancel, List.range'_eq_map_range, List.filter_map,
    List.filter_map, List.filter_map, List.map_map, hid, List.map_id, List.filter_filter]
  refine List.filter_congr fun offset hoffset ↦ ?_
  rw [List.mem_range] at hoffset
  cases hkeep : keep offset with
  | false => simp [hkeep]
  | true =>
    have := hanchor offset hoffset hkeep
    simp [hkeep, Nat.add_comm anchorIdx offset, this]

theorem strideScan_one {buf : List UInt8} {base width : ℕ} (hfit : width ≤ buf.length)
    (pred : List UInt8 → Bool) :
    strideScan buf base 1 width pred =
      ((List.range (buf.length - width + 1)).filter fun offset ↦
        pred (slice buf offset width)).map (emitAt buf base width) := by
  rw [strideScan, if_neg (by omega)]
  congr 2
  rw [offsets_eq_filter (by omega)]
  simp

theorem getElem?_slice {buf : List UInt8} {offset width index : ℕ} (hindex : index < width) :
    (slice buf offset width)[index]? = buf[offset + index]? := by
  unfold slice
  rw [List.getElem?_take_of_lt hindex, List.getElem?_drop]

/-- The string search is the plain search at every offset. -/
theorem scanBufferString_eq (simd : SimdMode) (buf : List UInt8) (base : ℕ) {needle : List UInt8}
    (hneedle : needle ≠ []) (caseInsensitive : Bool) :
    scanBufferString simd buf base needle caseInsensitive =
      strideScan buf base 1 needle.length fun bytes ↦
        if caseInsensitive then decide (bytes.map toLowerByte = needle.map toLowerByte)
        else decide (bytes = needle) := by
  cases needle with
  | nil => exact absurd rfl hneedle
  | cons first rest =>
    unfold scanBufferString
    dsimp only
    by_cases hshort : buf.length < (first :: rest).length
    · rw [if_pos hshort, strideScan, if_pos hshort]
    · rw [if_neg hshort]
      cases caseInsensitive with
      | true => rfl
      | false =>
        have hfirst : ∀ offset < buf.length - (first :: rest).length + 1,
            decide (slice buf offset (first :: rest).length = first :: rest) = true →
              buf[offset + 0]? = some first := by
          intro offset _ hmatch
          rw [decide_eq_true_iff] at hmatch
          have hget : (slice buf offset (first :: rest).length)[0]? = buf[offset + 0]? :=
            getElem?_slice (by simp)
          rw [hmatch] at hget
          exact hget.symm
        have hanchor := @filter_anchorScan_eq simd _ _ _ _ _ hfirst
        simp only [Nat.add_zero, Nat.sub_zero, List.map_id'] at hanchor
        simp only [Bool.not_false, if_true, Bool.false_eq_true, if_false]
        rw [strideScan_one (by omega)]
        exact congrArg _ hanchor

/-- Where the mask counts a byte in full, a match has the byte of the pattern. -/
theorem getElem?_of_maskedMatch {bytes pattern mask : List UInt8} {index : ℕ}
    (hmatch : maskedMatch bytes pattern mask = true) (hindex : index < pattern.length)
    (hfull : mask[index]? = some 0xFF) : bytes[index]? = pattern[index]? := by
  induction pattern generalizing bytes mask index with
  | nil => simp at hindex
  | cons value pattern ih =>
    cases bytes with
    | nil => simp [maskedMatch] at hmatch
    | cons byte bytes =>
      cases mask with
      | nil => simp at hfull
      | cons bits mask =>
        rw [maskedMatch, Bool.and_eq_true, decide_eq_true_iff] at hmatch
        cases index with
        | zero =>
          have hbits : bits = 0xFF := by simpa using hfull
          subst hbits
          have hand : ∀ b : UInt8, b &&& 0xFF = b := fun b ↦ UInt8.and_neg_one
          have hbyte := hmatch.1
          rw [hand, hand] at hbyte
          simp [hbyte]
        | succ index =>
          simp only [List.getElem?_cons_succ] at hfull ⊢
          exact ih hmatch.2 (by simpa using hindex) hfull

/-- The byte-pattern search is the masked compare at every offset. -/
theorem scanBufferAOB_eq (simd : SimdMode) (buf : List UInt8) (base : ℕ)
    {pattern mask : List UInt8} (hpattern : pattern ≠ []) (hmask : mask.length = pattern.length) :
    scanBufferAOB simd buf base pattern mask =
      strideScan buf base 1 pattern.length fun bytes ↦ maskedMatch bytes pattern mask := by
  unfold scanBufferAOB
  by_cases hshort : buf.length < pattern.length
  · rw [if_pos (Or.inr (Or.inr hshort)), strideScan, if_pos hshort]
  · have hguard : ¬(pattern = [] ∨ mask.length ≠ pattern.length ∨ buf.length < pattern.length) := by
      rintro (h | h | h)
      · exact hpattern h
      · exact h hmask
      · exact hshort h
    rw [if_neg hguard, strideScan_one (by omega)]
    dsimp only
    cases hfind : mask.findIdx? (· = 0xFF) with
    | none => rfl
    | some anchorIdx =>
      obtain ⟨hlt, hfull, -⟩ := List.findIdx?_eq_some_iff_getElem.mp hfind
      rw [decide_eq_true_iff] at hfull
      have hget : mask[anchorIdx]? = some 0xFF := by rw [List.getElem?_eq_getElem hlt, hfull]
      dsimp only
      refine congrArg _ (filter_anchorScan_eq fun offset _ hmatch ↦ ?_)
      have hbyte := getElem?_of_maskedMatch hmatch (hmask ▸ hlt) hget
      rw [getElem?_slice (hmask ▸ hlt)] at hbyte
      rw [hbyte, List.getD_eq_getElem _ _ (hmask ▸ hlt), List.getElem?_eq_getElem]

end Cecore.Scanner
