import Cecore.Scanner.ScanConfig
import Cecore.Library.Stride
import Cecore.Library.BitMask

/-!
# Scanning one buffer

The buffer scanners of a first scan, each as the list of `addResult` calls it makes. Most of them
are one loop, `strideScan`, with a step, a value width and a predicate of their own; the exact
integer scan, the byte-pattern scan and the string scan also have vector forms, which are written
out here as the vector code walks the buffer.
-/

set_option autoImplicit false
set_option relaxedAutoImplicit false

namespace Cecore.Scanner

open Library.LittleEndian Library.Stride Library.BitMask

/-- A call `addResult(address, value, …)`. -/
structure Hit where
  address : ℕ
  value : List UInt8
  deriving DecidableEq, Repr

/-- The `width` bytes of a buffer at an offset. -/
def slice (buf : List UInt8) (offset width : ℕ) : List UInt8 := (buf.drop offset).take width

/-- `addResult(base + off, buf + off, width)`. -/
def emitAt (buf : List UInt8) (base width offset : ℕ) : Hit :=
  ⟨base + offset, slice buf offset width⟩

/-- The loop of the strided scanners: `off = 0; off < bufSize - width + 1; off += alignment`, an
alignment of zero counting as one. -/
def strideScan (buf : List UInt8) (base alignment width : ℕ) (pred : List UInt8 → Bool) :
    List Hit :=
  if buf.length < width then []
  else ((offsets (buf.length - width + 1) (max 1 alignment)).filter fun offset ↦
    pred (slice buf offset width)).map (emitAt buf base width)

/-! ### Integers -/

/-- A lane-wise equality compare: every byte of an equal lane is `0xFF`, every other byte zero. -/
def cmpeqLanes (laneBytes lanes : ℕ) (vector needle : List UInt8) : List UInt8 :=
  (List.range lanes).flatMap fun lane ↦
    List.replicate laneBytes (if slice vector (lane * laneBytes) laneBytes = needle then 0xFF else 0)

/-- `emitMaskLanes`: a lane is a hit when its lowest mask bit is set. -/
def emitMaskLanes (buf : List UInt8) (base laneBytes lanes firstLane mask : ℕ) : List Hit :=
  ((List.range lanes).filter fun lane ↦ mask.testBit (lane * laneBytes)).map fun lane ↦
    emitAt buf base laneBytes ((firstLane + lane) * laneBytes)

/-- The scalar lane loop from `firstLane` on. -/
def scanLanes (buf : List UInt8) (base laneBytes firstLane count : ℕ) (pred : List UInt8 → Bool) :
    List Hit :=
  ((List.range' firstLane count).filter fun lane ↦
    pred (slice buf (lane * laneBytes) laneBytes)).map fun lane ↦
      emitAt buf base laneBytes (lane * laneBytes)

/-- `scanExactAVX2` (32-byte vectors) and `scanExactSSE2` (16-byte vectors): whole vectors by
compare and mask, the lanes left over one at a time. -/
def scanExactVector (vectorBytes : ℕ) (type : IntType) (buf : List UInt8) (nLanes base : ℕ)
    (needle : ℤ) : List Hit :=
  let laneBytes := type.width
  let lanes := vectorBytes / laneBytes
  ((List.range (nLanes / lanes)).flatMap fun block ↦
    let firstLane := block * lanes
    let mask := movemask (cmpeqLanes laneBytes lanes
      (slice buf (firstLane * laneBytes) vectorBytes) (toLE laneBytes (type.castBits needle)))
    if mask ≠ 0 then emitMaskLanes buf base laneBytes lanes firstLane mask else []) ++
  scanLanes buf base laneBytes (nLanes / lanes * lanes) (nLanes % lanes) fun bytes ↦
    decide (type.decode bytes = type.cast needle)

/-- `scanExactInteger`. -/
def scanExactInteger (simd : SimdMode) (type : IntType) (buf : List UInt8) (base alignment : ℕ)
    (needle : ℤ) : List Hit :=
  if buf.length < type.width then []
  else if max 1 alignment = type.width then
    let nLanes := (buf.length - type.width) / type.width + 1
    match simd with
    | .avx2 => scanExactVector 32 type buf nLanes base needle
    | .sse2 =>
      if type.width = 1 ∨ type.width = 2 ∨ type.width = 4 then
        scanExactVector 16 type buf nLanes base needle
      else scanLanes buf base type.width 0 nLanes fun bytes ↦
        decide (type.decode bytes = type.cast needle)
    | .scalar => scanLanes buf base type.width 0 nLanes fun bytes ↦
        decide (type.decode bytes = type.cast needle)
  else strideScan buf base alignment type.width fun bytes ↦
    decide (type.decode bytes = type.cast needle)

/-- The predicate of `scanRelational`; it spells out the operators of `getCompare`. -/
def relationalPredicate (cmp : ScanCompare) (v v2 c : ℤ) : Bool :=
  match cmp with
  | .greater => decide (v < c)
  | .less => decide (c < v)
  | .between => if v ≤ v2 then decide (v ≤ c) && decide (c ≤ v2)
      else decide (v2 ≤ c) && decide (c ≤ v)
  | .changed => decide (c ≠ v)
  | .unchanged => decide (c = v)
  | .increased => decide (v < c)
  | .decreased => decide (c < v)
  | .sameAsFirst => decide (c = v)
  | .unknown => true
  | .exact | .increasedBy | .decreasedBy => decide (c = v)

/-- `scanRelational`. -/
def scanRelational (type : IntType) (buf : List UInt8) (base alignment : ℕ) (v v2 : ℤ)
    (cmp : ScanCompare) : List Hit :=
  strideScan buf base alignment type.width fun bytes ↦
    relationalPredicate cmp (type.cast v) (type.cast v2) (type.decode bytes)

/-- `scanIntegerFast`. -/
def scanIntegerFast (simd : SimdMode) (type : IntType) (buf : List UInt8) (base alignment : ℕ)
    (v v2 : ℤ) (cmp : ScanCompare) : List Hit :=
  if cmp = .exact then scanExactInteger simd type buf base alignment v
  else scanRelational type buf base alignment v v2 cmp

/-! ### Floating point -/

/-- `static_cast<T>` of a `double` field. -/
def floatNeedle (unit : FloatUnit) (format : FloatFormat) (field : ℕ) : ℕ :=
  if format = .single then unit.narrow field else field

/-- `compareFloatingExact`. -/
def compareFloatingExact (unit : FloatUnit) (format : FloatFormat) (config : ScanConfig)
    (current scanVal : ℕ) : Bool :=
  if !format.isFinite current then false
  else if config.roundingType = 1 ∨ config.roundingType = 2 ∨ config.roundingType = 3 then
    unit.rounded format config.roundingType config.floatDecimals config.floatTolerance current
      scanVal
  else format.eq current scanVal

/-- `compareFloating`. -/
def compareFloating (unit : FloatUnit) (format : FloatFormat) (config : ScanConfig)
    (current scanVal scanVal2 : ℕ) : Bool :=
  if config.compareType = .exact then compareFloatingExact unit format config current scanVal
  else getCompare format.operators config.compareType current scanVal scanVal2

/-- `scanBufferFloating`. -/
def scanBufferFloating (unit : FloatUnit) (format : FloatFormat) (buf : List UInt8)
    (base alignment : ℕ) (config : ScanConfig) : List Hit :=
  strideScan buf base alignment format.width fun bytes ↦
    compareFloating unit format config (leNat bytes) (floatNeedle unit format config.floatValue)
      (floatNeedle unit format config.floatValue2)

/-- Lanes in a vector register of the mode, for the given lane width. -/
def vectorLanes (simd : SimdMode) (laneBytes : ℕ) : ℕ :=
  match simd with
  | .scalar => 1
  | .sse2 => 16 / laneBytes
  | .avx2 => 32 / laneBytes

/-- The rounded vector scans: whole vectors drop the lanes outside the window before the exact
compare, the tail only compares. -/
def scanRoundedFloat (lanes : ℕ) (unit : FloatUnit) (format : FloatFormat) (buf : List UInt8)
    (nLanes base : ℕ) (config : ScanConfig) (needle : ℕ) : List Hit :=
  let window := unit.window format config.roundingType config.floatTolerance needle
  let verify := fun bytes ↦ compareFloatingExact unit format config (leNat bytes) needle
  scanLanes buf base format.width 0 (nLanes / lanes * lanes) (fun bytes ↦
    format.le window.1 (leNat bytes) && format.le (leNat bytes) window.2 && verify bytes) ++
  scanLanes buf base format.width (nLanes / lanes * lanes) (nLanes % lanes) verify

/-- `tryScanExactFloat`: nothing when the scan is not a finite exact search on aligned lanes. The
vector equality of the unrounded case is the ordered `==` of each lane. -/
def tryScanExactFloat (simd : SimdMode) (unit : FloatUnit) (format : FloatFormat)
    (buf : List UInt8) (base alignment : ℕ) (config : ScanConfig) : Option (List Hit) :=
  let needle := floatNeedle unit format config.floatValue
  if config.compareType ≠ .exact then none
  else if alignment ≠ format.width then none
  else if buf.length < format.width then none
  else if !format.isFinite needle then none
  else
    let nLanes := (buf.length - format.width) / format.width + 1
    if config.roundingType = 0 then
      some (scanLanes buf base format.width 0 nLanes fun bytes ↦ format.eq (leNat bytes) needle)
    else if simd = .scalar then
      some (scanLanes buf base format.width 0 nLanes fun bytes ↦
        compareFloatingExact unit format config (leNat bytes) needle)
    else some (scanRoundedFloat (vectorLanes simd format.width) unit format buf nLanes base config
      needle)

/-- The floating-point case of the scan dispatch. -/
def scanFloat (host : Host) (format : FloatFormat) (buf : List UInt8) (base : ℕ)
    (config : ScanConfig) : List Hit :=
  match tryScanExactFloat host.simd host.floatUnit format buf base config.alignment config with
  | some hits => hits
  | none => scanBufferFloating host.floatUnit format buf base config.alignment config

/-! ### Byte patterns and strings -/

/-- `anchorScan`: the positions of `[startPos, endPos)` that hold the anchor byte, sixteen at a
time by compare mask unless the mode is scalar. -/
def anchorScan (simd : SimdMode) (buf : List UInt8) (startPos endPos : ℕ) (anchor : UInt8) :
    List ℕ :=
  let blocks := if simd = .scalar then 0 else (endPos - startPos) / 16
  ((List.range blocks).flatMap fun block ↦
    let p := startPos + 16 * block
    (setBits 16 16 (movemask (cmpeqLanes 1 16 (slice buf p 16) [anchor]))).map (p + ·)) ++
  (List.range' (startPos + 16 * blocks) (endPos - startPos - 16 * blocks)).filter fun p ↦
    decide (buf[p]? = some anchor)

/-- `scanBufferString`. -/
def scanBufferString (simd : SimdMode) (buf : List UInt8) (base : ℕ) (needle : List UInt8)
    (caseInsensitive : Bool) : List Hit :=
  match needle with
  | [] => []
  | first :: _ =>
    if buf.length < needle.length then []
    else if !caseInsensitive then
      ((anchorScan simd buf 0 (buf.length - needle.length + 1) first).filter fun offset ↦
        decide (slice buf offset needle.length = needle)).map (emitAt buf base needle.length)
    else strideScan buf base 1 needle.length fun bytes ↦
      decide (bytes.map toLowerByte = needle.map toLowerByte)

/-- The case-insensitive compare of UTF-16 units: low bytes folded, high bytes as they are. -/
def unicodeFoldMatch : List UInt8 → List UInt8 → Bool
  | low :: high :: rest, needleLow :: needleHigh :: needleRest =>
    decide (toLowerByte low = toLowerByte needleLow) && decide (high = needleHigh) &&
      unicodeFoldMatch rest needleRest
  | _, _ => true

/-- `scanBufferUnicode`: every second offset, whatever the alignment. -/
def scanBufferUnicode (buf : List UInt8) (base : ℕ) (needle : List UInt8)
    (caseInsensitive : Bool) : List Hit :=
  let encoded := utf16LeBytes needle
  if encoded = [] then []
  else strideScan buf base 2 encoded.length fun bytes ↦
    if !caseInsensitive then decide (bytes = encoded) else unicodeFoldMatch bytes encoded

/-- Byte by byte, the bits of the mask agree; a byte past the end of the mask counts in full. -/
def maskedMatch : (bytes pattern mask : List UInt8) → Bool
  | _, [], _ => true
  | [], _ :: _, _ => false
  | byte :: bytes, value :: pattern, [] =>
    decide (byte &&& 0xFF = value &&& 0xFF) && maskedMatch bytes pattern []
  | byte :: bytes, value :: pattern, bits :: mask =>
    decide (byte &&& bits = value &&& bits) && maskedMatch bytes pattern mask

/-- `compareMaskedBytes`. -/
def compareMaskedBytes (current pattern mask : List UInt8) : Bool :=
  pattern ≠ [] && maskedMatch current pattern mask

/-- `scanBufferAOB`: anchored on the first byte of the pattern that counts in full, if any. -/
def scanBufferAOB (simd : SimdMode) (buf : List UInt8) (base : ℕ) (pattern mask : List UInt8) :
    List Hit :=
  if pattern = [] ∨ mask.length ≠ pattern.length ∨ buf.length < pattern.length then []
  else
    let limit := buf.length - pattern.length + 1
    let starts := match mask.findIdx? (· = 0xFF) with
      | none => List.range limit
      | some anchorIdx =>
        (anchorScan simd buf anchorIdx (limit + anchorIdx) (pattern.getD anchorIdx 0)).map
          (· - anchorIdx)
    (starts.filter fun offset ↦
      maskedMatch (slice buf offset pattern.length) pattern mask).map (emitAt buf base pattern.length)

/-- `scanBufferBinary`. -/
def scanBufferBinary (buf : List UInt8) (base : ℕ) (pattern mask : List UInt8) (alignment : ℕ) :
    List Hit :=
  if pattern = [] ∨ mask.length ≠ pattern.length then []
  else strideScan buf base alignment pattern.length fun bytes ↦ maskedMatch bytes pattern mask

/-! ### All types -/

/-- The magnitude test on a float of an unknown-value scan: zero, or neither tiny nor huge. The
bounds are `1e-15` and `1e15` for single precision, `1e-100` and `1e100` for double. -/
def plausibleFloat (format : FloatFormat) (bits : ℕ) : Bool :=
  let bounds := if format = .single then (646978941, 1482907561)
    else (3110860544497550640, 6103021453049119613)
  format.magnitude bits = 0 ||
    (decide (format.magnitude bits < bounds.2) && decide (bounds.1 < format.magnitude bits))

/-- The integer sub-type test of `scanBufferAllTypes` on the bytes left at an offset. -/
def allIntMatch (type : IntType) (config : ScanConfig) (rest : List UInt8) : Bool :=
  decide (type.width ≤ rest.length) &&
    getCompare intOperators config.compareType (type.decode (rest.take type.width))
      (type.cast config.intValue) 0

/-- The floating-point sub-type test of `scanBufferAllTypes`. -/
def allFloatMatch (unit : FloatUnit) (format : FloatFormat) (config : ScanConfig)
    (rest : List UInt8) : Bool :=
  let v := leNat (rest.take format.width)
  decide (format.width ≤ rest.length) && format.isFinite v &&
    (decide (config.compareType ≠ .unknown) || plausibleFloat format v) &&
    getCompare format.operators config.compareType v (floatNeedle unit format config.floatValue) 0

/-- The six sub-type tests at an offset, in order. -/
def allTypeMatches (unit : FloatUnit) (config : ScanConfig) (rest : List UInt8) : List Bool :=
  [allIntMatch .int8 config rest, allIntMatch .int16 config rest, allIntMatch .int32 config rest,
    allIntMatch .int64 config rest, allFloatMatch unit .single config rest,
    allFloatMatch unit .double config rest]

/-- The record of an all-types hit: eight bytes, zero where the buffer ends earlier. -/
def allWindow (rest : List UInt8) : List UInt8 :=
  rest.take 8 ++ List.replicate (8 - rest.length) 0

/-- `scanBufferAllTypes`: one record for every sub-type that matches at an offset it owns. -/
def scanBufferAllTypes (unit : FloatUnit) (buf : List UInt8) (base : ℕ) (config : ScanConfig)
    (emitLimit : ℕ) : List Hit :=
  (offsets (min emitLimit buf.length) (max 1 config.alignment)).flatMap fun offset ↦
    ((allTypeMatches unit config (buf.drop offset)).filter id).map fun _ ↦
      ⟨base + offset, allWindow (buf.drop offset)⟩

/-! ### Unknown values, groups and formulas -/

/-- `scanBufferUnknown`. -/
def scanBufferUnknown (buf : List UInt8) (base alignment valueSize : ℕ) : List Hit :=
  if valueSize = 0 then [] else strideScan buf base alignment valueSize fun _ ↦ true

/-- `groupedTermMatches`, on the bytes from the term's offset on. -/
def groupedTermMatches (unit : FloatUnit) (config : ScanConfig) (value : List UInt8)
    (term : GroupedTerm) : Bool :=
  let intMatch := fun type : IntType ↦
    decide (type.decode (value.take type.width) = type.cast term.intValue)
  match term.valueType with
  | .byte => intMatch .uint8
  | .int16 => intMatch .int16
  | .int32 => intMatch .int32
  | .int64 => intMatch .int64
  | .pointer => intMatch .uintptr
  | .float => compareFloatingExact unit .single config (leNat (value.take 4))
      (unit.narrow term.floatValue)
  | .double => compareFloatingExact unit .double config (leNat (value.take 8)) term.floatValue
  | .string => decide (value.take term.stringValue.length = term.stringValue)
  | .unicodeString =>
    decide (value.take (2 * term.stringValue.length) = utf16LeBytes term.stringValue)
  | .byteArray => compareMaskedBytes value term.byteArray term.byteArrayMask
  | .binary => decide (term.byteMask.length = term.byteArray.length) &&
      maskedMatch value term.byteArray term.byteMask
  | .all | .grouped | .custom => false

/-- `groupedBlockMatches`. -/
def groupedBlockMatches (unit : FloatUnit) (config : ScanConfig) (blockSize : ℕ)
    (block : List UInt8) : Bool :=
  config.groupedTerms.all fun term ↦
    let termSize := groupedTermValueSize term
    !(decide (termSize = 0) || decide (term.offset > subSize blockSize termSize)) &&
      groupedTermMatches unit config (block.drop term.offset) term

/-- `scanBufferGrouped`. -/
def scanBufferGrouped (unit : FloatUnit) (buf : List UInt8) (base alignment : ℕ)
    (config : ScanConfig) : List Hit :=
  let blockSize := config.groupedValueSize
  if config.groupedTerms = [] ∨ blockSize = 0 then []
  else strideScan buf base alignment blockSize (groupedBlockMatches unit config blockSize)

/-- The custom-formula loop of the scan dispatch. -/
def scanBufferCustom (host : Host) (buf : List UInt8) (base : ℕ) (config : ScanConfig) :
    List Hit :=
  strideScan buf base config.alignment (max 1 config.customValueSize) fun bytes ↦
    config.compareType = .unknown ||
      (config.customFormula ≠ [] && host.evalFormula config.customFormula bytes bytes false = some true)

/-- `scanRegion`: the scan of one buffer for the configured type. The needle of a string was
encoded once before, so it cannot throw here. -/
def scanRegion (host : Host) (config : ScanConfig) (buf : List UInt8) (base emitLimit : ℕ) :
    List Hit :=
  let intScan := fun type ↦ scanIntegerFast host.simd type buf base config.alignment
    config.intValue config.intValue2 config.compareType
  match config.valueType with
  | .byte => intScan .uint8
  | .int16 => intScan .int16
  | .int32 => intScan .int32
  | .int64 => intScan .int64
  | .pointer => intScan .uintptr
  | .float => scanFloat host .single buf base config
  | .double => scanFloat host .double buf base config
  | .string =>
    match encodeStringBytes host config.stringValue config.stringEncoding with
    | .ok needle => scanBufferString host.simd buf base needle (!config.caseSensitive)
    | .error _ => []
  | .unicodeString => scanBufferUnicode buf base config.stringValue (!config.caseSensitive)
  | .byteArray => scanBufferAOB host.simd buf base config.byteArray config.byteArrayMask
  | .binary => scanBufferBinary buf base config.byteArray config.byteMask config.alignment
  | .all => scanBufferAllTypes host.floatUnit buf base config emitLimit
  | .grouped =>
    if config.compareType = .unknown then
      scanBufferUnknown buf base config.alignment config.groupedValueSize
    else scanBufferGrouped host.floatUnit buf base config.alignment config
  | .custom => scanBufferCustom host buf base config

end Cecore.Scanner
