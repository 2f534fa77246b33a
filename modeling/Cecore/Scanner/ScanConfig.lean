import Cecore.Core.Text
import Cecore.Scanner.Numeric

/-!
# Scan configurations

`ScanConfig` with the fields a first or next scan reads, the `Host` a scan runs on, and the
functions that turn a configuration into needles and value sizes. Bit patterns of `double` fields
stand for the fields. A `Host` carries what the scanner takes from its surroundings: the number of
workers, the vector instructions, the chunk size, the page size, floating-point arithmetic, the Lua
interpreter and `iconv`.
-/

set_option autoImplicit false
set_option relaxedAutoImplicit false

namespace Cecore.Scanner

open Library.LittleEndian

/-- `ProtMatch`: any, must have the bit, must not have it. -/
inductive ProtMatch
  | any
  | yes
  | no
  deriving DecidableEq, Repr

structure GroupedTerm where
  valueType : ValueType := .int32
  offset : ℕ := 0
  intValue : ℤ := 0
  floatValue : ℕ := 0
  stringValue : List UInt8 := []
  byteArray : List UInt8 := []
  byteArrayMask : List UInt8 := []
  byteMask : List UInt8 := []
  deriving DecidableEq, Repr

structure ScanConfig where
  valueType : ValueType := .int32
  compareType : ScanCompare := .exact
  alignment : ℕ := 4
  startAddress : ℕ := 0
  stopAddress : ℕ := 0x7FFFFFFFFFFF
  writableMatch : ProtMatch := .any
  executableMatch : ProtMatch := .any
  scanPrivate : Bool := true
  scanImage : Bool := true
  scanMapped : Bool := true
  roundingType : ℤ := 0
  floatDecimals : ℤ := -1
  floatTolerance : ℕ := 0
  percentageScan : Bool := false
  percentageValue : ℕ := 0
  percentageValue2 : ℕ := 0
  intValue : ℤ := 0
  intValue2 : ℤ := 0
  floatValue : ℕ := 0
  floatValue2 : ℕ := 0
  stringValue : List UInt8 := []
  stringEncoding : Text := []
  caseSensitive : Bool := true
  byteArray : List UInt8 := []
  byteArrayMask : List UInt8 := []
  byteMask : List UInt8 := []
  groupedTerms : List GroupedTerm := []
  customFormula : Text := []
  customValueSize : ℕ := 4
  deriving DecidableEq, Repr

/-- The variable a numeric comparison copies its bytes into. -/
inductive NumericType
  | int (type : IntType)
  | float (format : FloatFormat)
  deriving DecidableEq, Repr

/-- The arithmetic of the host's floating-point unit, on bit patterns. `rounded` decides the
rounding modes 1 to 3 of `compareFloatingExact` for finite operands, and `window` gives the vector
scan's reject interval; a match lies inside it, since the interval reaches at least two units
beyond the needle and beyond its tolerance on either side. -/
structure FloatUnit where
  /-- `static_cast<float>`. -/
  narrow : ℕ → ℕ
  rounded : FloatFormat → (roundingType floatDecimals : ℤ) → (floatTolerance : ℕ) →
    (current scanVal : ℕ) → Bool
  window : FloatFormat → (roundingType : ℤ) → (floatTolerance : ℕ) → (needle : ℕ) → ℕ × ℕ
  /-- `comparePercentage`. -/
  percentage : NumericType → ScanCompare → (percentageValue percentageValue2 : ℕ) →
    (current old : List UInt8) → Bool
  /-- The tolerant delta test of `IncreasedBy` and `DecreasedBy`. -/
  deltaBy : FloatFormat → ScanCompare → (floatValue : ℕ) → (current old : ℕ) → Bool
  rounded_in_window : ∀ (format : FloatFormat) (roundingType floatDecimals : ℤ)
    (floatTolerance current needle : ℕ), format.isFinite current = true →
    rounded format roundingType floatDecimals floatTolerance current needle = true ∨
      format.eq current needle = true →
    format.le (window format roundingType floatTolerance needle).1 current = true ∧
      format.le current (window format roundingType floatTolerance needle).2 = true

/-- `SimdMode`. -/
inductive SimdMode
  | scalar
  | sse2
  | avx2
  deriving DecidableEq, Repr

/-- What a conversion by `iconv` comes to. -/
inductive Conversion
  | bytes (converted : List UInt8)
  | unsupported
  | failed

/-- What a scan takes from where it runs. -/
structure Host where
  threadCount : ℕ
  simd : SimdMode
  /-- `kChunkBytes`: half the level 2 cache, clamped, or the `CE_SCAN_CHUNK_KB` override. -/
  chunkBytes : ℕ
  pageSize : ℕ
  /-- `CE_SCAN_PAGEMAP` does not switch page skipping off. -/
  pagemapEnabled : Bool
  floatUnit : FloatUnit
  iconv : (encoding : Text) → (text : List UInt8) → Conversion
  /-- A call of the compiled custom formula, with its outcome when that is a boolean or number. -/
  evalFormula : (formula : Text) → (current old : List UInt8) → (hasOld : Bool) → Option Bool

/-- A floating-point unit that rounds nothing: every tolerant comparison is equality. -/
def exactUnit : FloatUnit where
  narrow := fun bits ↦ bits % 2 ^ 32
  rounded := fun format _ _ _ current scanVal ↦ format.eq current scanVal
  window := fun _ _ _ needle ↦ (needle, needle)
  percentage := fun _ _ _ _ _ _ ↦ false
  deltaBy := fun _ _ _ _ _ ↦ false
  rounded_in_window := by
    intro format _ _ _ current needle _ hmatch
    have heq : format.eq current needle = true := hmatch.elim id id
    have hsymm : format.eq needle current = true := by
      simp only [FloatFormat.eq, Bool.and_eq_true, decide_eq_true_eq] at heq ⊢
      exact ⟨⟨heq.1.2, heq.1.1⟩, heq.2.symm⟩
    simp [FloatFormat.le, heq, hsymm]

/-- A two-worker host with 128 KiB chunks, for runs on given inputs. -/
def sampleHost : Host where
  threadCount := 2
  simd := .sse2
  chunkBytes := 128 * 1024
  pageSize := 4096
  pagemapEnabled := true
  floatUnit := exactUnit
  iconv := fun _ _ ↦ .unsupported
  evalFormula := fun _ _ _ _ ↦ none

/-! ### Needles -/

def trimCopy (value : Text) : Text :=
  ((value.dropWhile isSpace).reverse.dropWhile isSpace).reverse

def lowerCopy (value : Text) : Text := value.map toLowerChar

def isUtf8Encoding (encoding : Text) : Bool :=
  let normalized := lowerCopy (trimCopy encoding)
  normalized = [] || normalized = "utf8".toList || normalized = "utf-8".toList

/-- `encodeStringBytes`, with the text of the exception it throws. -/
def encodeStringBytes (host : Host) (text : List UInt8) (encoding : Text) :
    Except Text (List UInt8) :=
  if isUtf8Encoding encoding then .ok text
  else match host.iconv encoding text with
    | .bytes converted => .ok converted
    | .unsupported => .error ("unsupported string encoding: ".toList ++ encoding)
    | .failed => .error ("string encoding conversion failed for ".toList ++ encoding)

/-- `utf16LeBytes`: each byte followed by a zero byte. -/
def utf16LeBytes (text : List UInt8) : List UInt8 := text.flatMap fun byte ↦ [byte, 0]

@[simp] theorem length_utf16LeBytes (text : List UInt8) :
    (utf16LeBytes text).length = 2 * text.length := by
  induction text with
  | nil => rfl
  | cons byte rest ih =>
    rw [utf16LeBytes, List.flatMap_cons, List.length_append] at *
    simp only [List.length_cons, List.length_nil] at *
    omega

/-- `std::tolower` of a byte. -/
def toLowerByte (byte : UInt8) : UInt8 :=
  if 65 ≤ byte.toNat ∧ byte.toNat ≤ 90 then byte + 32 else byte

/-! ### Value sizes -/

/-- Subtraction of `size_t`. -/
def subSize (first second : ℕ) : ℕ := (first + sizeModulus - second) % sizeModulus

def groupedTermValueSize (term : GroupedTerm) : ℕ :=
  match term.valueType with
  | .byte => 1
  | .int16 => 2
  | .int32 | .float => 4
  | .int64 | .pointer | .double => 8
  | .string => max 1 term.stringValue.length
  | .unicodeString => max 2 (term.stringValue.length * 2)
  | .byteArray | .binary => max 1 term.byteArray.length
  | .all | .grouped | .custom => 0

/-- The largest block end so far, `none` once an end would overflow. -/
def groupedValueSizeStep (blockSize : Option ℕ) (term : GroupedTerm) : Option ℕ :=
  match blockSize with
  | none => none
  | some size =>
    let termSize := groupedTermValueSize term
    if termSize = 0 then some size
    else if term.offset > sizeModulus - 1 - termSize then none
    else some (max size (term.offset + termSize))

def ScanConfig.groupedValueSize (config : ScanConfig) : ℕ :=
  ((config.groupedTerms.foldl groupedValueSizeStep (some 0)).getD 0)

/-- `valueSizeForConfig`; only the encoding of a string needle can throw. -/
def valueSizeForConfig (host : Host) (config : ScanConfig) : Except Text ℕ :=
  match config.valueType with
  | .string =>
    match encodeStringBytes host config.stringValue config.stringEncoding with
    | .ok encoded => .ok (max 1 encoded.length)
    | .error message => .error message
  | .unicodeString => .ok (max 2 (config.stringValue.length * 2))
  | .byteArray | .binary => .ok (max 1 config.byteArray.length)
  | .all => .ok 8
  | .grouped => .ok (max 1 config.groupedValueSize)
  | .custom => .ok (max 1 config.customValueSize)
  | .byte => .ok 1
  | .int16 => .ok 2
  | .int32 | .float => .ok 4
  | .int64 | .pointer | .double => .ok 8

end Cecore.Scanner
