import Cecore.Core.Types
import Cecore.Library.LittleEndian

/-!
# Numbers in scanned memory

The scanner copies bytes of the target into a C++ integer or floating-point variable and compares.
An `IntType` is the width and signedness of the variable, and a `FloatFormat` the width and fraction
bits of a binary interchange format, whose comparisons are read off bit patterns. What needs
rounding arithmetic (the tolerant comparisons, percentages, deltas and narrowing) belongs to the
`FloatUnit` of the host.
-/

set_option autoImplicit false
set_option relaxedAutoImplicit false

namespace Cecore.Scanner

open Library.LittleEndian

/-! ### Integers -/

/-- A fixed-width integer type of the scanning templates. -/
structure IntType where
  width : ℕ
  signed : Bool
  deriving DecidableEq, Repr

namespace IntType

def uint8 : IntType := ⟨1, false⟩
def int8 : IntType := ⟨1, true⟩
def int16 : IntType := ⟨2, true⟩
def int32 : IntType := ⟨4, true⟩
def int64 : IntType := ⟨8, true⟩
def uintptr : IntType := ⟨8, false⟩

/-- The value a variable of the type holds when its bits are `bits`. -/
def ofBits (type : IntType) (bits : ℕ) : ℤ :=
  if type.signed then signedOf type.width bits else bits

/-- `memcpy(&value, bytes, sizeof(T))`. -/
def decode (type : IntType) (bytes : List UInt8) : ℤ := type.ofBits (leNat bytes)

/-- The bits of `static_cast<T>(value)`. -/
def castBits (type : IntType) (value : ℤ) : ℕ := (value % (256 ^ type.width : ℕ)).toNat

/-- `static_cast<T>(value)`. -/
def cast (type : IntType) (value : ℤ) : ℤ := type.ofBits (type.castBits value)

theorem castBits_lt (type : IntType) (value : ℤ) : type.castBits value < 256 ^ type.width := by
  have hpos : (0 : ℤ) < (256 ^ type.width : ℕ) :=
    Int.natCast_pos.mpr (Nat.pow_pos (by decide))
  have hlt := Int.emod_lt_of_pos value hpos
  have hnonneg := Int.emod_nonneg value hpos.ne'
  unfold castBits
  omega

theorem ofBits_inj (type : IntType) {first second : ℕ} (hfirst : first < 256 ^ type.width)
    (hsecond : second < 256 ^ type.width) :
    type.ofBits first = type.ofBits second ↔ first = second := by
  unfold ofBits
  split
  · exact signedOf_inj hfirst hsecond
  · exact Int.natCast_inj

/-- Comparing a value in memory with a converted needle is comparing bytes. -/
theorem decode_eq_cast_iff (type : IntType) {bytes : List UInt8} (value : ℤ)
    (hlength : bytes.length = type.width) :
    type.decode bytes = type.cast value ↔ bytes = toLE type.width (type.castBits value) := by
  have hbytes : leNat bytes < 256 ^ type.width := hlength ▸ leNat_lt bytes
  rw [decode, cast, ofBits_inj type hbytes (castBits_lt type value),
    ← leNat_inj (by rw [hlength, length_toLE]), leNat_toLE,
    Nat.mod_eq_of_lt (castBits_lt type value)]

end IntType

/-! ### Floating point -/

/-- A binary interchange format. -/
structure FloatFormat where
  width : ℕ
  fraction : ℕ
  deriving DecidableEq, Repr

namespace FloatFormat

def single : FloatFormat := ⟨4, 23⟩
def double : FloatFormat := ⟨8, 52⟩

variable (format : FloatFormat)

/-- The bit pattern without its sign. -/
def magnitude (bits : ℕ) : ℕ := bits % 2 ^ (8 * format.width - 1)

/-- The magnitude of an infinity: every exponent bit, no fraction bit. -/
def infinity : ℕ := 2 ^ (8 * format.width - 1) - 2 ^ format.fraction

/-- `std::isfinite`. -/
def isFinite (bits : ℕ) : Bool := decide (format.magnitude bits < format.infinity)

/-- `std::isnan`. -/
def isNaN (bits : ℕ) : Bool := decide (format.infinity < format.magnitude bits)

/-- Sign and magnitude as a number; it orders the patterns that are not NaN, and gives the two
zeros the same place. -/
def key (bits : ℕ) : ℤ :=
  if 2 ^ (8 * format.width - 1) ≤ bits then -(format.magnitude bits : ℤ) else format.magnitude bits

/-- `a == b`, false when either is NaN. -/
def eq (first second : ℕ) : Bool :=
  !format.isNaN first && !format.isNaN second && decide (format.key first = format.key second)

/-- `a < b`, false when either is NaN. -/
def lt (first second : ℕ) : Bool :=
  !format.isNaN first && !format.isNaN second && decide (format.key first < format.key second)

/-- `a <= b`, false when either is NaN. -/
def le (first second : ℕ) : Bool := format.lt first second || format.eq first second

/-- A value equals itself unless it is NaN. -/
@[simp] theorem eq_self (bits : ℕ) : format.eq bits bits = !format.isNaN bits := by
  simp [eq]

end FloatFormat

/-! ### Comparisons -/

/-- The comparison operators of a numeric type. -/
structure Operators (α : Type) where
  eq : α → α → Bool
  lt : α → α → Bool
  le : α → α → Bool

def intOperators : Operators ℤ where
  eq := fun a b ↦ decide (a = b)
  lt := fun a b ↦ decide (a < b)
  le := fun a b ↦ decide (a ≤ b)

def FloatFormat.operators (format : FloatFormat) : Operators ℕ where
  eq := format.eq
  lt := format.lt
  le := format.le

/-- `cmpBetween`: the bounds are put in order first. -/
def cmpBetween {α : Type} (ops : Operators α) (c v v2 : α) : Bool :=
  if ops.le v v2 then ops.le v c && ops.le c v2 else ops.le v2 c && ops.le c v

/-- `getCompare<T>(cmp)(c, v, v2)`. -/
def getCompare {α : Type} (ops : Operators α) (cmp : ScanCompare) (c v v2 : α) : Bool :=
  match cmp with
  | .exact => ops.eq c v
  | .greater => ops.lt v c
  | .less => ops.lt c v
  | .between => cmpBetween ops c v v2
  | .changed => !ops.eq c v
  | .unchanged => ops.eq c v
  | .increased => ops.lt v c
  | .decreased => ops.lt c v
  | .sameAsFirst => ops.eq c v
  | .unknown => true
  | .increasedBy | .decreasedBy => ops.eq c v

end Cecore.Scanner
