import Cecore.Library.Characters
import Mathlib.Data.Nat.Bitwise

/-!
# Core types

The enumerations and records of `core/types.hpp` that the scanner and the auto-assembler read.
Protection flags keep the bit values of `MemProt`; text is a list of characters, one for each byte
of a `std::string`.
-/

set_option autoImplicit false
set_option relaxedAutoImplicit false

namespace Cecore

/-- The bytes of a `std::string`, one character each. -/
abbrev Text := List Char

/-- The number of values of `size_t` and `uintptr_t`. -/
abbrev sizeModulus : ℕ := 2 ^ 64

/-- Memory protection flags, or-ed together as in `MemProt`. -/
abbrev MemProt := ℕ

namespace MemProt

def none : MemProt := 0
def read : MemProt := 1
def write : MemProt := 2
def exec : MemProt := 4
def all : MemProt := 7

/-- `operator&` of `MemProt`: some flag of `flag` is set in `prot`. -/
def has (prot flag : MemProt) : Bool := prot &&& flag != 0

end MemProt

inductive MemState
  | free
  | committed
  deriving DecidableEq, Repr

inductive MemType
  | privateMap
  | mapped
  | image
  deriving DecidableEq, Repr

/-- A mapping of the target, as `/proc/pid/maps` lists it. -/
structure MemoryRegion where
  base : ℕ
  size : ℕ
  protection : MemProt := MemProt.none
  type : MemType := .privateMap
  state : MemState := .free
  deriving DecidableEq, Repr

/-- A loaded module, with the fields symbol seeding and module scans read. -/
structure ModuleInfo where
  base : ℕ
  size : ℕ
  name : Text
  path : Text
  deriving DecidableEq, Repr

inductive ValueType
  | byte
  | int16
  | int32
  | int64
  | float
  | double
  | string
  | unicodeString
  | byteArray
  | binary
  | all
  | grouped
  | custom
  | pointer
  deriving DecidableEq, Repr

inductive ScanCompare
  | exact
  | greater
  | less
  | between
  | unknown
  | changed
  | unchanged
  | increased
  | decreased
  | increasedBy
  | decreasedBy
  | sameAsFirst
  deriving DecidableEq, Repr

/-- `cmp >= ScanCompare::Changed` in the order of the enumeration. -/
def ScanCompare.atLeastChanged : ScanCompare → Bool
  | .exact | .greater | .less | .between | .unknown => false
  | .changed | .unchanged | .increased | .decreased | .increasedBy | .decreasedBy
  | .sameAsFirst => true

end Cecore
