import Cecore.Core.Types

/-!
# Cheat tables

The records of `core/ct_file.hpp`. Enumerations convert to and from the numbers that the JSON form
writes for them.
-/

set_option autoImplicit false
set_option relaxedAutoImplicit false

namespace Cecore

/-- The enumerator of a number; numbers outside of the enumeration are read as `Int32`. -/
def ValueType.ofNumber : ℤ → ValueType
  | 0 => .byte
  | 1 => .int16
  | 2 => .int32
  | 3 => .int64
  | 4 => .float
  | 5 => .double
  | 6 => .string
  | 7 => .unicodeString
  | 8 => .byteArray
  | 9 => .binary
  | 10 => .all
  | 11 => .grouped
  | 12 => .custom
  | 13 => .pointer
  | _ => .int32

/-- `(int)type`. -/
def ValueType.number : ValueType → ℕ
  | .byte => 0
  | .int16 => 1
  | .int32 => 2
  | .int64 => 3
  | .float => 4
  | .double => 5
  | .string => 6
  | .unicodeString => 7
  | .byteArray => 8
  | .binary => 9
  | .all => 10
  | .grouped => 11
  | .custom => 12
  | .pointer => 13

theorem ValueType.ofNumber_number (type : ValueType) : ofNumber type.number = type := by
  cases type <;> rfl

theorem ValueType.number_lt (type : ValueType) : type.number < 14 := by
  cases type <;> decide

inductive FreezeMode
  | normal
  | increaseOnly
  | decreaseOnly
  | neverIncrease
  | neverDecrease
  deriving DecidableEq, Repr

/-- The enumerator of a number; numbers outside of the enumeration are read as `Normal`. -/
def FreezeMode.ofNumber : ℤ → FreezeMode
  | 1 => .increaseOnly
  | 2 => .decreaseOnly
  | 3 => .neverIncrease
  | 4 => .neverDecrease
  | _ => .normal

/-- `(int)mode`. -/
def FreezeMode.number : FreezeMode → ℕ
  | .normal => 0
  | .increaseOnly => 1
  | .decreaseOnly => 2
  | .neverIncrease => 3
  | .neverDecrease => 4

theorem FreezeMode.ofNumber_number (mode : FreezeMode) : ofNumber mode.number = mode := by
  cases mode <;> rfl

namespace Table

structure CheatEntry where
  id : ℤ := 0
  description : Text := []
  address : ℕ := 0
  addressString : Text := []
  offsets : List ℤ := []
  type : ValueType := .int32
  value : Text := []
  active : Bool := false
  showAsHex : Bool := false
  showAsSigned : Bool := true
  freezeMode : FreezeMode := .normal
  autoAsmScript : Text := []
  luaScript : Text := []
  parentId : ℤ := -1
  isGroup : Bool := false
  collapsed : Bool := false
  color : Text := []
  dropdownList : Text := []
  hotkeyKeys : Text := []
  increaseHotkeyKeys : Text := []
  decreaseHotkeyKeys : Text := []
  setValueHotkeyKeys : Text := []
  setValueHotkeyValue : Text := []
  hotkeyStep : Text := []
  activateChildren : Bool := true
  deactivateChildren : Bool := true
  optionsXml : Text := []
  length : ℤ := 0
  deriving DecidableEq, Repr

structure StructureField where
  name : Text := []
  offset : ℕ := 0
  type : ValueType := .int32
  size : ℕ := 4
  displayMethod : Text := []
  nestedStructure : Text := []
  deriving DecidableEq, Repr

structure StructureDefinition where
  name : Text := []
  size : ℕ := 0
  fields : List StructureField := []
  deriving DecidableEq, Repr

/-- A disassembler annotation; the address is an expression. -/
structure DisassemblerComment where
  address : Text := []
  comment : Text := []
  label : Text := []
  deriving DecidableEq, Repr

structure CheatTable where
  gameName : Text := []
  gameVersion : Text := []
  author : Text := []
  comment : Text := []
  luaScript : Text := []
  entries : List CheatEntry := []
  disassemblerComments : List DisassemblerComment := []
  structures : List StructureDefinition := []
  rawFormsXml : Text := []
  deriving DecidableEq, Repr

end Table

end Cecore
