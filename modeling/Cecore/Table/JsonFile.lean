import Cecore.Table.JsonText
import Cecore.Table.Types

/-!
# The JSON form of a table

`saveJson` and `loadJson` of `core/ct_file.cpp`, and the protected form that wraps them. A file is
its bytes, as characters.
-/

set_option autoImplicit false
set_option relaxedAutoImplicit false

namespace Cecore.Table

/-! ### Writing -/

/-- A text between quotes, escaped. -/
def quoted (s : Text) : Text := doubleQuote :: (jsonEscape s ++ [doubleQuote])

/-- What a member of an entry or of a structure is written from. -/
inductive Scalar
  | text (value : Text)
  | number (value : ℤ)
  | flag (value : Bool)

def Scalar.render : Scalar → Text
  | text value => quoted value
  | number value => printInt value
  | flag value => if value then "true".toList else "false".toList

abbrev Members := List (String × Scalar)

/-- A member that is written under a condition. -/
def memberIf (present : Bool) (key : String) (value : Scalar) : Members :=
  if present then [(key, value)] else []

/-- A text that is written unless it is empty. -/
def memberUnlessEmpty (key : String) (value : Text) : Members :=
  memberIf (!value.isEmpty) key (.text value)

/-- Items between brackets: `lead` is in front of each, commas between them, `tail` behind the last.
-/
def arrayText (lead tail : Text) (items : List Text) : Text :=
  '[' :: (List.intercalate [','] (items.map (lead ++ ·)) ++ tail ++ [']'])

/-- Members between braces: `lead` is in front of each key, `gap` behind each colon, commas between
them, `tail` behind the last. -/
def objectText (lead gap tail : Text) (members : List (String × Text)) : Text :=
  '\x7b' :: (List.intercalate [','] (members.map fun member ↦
    lead ++ (quoted member.1.toList ++ ':' :: (gap ++ member.2))) ++ tail ++ ['\x7d'])

/-- An object on one line. -/
def compact (members : Members) : Text :=
  objectText [] [] [] (members.map fun member ↦ (member.1, member.2.render))

def structureFieldMembers (field : StructureField) : Members :=
  [("name", .text field.name), ("offset", .number field.offset), ("type", .number field.type.number),
    ("size", .number field.size)] ++
  memberUnlessEmpty "display" field.displayMethod ++
  memberUnlessEmpty "nested" field.nestedStructure

def structureText (s : StructureDefinition) : Text :=
  objectText [] [] [] [("name", quoted s.name), ("size", decimal s.size),
    ("fields", arrayText [] [] (s.fields.map fun field ↦ compact (structureFieldMembers field)))]

def commentMembers (c : DisassemblerComment) : Members :=
  [("address", .text c.address)] ++
  memberUnlessEmpty "comment" c.comment ++
  memberUnlessEmpty "label" c.label

def entryMembers (e : CheatEntry) : Members :=
  [("id", .number e.id), ("desc", .text e.description)] ++
  memberIf (!e.isGroup) "addr" (.text ('0' :: 'x' :: hex e.address)) ++
  memberIf (!e.isGroup) "type" (.number e.type.number) ++
  memberIf (!e.isGroup) "value" (.text e.value) ++
  memberIf e.active "active" (.flag true) ++
  memberIf e.showAsHex "showAsHex" (.flag true) ++
  memberIf (!e.showAsSigned) "showAsSigned" (.flag false) ++
  memberIf (decide (e.freezeMode ≠ .normal)) "freezeMode" (.number e.freezeMode.number) ++
  memberIf e.isGroup "group" (.flag true) ++
  memberIf e.collapsed "collapsed" (.flag true) ++
  memberUnlessEmpty "asm" e.autoAsmScript ++
  memberUnlessEmpty "lua" e.luaScript ++
  memberUnlessEmpty "color" e.color ++
  memberUnlessEmpty "dropdown" e.dropdownList ++
  memberUnlessEmpty "hotkeys" e.hotkeyKeys ++
  memberUnlessEmpty "increaseHotkey" e.increaseHotkeyKeys ++
  memberUnlessEmpty "setValueHotkey" e.setValueHotkeyKeys ++
  memberUnlessEmpty "setValueHotkeyValue" e.setValueHotkeyValue ++
  memberUnlessEmpty "decreaseHotkey" e.decreaseHotkeyKeys ++
  memberUnlessEmpty "hotkeyStep" e.hotkeyStep ++
  memberIf (decide (0 ≤ e.parentId)) "parent" (.number e.parentId)

/-- A line break and the margin of an array item. -/
def itemLead : Text := "\n    ".toList

/-- A line break and the margin of a table field. -/
def fieldLead : Text := "\n  ".toList

/-- The fields of a table in the order they are written. -/
def tableMembers (t : CheatTable) : List (String × Text) :=
  [("game", quoted t.gameName), ("version", quoted t.gameVersion), ("author", quoted t.author),
    ("comment", quoted t.comment), ("luaScript", quoted t.luaScript),
    ("structures", arrayText itemLead fieldLead (t.structures.map structureText)),
    ("disassemblerComments",
      arrayText [] [] (t.disassemblerComments.map fun c ↦ compact (commentMembers c))),
    ("entries", arrayText itemLead fieldLead (t.entries.map fun e ↦ compact (entryMembers e)))]

/-- `CheatTable::saveJson`. -/
def saveJson (t : CheatTable) : Text :=
  objectText fieldLead [' '] ['\n'] (tableMembers t) ++ ['\n']

/-! ### Loading -/

/-- `getField`: the first field of a name. -/
def getField : JsonValue → String → Option JsonValue
  | .object fields, key => (fields.find? fun field ↦ field.1 = key.toList).map (·.2)
  | _, _ => none

def jsonStringField (object : JsonValue) (key : String) : Text :=
  match getField object key with
  | some (.string s) => s
  | _ => []

def jsonBoolField (object : JsonValue) (key : String) : Bool :=
  match getField object key with
  | some (.bool b) => b
  | some (.number x) => decide (x ≠ some 0)
  | some (.string s) => s = "true".toList ∨ s = "1".toList
  | _ => false

def jsonIntField (object : JsonValue) (key : String) (defaultValue : ℤ) : ℤ :=
  match getField object key with
  | some (.number x) => castInt x
  | some (.string s) => (stoi 0 s).getD defaultValue
  | _ => defaultValue

/-- The body that `jsonSizeField` and `jsonAddressField` share. -/
def jsonUnsignedField (object : JsonValue) (key : String) (defaultValue : ℕ) : ℕ :=
  match getField object key with
  | some (.number x) => (castInt x % sizeModulus).toNat
  | some (.string s) => ((stoull 0 s).map (·.1)).getD defaultValue
  | _ => defaultValue

def jsonSizeField (object : JsonValue) (key : String) (defaultValue : ℕ) : ℕ :=
  jsonUnsignedField object key defaultValue

def jsonAddressField (object : JsonValue) (key : String) : ℕ := jsonUnsignedField object key 0

def jsonValueTypeField (object : JsonValue) : ValueType :=
  match getField object "type" with
  | some (.number x) => ValueType.ofNumber (castInt x)
  | some (.string s) =>
    if s = "byte".toList then .byte
    else if s = "i16".toList then .int16
    else if s = "i32".toList then .int32
    else if s = "i64".toList then .int64
    else if s = "float".toList then .float
    else if s = "double".toList then .double
    else if s = "string".toList then .string
    else if s = "aob".toList then .byteArray
    else ((stoi 0 s).map ValueType.ofNumber).getD .int32
  | _ => .int32

/-- The objects of an array field; other items are passed over. -/
def jsonObjects (object : JsonValue) (key : String) : List JsonValue :=
  match getField object key with
  | some (.array items) => items.filter fun item ↦
    match item with
    | .object _ => true
    | _ => false
  | _ => []

def structureFieldOfJson (item : JsonValue) : StructureField where
  name := jsonStringField item "name"
  offset := jsonSizeField item "offset" 0
  type := jsonValueTypeField item
  size := jsonSizeField item "size" 4
  displayMethod := jsonStringField item "display"
  nestedStructure := jsonStringField item "nested"

def structureOfJson (item : JsonValue) : StructureDefinition where
  name := jsonStringField item "name"
  size := jsonSizeField item "size" 0
  fields := (jsonObjects item "fields").map structureFieldOfJson

def commentOfJson (item : JsonValue) : DisassemblerComment where
  address := jsonStringField item "address"
  comment := jsonStringField item "comment"
  label := jsonStringField item "label"

def entryOfJson (item : JsonValue) : CheatEntry where
  id := jsonIntField item "id" 0
  description := jsonStringField item "desc"
  address := jsonAddressField item "addr"
  type := jsonValueTypeField item
  value := jsonStringField item "value"
  active := jsonBoolField item "active"
  showAsHex := jsonBoolField item "showAsHex"
  showAsSigned := if (getField item "showAsSigned").isSome then jsonBoolField item "showAsSigned"
    else true
  freezeMode := FreezeMode.ofNumber (jsonIntField item "freezeMode" 0)
  isGroup := jsonBoolField item "group"
  collapsed := jsonBoolField item "collapsed"
  autoAsmScript := jsonStringField item "asm"
  luaScript := jsonStringField item "lua"
  color := jsonStringField item "color"
  dropdownList := jsonStringField item "dropdown"
  hotkeyKeys := jsonStringField item "hotkeys"
  increaseHotkeyKeys := jsonStringField item "increaseHotkey"
  setValueHotkeyKeys := jsonStringField item "setValueHotkey"
  setValueHotkeyValue := jsonStringField item "setValueHotkeyValue"
  decreaseHotkeyKeys := jsonStringField item "decreaseHotkey"
  hotkeyStep := jsonStringField item "hotkeyStep"
  parentId := jsonIntField item "parent" (-1)

/-- `CheatTable::loadJson` into `self`, nothing where it returns false. -/
def loadJson (self : CheatTable) (json : Text) : Option CheatTable :=
  match parseJson json with
  | some (.object fields) =>
    let root := JsonValue.object fields
    some { self with
      gameName := jsonStringField root "game"
      gameVersion := jsonStringField root "version"
      author := jsonStringField root "author"
      comment := jsonStringField root "comment"
      luaScript := jsonStringField root "luaScript"
      structures := (jsonObjects root "structures").map structureOfJson
      disassemblerComments :=
        ((jsonObjects root "disassemblerComments").map commentOfJson).filter fun c ↦
          !c.address.isEmpty
      entries := (jsonObjects root "entries").map entryOfJson }
  | _ => none

/-! ### The protected form -/

def kFnvOffset : UInt64 := 1469598103934665603
def kFnvPrime : UInt64 := 1099511628211

def fnv1a (text : Text) : UInt64 :=
  text.foldl (fun hash c ↦ (hash ^^^ UInt64.ofNat (byteOf c).toNat) * kFnvPrime) kFnvOffset

/-- The next state of the key stream, which is also its output. -/
def xorshift64 (state : UInt64) : UInt64 :=
  let state := state ^^^ (state <<< 13)
  let state := state ^^^ (state >>> 7)
  state ^^^ (state <<< 17)

/-- A text with the low bytes of the key stream behind `state` laid over it. -/
def xorFrom : UInt64 → Text → Text
  | _, [] => []
  | state, c :: rest =>
    let state := xorshift64 state
    Char.ofNat ((byteOf c).toNat ^^^ (state &&& 0xff).toNat) :: xorFrom state rest

/-- The state that `xorCrypt` and `xorDecrypt` start from. -/
def streamSeed (password : Text) : UInt64 :=
  fnv1a (if password = [] then "cecore".toList else password)

def xorCrypt (input password : Text) : Text := xorFrom (streamSeed password) input

def xorDecrypt (input password : Text) : Text := xorFrom (streamSeed password) input

/-- `CheatTable::saveProtected`. -/
def saveProtected (t : CheatTable) (password : Text) : Text :=
  "CETRAINER1\n".toList ++
    (decimal (fnv1a password).toNat ++ '\n' :: xorCrypt (saveJson t) password)

/-- `std::getline`: a line and what is behind it, nothing at the end of the stream. -/
def getline : Text → Option (Text × Text)
  | [] => none
  | text => some (text.takeWhile fun c ↦ decide (c ≠ '\n'),
      (text.dropWhile fun c ↦ decide (c ≠ '\n')).drop 1)

def kMaxProtectedSize : ℕ := 64 * 1024 * 1024

/-- `CheatTable::loadProtected`. -/
def loadProtected (self : CheatTable) (password file : Text) : Option CheatTable :=
  if kMaxProtectedSize < file.length then none
  else
    match getline file with
    | none => none
    | some (magic, rest) =>
      match getline rest with
      | none => none
      | some (hashLine, encrypted) =>
        if magic ≠ "CETRAINER1".toList then none
        else
          match stoull 10 hashLine with
          | none => none
          | some (expectedHash, _) =>
            if expectedHash ≠ (fnv1a password).toNat then none
            else loadJson self (xorDecrypt encrypted password)

end Cecore.Table
