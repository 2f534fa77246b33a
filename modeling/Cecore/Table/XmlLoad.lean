import Cecore.Table.XmlText

/-!
# The XML form of a table, loaded

`parseCheatEntriesBlock` and `CheatTable::loadFromString` of `core/ct_file.cpp`. Tags are searched
for in the text; there is no tree.
-/

set_option autoImplicit false
set_option relaxedAutoImplicit false

namespace Cecore.Table

open Library.Markup

/-! ### Fields of an entry -/

/-- What is between a quote at the beginning and one at the end. -/
def stripQuotes (s : Text) : Text :=
  if 2 ≤ s.length ∧ s.head? = some doubleQuote ∧ s.getLast? = some doubleQuote then s.tail.dropLast
  else s

/-- `std::stoll` with the sign that a pointer offset has; nothing where it throws. -/
def stoll (base : ℕ) (text : Text) : Option ℤ :=
  match readInteger base text with
  | none => none
  | some (negative, value, _) =>
    let signed : ℤ := if negative then -value else value
    if -(2 ^ 63) ≤ signed ∧ signed < 2 ^ 63 then some signed else none

/-- The `<Address>`, `<Offsets>`, type, length and value of an entry that is no group. -/
def readData (ownXml : Text) (e : CheatEntry) : CheatEntry :=
  let addrStr := getTag ownXml "Address"
  let e := if addrStr = [] then e
    else { e with addressString := addrStr, address := ((stoull 16 addrStr).map (·.1)).getD 0 }
  let e := { e with
    offsets := (getTagBlocks (getTag ownXml "Offsets") "Offset").filterMap fun offBlock ↦
      stoll 16 (getTag offBlock "Offset") }
  let type := strToType (getTag ownXml "VariableType")
  let e := { e with
    type := if type = ValueType.string ∧ getTag ownXml "Unicode" = ['1'] then .unicodeString
      else type }
  let ln := getTag ownXml "Length"
  let e := if ln = [] then e else { e with length := (stoi 10 ln).getD e.length }
  { e with value := xmlUnescape (getTag ownXml "Value") }

/-- The first `<Options` tag, kept as it is, and its two cascade flags. -/
def readOptions (ownXml : Text) (e : CheatEntry) : CheatEntry :=
  match cut "<Options".toList ownXml with
  | none => e
  | some (_, rest) =>
    match cut ['>'] rest with
    | none => e
    | some (inner, _) =>
      let optionsXml := "<Options".toList ++ inner ++ ['>']
      let has (flag : String) : Bool :=
        (cut (flag.toList ++ ['=', doubleQuote, '1', doubleQuote]) optionsXml).isSome
      { e with
        optionsXml := optionsXml
        activateChildren := has "moActivateChildrenAsWell"
        deactivateChildren := has "moDeactivateChildrenAsWell" }

/-- The `switch` over the action of a hotkey. -/
def bindHotkey (e : CheatEntry) (action : ℤ) (keyStr val : Text) : CheatEntry :=
  if action = 5 then { e with setValueHotkeyKeys := keyStr, setValueHotkeyValue := val }
  else if action = 6 then
    { e with increaseHotkeyKeys := keyStr, hotkeyStep := if val = [] then e.hotkeyStep else val }
  else if action = 7 then
    { e with decreaseHotkeyKeys := keyStr, hotkeyStep := if val = [] then e.hotkeyStep else val }
  else if e.hotkeyKeys = [] then { e with hotkeyKeys := keyStr }
  else e

/-- The body of the loop over the `<Hotkey>` blocks. -/
def readHotkey (e : CheatEntry) (hk : Text) : CheatEntry :=
  let a := getTag hk "Action"
  let action := if a = [] then 0 else (stoi 10 a).getD 0
  let vks := (getTagBlocks (getTag hk "Keys") "Key").filterMap fun kb ↦ stoi 10 (getTag kb "Key")
  bindHotkey e action (vksToKeyString vks) (xmlUnescape (getTag hk "Value"))

def readHotkeys (ownXml : Text) (e : CheatEntry) : CheatEntry :=
  let hkXml := getTag ownXml "Hotkeys"
  if (cut "<Hotkey".toList hkXml).isSome then (getTagBlocks hkXml "Hotkey").foldl readHotkey e
  else
    { e with
      hotkeyKeys := xmlUnescape hkXml
      increaseHotkeyKeys := xmlUnescape (getTag ownXml "IncreaseHotkey")
      setValueHotkeyKeys := xmlUnescape (getTag ownXml "SetValueHotkey")
      setValueHotkeyValue := xmlUnescape (getTag ownXml "SetValueHotkeyValue")
      decreaseHotkeyKeys := xmlUnescape (getTag ownXml "DecreaseHotkey")
      hotkeyStep := xmlUnescape (getTag ownXml "HotkeyStep") }

/-- The entry that `parseCheatEntriesBlock` makes of an entry's own text. -/
def readEntry (ownXml : Text) (parentId : ℤ) : CheatEntry :=
  let idStr := getTag ownXml "ID"
  let e : CheatEntry := { parentId := parentId }
  let e := if idStr = [] then e else { e with id := atoi idStr }
  let e := { e with
    description := stripQuotes (xmlUnescape (getTag ownXml "Description"))
    isGroup := decide (getTag ownXml "GroupHeader" = ['1'])
    collapsed := decide (getTag ownXml "Collapsed" = ['1']) }
  let e := if e.isGroup then e else readData ownXml e
  let fm := getTag ownXml "freezeMode"
  let dropDown := xmlUnescape (getTag ownXml "DropDownList")
  let e := { e with
    active := decide (getTag ownXml "Activated" = ['1'])
    showAsHex := decide (getTag ownXml "ShowAsHex" = ['1'])
    showAsSigned := decide (getTag ownXml "ShowAsSigned" ≠ ['0'])
    freezeMode := if fm = [] then e.freezeMode
      else ((stoi 10 fm).map FreezeMode.ofNumber).getD e.freezeMode
    autoAsmScript := xmlUnescape (getTag ownXml "AssemblerScript")
    luaScript := xmlUnescape (getTag ownXml "LuaScript")
    color := getTag ownXml "Color"
    dropdownList := if dropDown = [] then xmlUnescape (getTag ownXml "DropdownList") else dropDown }
  readHotkeys ownXml (readOptions ownXml e)

/-! ### Entries -/

/-- An entry's own text in front of its first list, and the text of that list. -/
def splitEntry (entryXml : Text) : Text × Text :=
  match cut (openTag "CheatEntries") entryXml with
  | none => (entryXml, [])
  | some (ownXml, rest) =>
    match findMatchingClose "CheatEntries" rest with
    | none => (ownXml, [])
    | some (childListXml, _) => (ownXml, childListXml)

/-- `parseCheatEntriesBlock`; every turn moves forward in the text or into a part of it. -/
def parseEntries : (turns : ℕ) → (entriesXml : Text) → (parentId : ℤ) → List CheatEntry
  | 0, _, _ => []
  | turns + 1, entriesXml, parentId =>
    match cut (openTag "CheatEntry") entriesXml with
    | none => []
    | some (_, rest) =>
      match findMatchingClose "CheatEntry" rest with
      | none => []
      | some (inner, rest) =>
        let (ownXml, childListXml) := splitEntry
          (openTag "CheatEntry" ++ inner ++ closeTag "CheatEntry")
        let e := readEntry ownXml parentId
        e :: ((if childListXml = [] then [] else parseEntries turns childListXml e.id) ++
          parseEntries turns rest parentId)

/-- `parseCheatEntriesBlock`. -/
def parseCheatEntriesBlock (entriesXml : Text) (parentId : ℤ) : List CheatEntry :=
  parseEntries (entriesXml.length + 1) entriesXml parentId

/-! ### The table -/

/-- The text without what is between the first `<CheatEntries>` and the first `</CheatEntries>`. -/
def headerXml (xml : Text) : Text :=
  match cut (openTag "CheatEntries") xml, cut (closeTag "CheatEntries") xml with
  | some (header, _), some (_, footer) => header ++ footer
  | _, _ => xml

def structureFieldOfXml (elementXml : Text) : StructureField :=
  let offsetStr := getTag elementXml "Offset"
  let fieldSizeStr := getTag elementXml "Size"
  { name := xmlUnescape (getTag elementXml "Name")
    offset := if offsetStr = [] then 0 else ((stoull 0 offsetStr).map (·.1)).getD 0
    size := if fieldSizeStr = [] then 4 else ((stoull 0 fieldSizeStr).map (·.1)).getD 4
    type := strToType (getTag elementXml "Type")
    displayMethod := xmlUnescape (getTag elementXml "DisplayMethod")
    nestedStructure := xmlUnescape (getTag elementXml "NestedStructure") }

def structureOfXml (structureXml : Text) : StructureDefinition :=
  let sizeStr := getTag structureXml "Size"
  { name := xmlUnescape (getTag structureXml "Name")
    size := if sizeStr = [] then 0 else ((stoull 0 sizeStr).map (·.1)).getD 0
    fields := (getTagBlocks (getTag structureXml "Elements") "Element").map structureFieldOfXml }

def commentOfXml (cXml : Text) : DisassemblerComment where
  address := xmlUnescape (getTag cXml "Address")
  comment := xmlUnescape (getTag cXml "Comment")
  label := xmlUnescape (getTag cXml "Label")

/-- The entries of the outermost list. -/
def entriesOfXml (xml : Text) : List CheatEntry :=
  match cut (openTag "CheatEntries") xml with
  | none => []
  | some (_, rest) =>
    match findMatchingClose "CheatEntries" rest with
    | none => []
    | some (entriesXml, _) => parseCheatEntriesBlock entriesXml (-1)

/-- `CheatTable::loadFromString`, nothing where it returns false. -/
def loadFromString (xml : Text) : Option CheatTable :=
  if (cut "<CheatTable".toList xml).isNone ∧ (cut (openTag "CheatEntries") xml).isNone then none
  else
    let header := headerXml xml
    some {
      gameName := xmlUnescape (getTag header "GameName")
      gameVersion := xmlUnescape (getTag header "GameVersion")
      author := xmlUnescape (getTag header "Author")
      comment := xmlUnescape (getTag header "Comment")
      luaScript := xmlUnescape (getTag header "LuaScript")
      rawFormsXml := getTag xml "Forms"
      structures :=
        ((getTagBlocks (getTag xml "Structures") "Structure").map structureOfXml).filter fun s ↦
          !s.name.isEmpty || !s.fields.isEmpty
      disassemblerComments :=
        ((getTagBlocks (getTag xml "DisassemblerComments") "DisassemblerComment").map
          commentOfXml).filter fun c ↦ !c.address.isEmpty && (!c.comment.isEmpty || !c.label.isEmpty)
      entries := entriesOfXml xml }

end Cecore.Table
