import Cecore.Table.XmlText

/-!
# The XML form of a table, written

`CheatTable::save` of `core/ct_file.cpp`, as the pieces of markup that are written one behind the
other.
-/

set_option autoImplicit false
set_option relaxedAutoImplicit false

namespace Cecore.Table

open Library.Markup

/-! ### Lines -/

def spaces (count : ℕ) : Text := List.replicate count ' '

/-- A line with a tag. -/
def tagLine (indent : ℕ) (tag : Piece) : List Piece := [.text (spaces indent), tag, .text ['\n']]

/-- A line with an element that has only text. -/
def leaf (indent : ℕ) (name : String) (content : Text) : List Piece :=
  [.text (spaces indent), .opening name, .text content, .closing name, .text ['\n']]

/-- A line that is written under a condition. -/
def leafIf (present : Bool) (indent : ℕ) (name : String) (content : Text) : List Piece :=
  if present then leaf indent name content else []

/-- An escaped text that is written unless it is empty. -/
def leafUnlessEmpty (indent : ℕ) (name : String) (content : Text) : List Piece :=
  leafIf (!content.isEmpty) indent name (xmlEscape content)

/-- Lines between the tags of an element on lines of their own. -/
def block (indent : ℕ) (name : String) (lines : List Piece) : List Piece :=
  tagLine indent (.opening name) ++ lines ++ tagLine indent (.closing name)

/-- A text that is written as it is; between angle brackets it is a tag. -/
def verbatim (s : Text) : Piece :=
  match s with
  | '<' :: rest => if rest.getLast? = some '>' then .mark rest.dropLast else .text s
  | _ => .text s

theorem render_verbatim (s : Text) : (verbatim s).render = s := by
  unfold verbatim
  split
  · next rest =>
    split_ifs with hlast
    · have hne : rest ≠ [] := by
        rintro rfl
        cases hlast
      have hend : rest.getLast hne = '>' := by
        rw [List.getLast?_eq_some_getLast hne] at hlast
        exact Option.some.inj hlast
      change '<' :: (rest.dropLast ++ ['>']) = '<' :: rest
      rw [← hend, List.dropLast_concat_getLast]
    · rfl
  · rfl

/-! ### Entries -/

/-- The text of a pointer offset. -/
def offsetText (off : ℤ) : Text := if off < 0 then '-' :: hex off.natAbs else hex off.natAbs

/-- A hotkey to be written: its action, its keys and its value. -/
structure HkOut where
  action : ℕ
  keys : Text
  value : Text

/-- The hotkeys of an entry that are bound. -/
def hotkeysOf (e : CheatEntry) : List HkOut :=
  (if e.hotkeyKeys = [] then [] else [⟨0, e.hotkeyKeys, []⟩]) ++
  (if e.setValueHotkeyKeys = [] then [] else [⟨5, e.setValueHotkeyKeys, e.setValueHotkeyValue⟩]) ++
  (if e.increaseHotkeyKeys = [] then [] else [⟨6, e.increaseHotkeyKeys, e.hotkeyStep⟩]) ++
  (if e.decreaseHotkeyKeys = [] then [] else [⟨7, e.decreaseHotkeyKeys, e.hotkeyStep⟩])

/-- The lines of a hotkey, the `hkId`th of its entry. -/
def hotkeyPieces (hkId : ℕ) (hk : HkOut) : List Piece :=
  block 8 "Hotkey"
    (leaf 10 "Action" (decimal hk.action) ++
      block 10 "Keys" ((keyStringToVKs hk.keys).flatMap fun vk ↦ leaf 12 "Key" (printInt vk)) ++
      leafUnlessEmpty 10 "Value" hk.value ++
      leaf 10 "ID" (decimal hkId))

/-- The hotkeys from the `hkId`th on. -/
def hotkeyLines : (hkId : ℕ) → List HkOut → List Piece
  | _, [] => []
  | hkId, hk :: hks => hotkeyPieces hkId hk ++ hotkeyLines (hkId + 1) hks

def hotkeysPieces (e : CheatEntry) : List Piece :=
  if (hotkeysOf e).isEmpty then [] else block 6 "Hotkeys" (hotkeyLines 0 (hotkeysOf e))

def groupPieces (e : CheatEntry) : List Piece :=
  leaf 6 "GroupHeader" ['1'] ++ leafIf e.collapsed 6 "Collapsed" ['1']

def scriptPieces (e : CheatEntry) : List Piece :=
  leafIf (!e.addressString.isEmpty) 6 "Address" e.addressString ++
  leaf 6 "VariableType" "Auto Assembler Script".toList

def lengthPieces (e : CheatEntry) : List Piece :=
  if e.type = .string ∨ e.type = .unicodeString then
    leafIf (decide (0 < e.length)) 6 "Length" (printInt e.length) ++
    leaf 6 "Unicode" (if e.type = .unicodeString then ['1'] else ['0'])
  else leafIf (decide (e.type = .byteArray ∧ 0 < e.length)) 6 "Length" (printInt e.length)

def offsetsPieces (e : CheatEntry) : List Piece :=
  if e.offsets.isEmpty then []
  else block 6 "Offsets" (e.offsets.flatMap fun off ↦ leaf 8 "Offset" (offsetText off))

def dataPieces (e : CheatEntry) : List Piece :=
  leaf 6 "Address" (if e.addressString = [] then hex e.address else e.addressString) ++
  leaf 6 "VariableType" (typeToStr e.type) ++
  lengthPieces e ++
  offsetsPieces e ++
  leafUnlessEmpty 6 "Value" e.value

/-- The lines that depend on what kind of entry it is. -/
def kindPieces (e : CheatEntry) : List Piece :=
  if e.isGroup then groupPieces e
  else if e.autoAsmScript ≠ [] then scriptPieces e
  else dataPieces e

/-- The `<Options>` element that stands for the cascade flags of a group. -/
def cascadeOptions (e : CheatEntry) : Text :=
  "<Options moActivateChildrenAsWell=".toList ++
    [doubleQuote, if e.activateChildren then '1' else '0', doubleQuote] ++
    " moDeactivateChildrenAsWell=".toList ++
    [doubleQuote, if e.deactivateChildren then '1' else '0', doubleQuote] ++ "/>".toList

def optionsPieces (e : CheatEntry) : List Piece :=
  if e.optionsXml ≠ [] then [.text (spaces 6), verbatim e.optionsXml, .text ['\n']]
  else if e.isGroup ∧ ¬(e.activateChildren ∧ e.deactivateChildren) then
    [.text (spaces 6), verbatim (cascadeOptions e), .text ['\n']]
  else []

/-- `writeEntryFields`. -/
def entryFields (e : CheatEntry) : List Piece :=
  leaf 6 "ID" (printInt e.id) ++
  leaf 6 "Description" (doubleQuote :: (xmlEscape e.description ++ [doubleQuote])) ++
  kindPieces e ++
  leafIf e.active 6 "Activated" ['1'] ++
  leafIf e.showAsHex 6 "ShowAsHex" ['1'] ++
  leafIf (!e.showAsSigned) 6 "ShowAsSigned" ['0'] ++
  leafIf (decide (e.freezeMode ≠ .normal)) 6 "freezeMode" (decimal e.freezeMode.number) ++
  leafUnlessEmpty 6 "AssemblerScript" e.autoAsmScript ++
  leafUnlessEmpty 6 "LuaScript" e.luaScript ++
  leafIf (!e.color.isEmpty) 6 "Color" e.color ++
  optionsPieces e ++
  leafUnlessEmpty 6 "DropDownList" e.dropdownList ++
  hotkeysPieces e

/-! ### The hierarchy -/

/-- What `idToIndex` holds under an id: the first entry with it; the id zero is not entered. -/
def idToIndex (entries : List CheatEntry) (id : ℤ) : Option ℕ :=
  if id = 0 then none else entries.findIdx? fun e ↦ decide (e.id = id)

/-- The entry whose child entry `i` is written as. -/
def parentIndex (entries : List CheatEntry) (i : ℕ) : Option ℕ :=
  match entries[i]? with
  | none => none
  | some e =>
    if e.parentId = -1 then none
    else (idToIndex entries e.parentId).filter fun p ↦ decide (p ≠ i)

/-- `children[p]`. -/
def childIndices (entries : List CheatEntry) (p : ℕ) : List ℕ :=
  (List.range entries.length).filter fun i ↦ decide (parentIndex entries i = some p)

/-- The entries that are no child, in order. -/
def rootIndices (entries : List CheatEntry) : List ℕ :=
  (List.range entries.length).filter fun i ↦ decide (parentIndex entries i = none)

/-- An entry around its written children. -/
def entryPieces (e : CheatEntry) (hasChildren : Bool) (children : List Piece) : List Piece :=
  block 4 "CheatEntry"
    (entryFields e ++ if hasChildren then block 6 "CheatEntries" children else [])

/-- A loop of calls of `writeEntry`. -/
def writeEntries (writeEntry : ℕ → List ℕ → Option (List Piece × List ℕ)) :
    List ℕ → List ℕ → Option (List Piece × List ℕ)
  | [], done => some ([], done)
  | i :: rest, done =>
    match writeEntry i done with
    | none => none
    | some (pieces, done) =>
      (writeEntries writeEntry rest done).map fun written ↦ (pieces ++ written.1, written.2)

/-- `writeEntry`: what is written for entry `i`, and `done` after it; nothing when the calls are
nested too deep. -/
def writeEntry (entries : List CheatEntry) :
    (depth : ℕ) → ℕ → List ℕ → Option (List Piece × List ℕ)
  | 0, _, _ => none
  | depth + 1, i, done =>
    if i ∈ done then some ([], done)
    else
      (writeEntries (writeEntry entries depth) (childIndices entries i) (i :: done)).map
        fun written ↦
          (entryPieces (entries.getD i {}) (!(childIndices entries i).isEmpty) written.1, written.2)

/-- The entries: the roots, and then whatever has not been written. -/
def entriesPieces (entries : List CheatEntry) : Option (List Piece) :=
  (writeEntries (writeEntry entries (entries.length + 1))
    (rootIndices entries ++ List.range entries.length) []).map (·.1)

/-! ### The document -/

def structureFieldPieces (field : StructureField) : List Piece :=
  block 8 "Element"
    (leaf 10 "Name" (xmlEscape field.name) ++ leaf 10 "Offset" (decimal field.offset) ++
      leaf 10 "Type" (typeToStr field.type) ++ leaf 10 "Size" (decimal field.size) ++
      leafUnlessEmpty 10 "DisplayMethod" field.displayMethod ++
      leafUnlessEmpty 10 "NestedStructure" field.nestedStructure)

def structurePieces (s : StructureDefinition) : List Piece :=
  block 4 "Structure"
    (leaf 6 "Name" (xmlEscape s.name) ++ leaf 6 "Size" (decimal s.size) ++
      block 6 "Elements" (s.fields.flatMap structureFieldPieces))

def commentPieces (c : DisassemblerComment) : List Piece :=
  block 4 "DisassemblerComment"
    (leaf 6 "Address" (xmlEscape c.address) ++ leafUnlessEmpty 6 "Comment" c.comment ++
      leafUnlessEmpty 6 "Label" c.label)

/-- What is written in front of the entries. -/
def headPieces (t : CheatTable) : List Piece :=
  [.mark ("?xml version=".toList ++ [doubleQuote] ++ "1.0".toList ++ [doubleQuote] ++
      " encoding=".toList ++ [doubleQuote] ++ "utf-8".toList ++ [doubleQuote, '?']),
    .text ['\n']] ++
  tagLine 0 (.opening "CheatTable") ++
  leaf 2 "CheatTableVersion" "45".toList ++
  leafUnlessEmpty 2 "GameName" t.gameName ++
  leafUnlessEmpty 2 "GameVersion" t.gameVersion ++
  leafUnlessEmpty 2 "Author" t.author ++
  leafUnlessEmpty 2 "Comment" t.comment ++
  leafUnlessEmpty 2 "LuaScript" t.luaScript ++
  (if t.structures.isEmpty then [] else
    block 2 "Structures" (t.structures.flatMap structurePieces)) ++
  (if t.disassemblerComments.isEmpty then [] else
    block 2 "DisassemblerComments" (t.disassemblerComments.flatMap commentPieces))

/-- What is written behind the entries. -/
def tailPieces (t : CheatTable) : List Piece :=
  leafIf (!t.rawFormsXml.isEmpty) 2 "Forms" t.rawFormsXml ++ tagLine 0 (.closing "CheatTable")

/-- `CheatTable::save`. -/
def save (t : CheatTable) : Option Text :=
  (entriesPieces t.entries).map fun entries ↦
    render (headPieces t ++ block 2 "CheatEntries" entries ++ tailPieces t)

end Cecore.Table
