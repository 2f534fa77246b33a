import Cecore.Table.XmlLoad

/-!
# An entry as it is read

Which fields each part of `parseCheatEntriesBlock` sets, and each field of the entry by the tags it
is read from.
-/

set_option autoImplicit false
set_option relaxedAutoImplicit false

namespace Cecore.Table

open Library.Markup

/-! ### What each part sets -/

/-- An entry with the hotkeys of another one. -/
def CheatEntry.withHotkeys (e other : CheatEntry) : CheatEntry :=
  { e with
    hotkeyKeys := other.hotkeyKeys
    increaseHotkeyKeys := other.increaseHotkeyKeys
    decreaseHotkeyKeys := other.decreaseHotkeyKeys
    setValueHotkeyKeys := other.setValueHotkeyKeys
    setValueHotkeyValue := other.setValueHotkeyValue
    hotkeyStep := other.hotkeyStep }

/-- An entry with the options of another one. -/
def CheatEntry.withOptions (e other : CheatEntry) : CheatEntry :=
  { e with
    optionsXml := other.optionsXml
    activateChildren := other.activateChildren
    deactivateChildren := other.deactivateChildren }

/-- An entry with the data of another one. -/
def CheatEntry.withData (e other : CheatEntry) : CheatEntry :=
  { e with
    address := other.address
    addressString := other.addressString
    offsets := other.offsets
    type := other.type
    value := other.value
    length := other.length }

theorem readHotkey_frame (e : CheatEntry) (hk : Text) :
    readHotkey e hk = e.withHotkeys (readHotkey e hk) := by
  unfold readHotkey bindHotkey
  dsimp only
  split_ifs <;> rfl

theorem foldl_readHotkey_frame (e : CheatEntry) (hks : List Text) :
    hks.foldl readHotkey e = e.withHotkeys (hks.foldl readHotkey e) := by
  induction hks generalizing e with
  | nil => rfl
  | cons hk hks ih =>
    rw [List.foldl_cons, ih, readHotkey_frame]
    rfl

/-- Reading hotkeys sets only hotkeys. -/
theorem readHotkeys_frame (ownXml : Text) (e : CheatEntry) :
    readHotkeys ownXml e = e.withHotkeys (readHotkeys ownXml e) := by
  unfold readHotkeys
  dsimp only
  split_ifs
  · exact foldl_readHotkey_frame e _
  · rfl

theorem readOptions_frame (ownXml : Text) (e : CheatEntry) :
    readOptions ownXml e = e.withOptions (readOptions ownXml e) := by
  unfold readOptions
  cases cut "<Options".toList ownXml with
  | none => rfl
  | some parts =>
    dsimp only
    cases cut ['>'] parts.2 <;> rfl

theorem readData_frame (ownXml : Text) (e : CheatEntry) :
    readData ownXml e = e.withData (readData ownXml e) := by
  unfold readData
  dsimp only
  split_ifs <;> rfl

/-- The entry that the fields in front of the data make. -/
def readHead (ownXml : Text) (parentId : ℤ) : CheatEntry :=
  let idStr := getTag ownXml "ID"
  { id := if idStr = [] then 0 else atoi idStr
    parentId := parentId
    description := stripQuotes (xmlUnescape (getTag ownXml "Description"))
    isGroup := decide (getTag ownXml "GroupHeader" = ['1'])
    collapsed := decide (getTag ownXml "Collapsed" = ['1']) }

/-- The data of an entry: what is read of an entry that is no group. -/
def readKind (ownXml : Text) (e : CheatEntry) : CheatEntry :=
  if e.isGroup then e else readData ownXml e

theorem readKind_frame (ownXml : Text) (e : CheatEntry) :
    readKind ownXml e = e.withData (readKind ownXml e) := by
  unfold readKind
  split_ifs
  · rfl
  · exact readData_frame ownXml e

/-- An entry with what is read between its data and its options. -/
def readFlags (ownXml : Text) (e : CheatEntry) : CheatEntry :=
  let fm := getTag ownXml "freezeMode"
  let dropDown := xmlUnescape (getTag ownXml "DropDownList")
  { e with
    active := decide (getTag ownXml "Activated" = ['1'])
    showAsHex := decide (getTag ownXml "ShowAsHex" = ['1'])
    showAsSigned := decide (getTag ownXml "ShowAsSigned" ≠ ['0'])
    freezeMode := if fm = [] then e.freezeMode
      else ((stoi 10 fm).map FreezeMode.ofNumber).getD e.freezeMode
    autoAsmScript := xmlUnescape (getTag ownXml "AssemblerScript")
    luaScript := xmlUnescape (getTag ownXml "LuaScript")
    color := getTag ownXml "Color"
    dropdownList := if dropDown = [] then xmlUnescape (getTag ownXml "DropdownList") else dropDown }

/-- An entry is read in five parts. -/
theorem readEntry_eq (ownXml : Text) (parentId : ℤ) :
    readEntry ownXml parentId = readHotkeys ownXml (readOptions ownXml
      (readFlags ownXml (readKind ownXml (readHead ownXml parentId)))) := by
  unfold readEntry readFlags readKind readHead
  by_cases hid : getTag ownXml "ID" = []
  · simp only [if_pos hid]
  · simp only [if_neg hid]

/-- The parts do not overwrite each other's fields. -/
theorem readEntry_parts (ownXml : Text) (parentId : ℤ) :
    ∃ options hotkeys : CheatEntry,
      options = readOptions ownXml (readFlags ownXml (readKind ownXml (readHead ownXml parentId))) ∧
      hotkeys = readHotkeys ownXml options ∧
      readEntry ownXml parentId =
        ((readFlags ownXml ((readHead ownXml parentId).withData
          (readKind ownXml (readHead ownXml parentId)))).withOptions options).withHotkeys hotkeys := by
  refine ⟨_, _, rfl, rfl, ?_⟩
  rw [readEntry_eq, ← readKind_frame, ← readOptions_frame, ← readHotkeys_frame]

theorem readEntry_id (ownXml : Text) (parentId : ℤ) :
    (readEntry ownXml parentId).id =
      if getTag ownXml "ID" = [] then 0 else atoi (getTag ownXml "ID") := by
  obtain ⟨_, _, -, -, heq⟩ := readEntry_parts ownXml parentId
  rw [heq]
  rfl

theorem readEntry_parentId (ownXml : Text) (parentId : ℤ) :
    (readEntry ownXml parentId).parentId = parentId := by
  obtain ⟨_, _, -, -, heq⟩ := readEntry_parts ownXml parentId
  rw [heq]
  rfl

/-- Each field that is read by itself. -/
theorem readEntry_fields (ownXml : Text) (parentId : ℤ) :
    let e := readEntry ownXml parentId
    e.description = stripQuotes (xmlUnescape (getTag ownXml "Description")) ∧
    e.isGroup = decide (getTag ownXml "GroupHeader" = ['1']) ∧
    e.collapsed = decide (getTag ownXml "Collapsed" = ['1']) ∧
    e.active = decide (getTag ownXml "Activated" = ['1']) ∧
    e.showAsHex = decide (getTag ownXml "ShowAsHex" = ['1']) ∧
    e.showAsSigned = decide (getTag ownXml "ShowAsSigned" ≠ ['0']) ∧
    e.freezeMode = (if getTag ownXml "freezeMode" = [] then .normal
      else ((stoi 10 (getTag ownXml "freezeMode")).map FreezeMode.ofNumber).getD .normal) ∧
    e.autoAsmScript = xmlUnescape (getTag ownXml "AssemblerScript") ∧
    e.luaScript = xmlUnescape (getTag ownXml "LuaScript") ∧
    e.color = getTag ownXml "Color" ∧
    e.dropdownList = (if xmlUnescape (getTag ownXml "DropDownList") = [] then
      xmlUnescape (getTag ownXml "DropdownList") else xmlUnescape (getTag ownXml "DropDownList")) := by
  obtain ⟨_, _, -, -, heq⟩ := readEntry_parts ownXml parentId
  rw [heq]
  exact ⟨rfl, rfl, rfl, rfl, rfl, rfl, rfl, rfl, rfl, rfl, rfl⟩

/-- The data of an entry are those of its part. -/
theorem readEntry_data (ownXml : Text) (parentId : ℤ) :
    let e := readEntry ownXml parentId
    let data := readKind ownXml (readHead ownXml parentId)
    e.address = data.address ∧ e.addressString = data.addressString ∧ e.offsets = data.offsets ∧
      e.type = data.type ∧ e.value = data.value ∧ e.length = data.length := by
  obtain ⟨_, _, -, -, heq⟩ := readEntry_parts ownXml parentId
  rw [heq]
  exact ⟨rfl, rfl, rfl, rfl, rfl, rfl⟩

/-- A group has no data. -/
theorem readEntry_group {ownXml : Text} (h : getTag ownXml "GroupHeader" = ['1']) (parentId : ℤ) :
    let e := readEntry ownXml parentId
    e.address = 0 ∧ e.addressString = [] ∧ e.offsets = [] ∧ e.type = .int32 ∧ e.value = [] ∧
      e.length = 0 := by
  obtain ⟨haddress, haddressString, hoffsets, htype, hvalue, hlength⟩ := readEntry_data ownXml parentId
  have hgroup : (readHead ownXml parentId).isGroup = true := decide_eq_true h
  dsimp only
  rw [haddress, haddressString, hoffsets, htype, hvalue, hlength, readKind, if_pos hgroup]
  exact ⟨rfl, rfl, rfl, rfl, rfl, rfl⟩

/-- The data of an entry that is no group by the tags they are read from. -/
theorem readEntry_nonGroup {ownXml : Text} (h : getTag ownXml "GroupHeader" ≠ ['1']) (parentId : ℤ) :
    let e := readEntry ownXml parentId
    e.address = (if getTag ownXml "Address" = [] then 0
      else ((stoull 16 (getTag ownXml "Address")).map (·.1)).getD 0) ∧
    e.addressString = getTag ownXml "Address" ∧
    e.offsets = (getTagBlocks (getTag ownXml "Offsets") "Offset").filterMap
      (fun offBlock ↦ stoll 16 (getTag offBlock "Offset")) ∧
    e.type = (if strToType (getTag ownXml "VariableType") = .string ∧
      getTag ownXml "Unicode" = ['1'] then .unicodeString
      else strToType (getTag ownXml "VariableType")) ∧
    e.value = xmlUnescape (getTag ownXml "Value") ∧
    e.length = (if getTag ownXml "Length" = [] then 0
      else (stoi 10 (getTag ownXml "Length")).getD 0) := by
  obtain ⟨haddress, haddressString, hoffsets, htype, hvalue, hlength⟩ := readEntry_data ownXml parentId
  have hgroup : ¬(readHead ownXml parentId).isGroup = true := fun hg ↦ h (of_decide_eq_true hg)
  dsimp only
  rw [haddress, haddressString, hoffsets, htype, hvalue, hlength, readKind, if_neg hgroup]
  unfold readData
  by_cases haddressTag : getTag ownXml "Address" = []
  · by_cases hlengthTag : getTag ownXml "Length" = []
    · simp only [if_pos hlengthTag, haddressTag, true_and]
      exact ⟨rfl, rfl, rfl⟩
    · simp only [if_neg hlengthTag, haddressTag, true_and]
      exact ⟨rfl, rfl, rfl⟩
  · by_cases hlengthTag : getTag ownXml "Length" = []
    · simp only [if_neg haddressTag, if_pos hlengthTag, true_and]
      rfl
    · simp only [if_neg haddressTag, if_neg hlengthTag, true_and]
      rfl

/-- The hotkeys are read into an entry that has none yet. -/
theorem readEntry_hotkeysPart (ownXml : Text) (parentId : ℤ) :
    ∃ start : CheatEntry, start.withHotkeys {} = start ∧
      readEntry ownXml parentId = readHotkeys ownXml start := by
  refine ⟨_, ?_, readEntry_eq ownXml parentId⟩
  rw [readOptions_frame, readKind_frame]
  rfl

/-- The options are read into an entry that has none yet. -/
theorem readEntry_optionsPart (ownXml : Text) (parentId : ℤ) :
    ∃ start : CheatEntry,
      (start.optionsXml = [] ∧ start.activateChildren = true ∧ start.deactivateChildren = true) ∧
      (readEntry ownXml parentId).optionsXml = (readOptions ownXml start).optionsXml ∧
      (readEntry ownXml parentId).activateChildren =
        (readOptions ownXml start).activateChildren ∧
      (readEntry ownXml parentId).deactivateChildren =
        (readOptions ownXml start).deactivateChildren := by
  obtain ⟨options, hotkeys, hoptions, -, hread⟩ := readEntry_parts ownXml parentId
  refine ⟨readFlags ownXml (readKind ownXml (readHead ownXml parentId)), ?_, ?_⟩
  · rw [readKind_frame]
    exact ⟨rfl, rfl, rfl⟩
  · rw [← hoptions, hread]
    exact ⟨rfl, rfl, rfl⟩

end Cecore.Table
