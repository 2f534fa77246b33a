import Cecore.Table.JsonReads

/-!
# The JSON round trip

`loadJson` reads what `saveJson` wrote: the document is parsed to the members that were written
(`reads_compact`), looking a member up finds what it was written from, and each record of the table
is put together again. The protected form hands the same text to `loadJson`.
-/

set_option autoImplicit false
set_option relaxedAutoImplicit false

namespace Cecore.Table

/-! ### Looking a member up -/

def Scalar.value : Scalar → JsonValue
  | text value => .string value
  | number value => .number (some value)
  | flag value => .bool value

/-- The object that members are read as. -/
def objectOf (members : Members) : JsonValue :=
  .object (members.map fun member ↦ (member.1.toList, member.2.value))

theorem getField_nil (key : String) : getField (objectOf []) key = none := rfl

theorem getField_field (name : String) (value : JsonValue) (fields : List (Text × JsonValue))
    (key : String) :
    getField (.object ((name.toList, value) :: fields)) key =
      if name = key then some value else getField (.object fields) key := by
  by_cases h : name = key
  · simp [getField, h]
  · have hne : ¬name.toList = key.toList := fun heq ↦ h (String.toList_inj.mp heq)
    simp [getField, h, hne]

theorem getField_cons (name : String) (value : Scalar) (members : Members) (key : String) :
    getField (objectOf ((name, value) :: members)) key =
      if name = key then some value.value else getField (objectOf members) key :=
  getField_field name value.value _ key

theorem getField_memberIf (present : Bool) (name : String) (value : Scalar) (members : Members)
    (key : String) :
    getField (objectOf (memberIf present name value ++ members)) key =
      if name = key then if present = true then some value.value else getField (objectOf members) key
      else getField (objectOf members) key := by
  cases present
  · simp [memberIf]
  · simp [memberIf, getField_cons]

theorem getField_memberUnlessEmpty (name : String) (value : Text) (members : Members) (key : String) :
    getField (objectOf (memberUnlessEmpty name value ++ members)) key =
      if name = key then if value ≠ [] then some (.string value) else getField (objectOf members) key
      else getField (objectOf members) key := by
  cases value
  · simp [memberUnlessEmpty, memberIf]
  · simp [memberUnlessEmpty, memberIf, getField_cons, Scalar.value]

/-- The same for a member that stands last. -/
theorem getField_memberIf_last (present : Bool) (name : String) (value : Scalar) (key : String) :
    getField (objectOf (memberIf present name value)) key =
      if name = key then if present = true then some value.value else none else none := by
  rw [← List.append_nil (memberIf present name value), getField_memberIf, getField_nil]

theorem getField_memberUnlessEmpty_last (name : String) (value : Text) (key : String) :
    getField (objectOf (memberUnlessEmpty name value)) key =
      if name = key then if value ≠ [] then some (.string value) else none else none := by
  rw [← List.append_nil (memberUnlessEmpty name value), getField_memberUnlessEmpty, getField_nil]

/-! ### Reading a field -/

theorem jsonStringField_of_some {object : JsonValue} {key : String} {s : Text}
    (h : getField object key = some (.string s)) : jsonStringField object key = s := by
  rw [jsonStringField, h]

theorem jsonStringField_of_ite {object : JsonValue} {key : String} {present : Prop}
    [Decidable present] {s : Text}
    (h : getField object key = if present then some (.string s) else none) :
    jsonStringField object key = if present then s else [] := by
  rw [jsonStringField, h]
  split_ifs <;> rfl

theorem jsonStringField_unlessEmpty {object : JsonValue} {key : String} {s : Text}
    (h : getField object key = if s ≠ [] then some (.string s) else none) :
    jsonStringField object key = s := by
  rw [jsonStringField_of_ite h]
  split_ifs with hs
  · rfl
  · exact (not_not.mp hs).symm

theorem jsonBoolField_of_flag {object : JsonValue} {key : String} {b : Bool}
    (h : getField object key = if b = true then some (.bool true) else none) :
    jsonBoolField object key = b := by
  rw [jsonBoolField, h]
  cases b <;> rfl

theorem jsonIntField_of_ite {object : JsonValue} {key : String} {present : Prop}
    [Decidable present] {n : ℤ} (defaultValue : ℤ)
    (h : getField object key = if present then some (.number (some n)) else none) :
    jsonIntField object key defaultValue = if present then n else defaultValue := by
  rw [jsonIntField, h]
  split_ifs
  · exact castInt_intCast n
  · rfl

theorem jsonSizeField_of_some {object : JsonValue} {key : String} {n : ℕ} (defaultValue : ℕ)
    (hn : n < sizeModulus) (h : getField object key = some (.number (some (n : ℤ)))) :
    jsonSizeField object key defaultValue = n := by
  rw [jsonSizeField, jsonUnsignedField, h]
  dsimp only
  rw [castInt_intCast, Int.emod_eq_of_lt (Int.natCast_nonneg n) (by exact_mod_cast hn),
    Int.toNat_natCast]

theorem jsonValueTypeField_of_ite {object : JsonValue} {present : Prop} [Decidable present]
    {type : ValueType}
    (h : getField object "type" = if present then some (.number (some (type.number : ℤ))) else none) :
    jsonValueTypeField object = if present then type else .int32 := by
  rw [jsonValueTypeField, h]
  split_ifs
  · dsimp only
    rw [castInt_intCast, ValueType.ofNumber_number]
  · rfl

/-- `std::stoull` with base detection reads back `0x%lx`. -/
theorem stoull_hex {address : ℕ} (h : address < sizeModulus) :
    stoull 0 ('0' :: 'x' :: hex address) = some (address, []) := by
  have hdigits := takeDigits_toDigits (by decide : 1 < 16) (by decide) address []
  have hstarts := startsDigit_toDigits (by decide : 1 < 16) (by decide) address []
  rw [List.append_nil] at hdigits hstarts
  have hread : readInteger 0 ('0' :: 'x' :: hex address) = some (false, address, []) := by
    have hsign : takeSign (('0' :: 'x' :: hex address).dropWhile isSpace) =
        (false, '0' :: 'x' :: hex address) := rfl
    have hbase : numberPrefix 0 ('0' :: 'x' :: hex address) = (16, hex address) := by
      rw [numberPrefix, if_pos ⟨Or.inl rfl, Or.inl rfl, hstarts⟩]
    rw [readInteger, hsign]
    dsimp only
    rw [hbase]
    dsimp only
    rw [hex, if_pos hstarts, hdigits]
    rfl
  rw [stoull, hread]
  dsimp only
  rw [if_pos h]
  rfl

theorem jsonAddressField_of_ite {object : JsonValue} {key : String} {present : Prop}
    [Decidable present] {address : ℕ} (haddress : address < sizeModulus)
    (h : getField object key =
      if present then some (.string ('0' :: 'x' :: hex address)) else none) :
    jsonAddressField object key = if present then address else 0 := by
  rw [jsonAddressField, jsonUnsignedField, h]
  split_ifs
  · dsimp only
    rw [stoull_hex haddress]
    rfl
  · rfl

/-! ### What the form keeps -/

/-- An entry without what `saveJson` does not write of it. -/
def CheatEntry.jsonView (e : CheatEntry) : CheatEntry :=
  { e with
    address := if e.isGroup then 0 else e.address
    addressString := []
    offsets := []
    type := if e.isGroup then .int32 else e.type
    value := if e.isGroup then [] else e.value
    parentId := if 0 ≤ e.parentId then e.parentId else -1
    activateChildren := true
    deactivateChildren := true
    optionsXml := []
    length := 0 }

/-- The texts that are written unless they are empty. -/
theorem texts_entryMembers (e : CheatEntry) :
    jsonStringField (objectOf (entryMembers e)) "asm" = e.autoAsmScript ∧
      jsonStringField (objectOf (entryMembers e)) "lua" = e.luaScript ∧
      jsonStringField (objectOf (entryMembers e)) "color" = e.color ∧
      jsonStringField (objectOf (entryMembers e)) "dropdown" = e.dropdownList ∧
      jsonStringField (objectOf (entryMembers e)) "hotkeys" = e.hotkeyKeys ∧
      jsonStringField (objectOf (entryMembers e)) "increaseHotkey" = e.increaseHotkeyKeys ∧
      jsonStringField (objectOf (entryMembers e)) "setValueHotkey" = e.setValueHotkeyKeys ∧
      jsonStringField (objectOf (entryMembers e)) "setValueHotkeyValue" = e.setValueHotkeyValue ∧
      jsonStringField (objectOf (entryMembers e)) "decreaseHotkey" = e.decreaseHotkeyKeys ∧
      jsonStringField (objectOf (entryMembers e)) "hotkeyStep" = e.hotkeyStep := by
  refine ⟨?_, ?_, ?_, ?_, ?_, ?_, ?_, ?_, ?_, ?_⟩
  all_goals apply jsonStringField_unlessEmpty
  all_goals unfold entryMembers
  all_goals simp only [List.append_assoc, List.cons_append, List.nil_append, getField_cons,
    getField_memberIf, getField_memberUnlessEmpty, getField_memberIf_last, Scalar.value,
    String.reduceEq, if_false, if_true]

/-- The flags that are written where they are set. -/
theorem flags_entryMembers (e : CheatEntry) :
    jsonBoolField (objectOf (entryMembers e)) "active" = e.active ∧
      jsonBoolField (objectOf (entryMembers e)) "showAsHex" = e.showAsHex ∧
      jsonBoolField (objectOf (entryMembers e)) "group" = e.isGroup ∧
      jsonBoolField (objectOf (entryMembers e)) "collapsed" = e.collapsed := by
  refine ⟨?_, ?_, ?_, ?_⟩
  all_goals apply jsonBoolField_of_flag
  all_goals unfold entryMembers
  all_goals simp only [List.append_assoc, List.cons_append, List.nil_append, getField_cons,
    getField_memberIf, getField_memberUnlessEmpty, getField_memberIf_last, Scalar.value,
    String.reduceEq, if_false, if_true]

/-- The members of an entry that are written unless it is a group. -/
theorem data_entryMembers {e : CheatEntry} (haddress : e.address < sizeModulus) :
    jsonAddressField (objectOf (entryMembers e)) "addr" = (if e.isGroup then 0 else e.address) ∧
      jsonValueTypeField (objectOf (entryMembers e)) = (if e.isGroup then .int32 else e.type) ∧
      jsonStringField (objectOf (entryMembers e)) "value" = (if e.isGroup then [] else e.value) := by
  have haddr : jsonAddressField (objectOf (entryMembers e)) "addr" =
      if (!e.isGroup) = true then e.address else 0 := jsonAddressField_of_ite haddress ?_
  have htype : jsonValueTypeField (objectOf (entryMembers e)) =
      if (!e.isGroup) = true then e.type else .int32 := jsonValueTypeField_of_ite ?_
  have hvalue : jsonStringField (objectOf (entryMembers e)) "value" =
      if (!e.isGroup) = true then e.value else [] := jsonStringField_of_ite ?_
  · rw [haddr, htype, hvalue]
    cases e.isGroup <;> exact ⟨rfl, rfl, rfl⟩
  all_goals unfold entryMembers
  all_goals simp only [List.append_assoc, List.cons_append, List.nil_append, getField_cons,
    getField_memberIf, getField_memberUnlessEmpty, getField_memberIf_last, Scalar.value,
    String.reduceEq, if_false, if_true]

/-- The members of an entry that are always written. -/
theorem head_entryMembers (e : CheatEntry) :
    jsonIntField (objectOf (entryMembers e)) "id" 0 = e.id ∧
      jsonStringField (objectOf (entryMembers e)) "desc" = e.description := by
  have hid : jsonIntField (objectOf (entryMembers e)) "id" 0 = if True then e.id else 0 :=
    jsonIntField_of_ite 0 ?_
  have hdesc : jsonStringField (objectOf (entryMembers e)) "desc" = e.description :=
    jsonStringField_of_some ?_
  · exact ⟨hid.trans (if_pos trivial), hdesc⟩
  all_goals unfold entryMembers
  all_goals simp only [List.append_assoc, List.cons_append, List.nil_append, getField_cons,
    Scalar.value, String.reduceEq, if_false, if_true]

/-- The members of an entry that are written unless they are at their defaults. -/
theorem settings_entryMembers (e : CheatEntry) :
    (if (getField (objectOf (entryMembers e)) "showAsSigned").isSome then
        jsonBoolField (objectOf (entryMembers e)) "showAsSigned" else true) = e.showAsSigned ∧
      FreezeMode.ofNumber (jsonIntField (objectOf (entryMembers e)) "freezeMode" 0) = e.freezeMode ∧
      jsonIntField (objectOf (entryMembers e)) "parent" (-1) =
        (if 0 ≤ e.parentId then e.parentId else -1) := by
  have hsigned : getField (objectOf (entryMembers e)) "showAsSigned" =
      if (!e.showAsSigned) = true then some (.bool false) else none := ?_
  have hfreeze : jsonIntField (objectOf (entryMembers e)) "freezeMode" 0 =
      if decide (e.freezeMode ≠ .normal) = true then (e.freezeMode.number : ℤ) else 0 :=
    jsonIntField_of_ite 0 ?_
  have hparent : jsonIntField (objectOf (entryMembers e)) "parent" (-1) =
      if decide (0 ≤ e.parentId) = true then e.parentId else -1 := jsonIntField_of_ite (-1) ?_
  · refine ⟨?_, ?_, ?_⟩
    · rw [jsonBoolField, hsigned]
      cases e.showAsSigned <;> rfl
    · rw [hfreeze]
      cases e.freezeMode <;> rfl
    · rw [hparent]
      by_cases h : 0 ≤ e.parentId <;> simp [h]
  all_goals unfold entryMembers
  all_goals simp only [List.append_assoc, List.cons_append, List.nil_append, getField_cons,
    getField_memberIf, getField_memberUnlessEmpty, getField_memberIf_last, Scalar.value,
    String.reduceEq, if_false, if_true]

/-- An entry is put together again from its members. -/
theorem entryOfJson_entryMembers {e : CheatEntry} (haddress : e.address < sizeModulus) :
    entryOfJson (objectOf (entryMembers e)) = e.jsonView := by
  obtain ⟨hid, hdesc⟩ := head_entryMembers e
  obtain ⟨haddr, htype, hvalue⟩ := data_entryMembers haddress
  obtain ⟨hactive, hhex, hgroup, hcollapsed⟩ := flags_entryMembers e
  obtain ⟨hsigned, hfreeze, hparent⟩ := settings_entryMembers e
  obtain ⟨hasm, hlua, hcolor, hdrop, hkeys, hinc, hset, hsetValue, hdec, hstep⟩ :=
    texts_entryMembers e
  rw [entryOfJson, hid, hdesc, haddr, htype, hvalue, hactive, hhex, hgroup, hcollapsed, hsigned,
    hfreeze, hparent, hasm, hlua, hcolor, hdrop, hkeys, hinc, hset, hsetValue, hdec, hstep]
  rfl

/-! ### The parts of the document -/

/-- The numbers of an entry are in the range of their types. -/
def CheatEntry.InRange (e : CheatEntry) : Prop :=
  (-(2 ^ 31) ≤ e.id ∧ e.id < 2 ^ 31) ∧ (-(2 ^ 31) ≤ e.parentId ∧ e.parentId < 2 ^ 31) ∧
    e.address < sizeModulus

instance (e : CheatEntry) : Decidable e.InRange := inferInstanceAs (Decidable (_ ∧ _ ∧ _))

/-- A number that is written is a double. -/
def Scalar.Exact : Scalar → Prop
  | number value => |value| < 2 ^ 53
  | _ => True

theorem reads_scalar (levels : ℕ) {scalar : Scalar} (h : scalar.Exact) :
    Reads (levels + 1) scalar.render scalar.value := by
  cases scalar with
  | text value => exact reads_quoted levels value
  | number value => exact reads_printInt levels h
  | flag value => exact reads_flag levels value

theorem blank_nil : Blank [] := by
  intro c hc
  cases hc

/-- An object on one line is read as the object of its members. -/
theorem reads_compact (levels : ℕ) {members : Members} (h : ∀ member ∈ members, member.2.Exact) :
    Reads (levels + 2) (compact members) (objectOf members) := by
  refine reads_objectText blank_nil blank_nil blank_nil ?_
  induction members with
  | nil => exact List.Forall₂.nil
  | cons member members ih =>
    exact List.Forall₂.cons ⟨rfl, reads_scalar levels (h member List.mem_cons_self)⟩
      (ih fun other hother ↦ h other (List.mem_cons_of_mem _ hother))

theorem exact_memberIf {present : Bool} {name : String} {value : Scalar} (h : value.Exact) :
    ∀ member ∈ memberIf present name value, member.2.Exact := by
  intro member hmember
  cases present
  · cases hmember
  · obtain rfl := List.mem_singleton.mp hmember
    exact h

theorem exact_memberUnlessEmpty (name : String) (value : Text) :
    ∀ member ∈ memberUnlessEmpty name value, member.2.Exact :=
  exact_memberIf trivial

theorem exact_number {n : ℤ} (hlow : -(2 ^ 31) ≤ n) (hhigh : n < 2 ^ 31) : (Scalar.number n).Exact := by
  refine abs_lt.mpr ⟨?_, ?_⟩ <;> omega

theorem exact_type (type : ValueType) : (Scalar.number type.number).Exact := by
  have := type.number_lt
  exact exact_number (by omega) (by omega)

theorem exact_natCast {n : ℕ} (h : n < 2 ^ 53) : (Scalar.number n).Exact := by
  refine abs_lt.mpr ⟨?_, ?_⟩ <;> omega

theorem exact_entryMembers {e : CheatEntry} (h : e.InRange) :
    ∀ member ∈ entryMembers e, member.2.Exact := by
  have hfreeze : (Scalar.number e.freezeMode.number).Exact := by
    cases e.freezeMode <;> exact exact_number (by decide) (by decide)
  unfold entryMembers
  simp only [List.forall_mem_append, List.forall_mem_cons]
  and_intros
  all_goals try exact exact_memberUnlessEmpty _ _
  · exact exact_number h.1.1 h.1.2
  · exact trivial
  · exact List.forall_mem_nil _
  · exact exact_memberIf trivial
  · exact exact_memberIf (exact_type e.type)
  all_goals try exact exact_memberIf trivial
  · exact exact_memberIf hfreeze
  · exact exact_memberIf (exact_number h.2.1.1 h.2.1.2)

theorem exact_commentMembers (c : DisassemblerComment) :
    ∀ member ∈ commentMembers c, member.2.Exact := by
  unfold commentMembers
  simp only [List.forall_mem_append, List.forall_mem_cons]
  exact ⟨⟨⟨trivial, List.forall_mem_nil _⟩, exact_memberUnlessEmpty _ _⟩,
    exact_memberUnlessEmpty _ _⟩

/-- The sizes of a field are doubles. -/
def StructureField.InRange (field : StructureField) : Prop :=
  field.offset < 2 ^ 53 ∧ field.size < 2 ^ 53

def StructureDefinition.InRange (s : StructureDefinition) : Prop :=
  s.size < 2 ^ 53 ∧ ∀ field ∈ s.fields, field.InRange

instance (field : StructureField) : Decidable field.InRange := inferInstanceAs (Decidable (_ ∧ _))

instance (s : StructureDefinition) : Decidable s.InRange := inferInstanceAs (Decidable (_ ∧ _))

theorem exact_structureFieldMembers {field : StructureField} (h : field.InRange) :
    ∀ member ∈ structureFieldMembers field, member.2.Exact := by
  unfold structureFieldMembers
  simp only [List.forall_mem_append, List.forall_mem_cons]
  exact ⟨⟨⟨trivial, exact_natCast h.1, exact_type field.type, exact_natCast h.2,
    List.forall_mem_nil _⟩, exact_memberUnlessEmpty _ _⟩, exact_memberUnlessEmpty _ _⟩

/-- The object that a structure is read as. -/
def structureObject (s : StructureDefinition) : JsonValue :=
  .object [("name".toList, .string s.name), ("size".toList, .number (some (s.size : ℤ))),
    ("fields".toList, .array (s.fields.map fun field ↦ objectOf (structureFieldMembers field)))]

/-- Texts that are read one by one. -/
theorem forall₂_reads {α : Type} {levels : ℕ} {items : List α} {text : α → Text}
    {value : α → JsonValue} (h : ∀ item ∈ items, Reads levels (text item) (value item)) :
    List.Forall₂ (Reads levels) (items.map text) (items.map value) := by
  induction items with
  | nil => exact List.Forall₂.nil
  | cons item items ih =>
    exact List.Forall₂.cons (h item List.mem_cons_self)
      (ih fun other hother ↦ h other (List.mem_cons_of_mem _ hother))

theorem reads_structureText (levels : ℕ) {s : StructureDefinition} (h : s.InRange) :
    Reads (levels + 4) (structureText s) (structureObject s) := by
  have hsize : decimal s.size = printInt s.size := by
    rw [printInt, if_neg (Int.not_lt.mpr (Int.natCast_nonneg _)), Int.natAbs_natCast]
  have hfields : Reads (levels + 3)
      (arrayText [] [] (s.fields.map fun field ↦ compact (structureFieldMembers field)))
      (.array (s.fields.map fun field ↦ objectOf (structureFieldMembers field))) :=
    reads_arrayText blank_nil blank_nil (forall₂_reads fun field hfield ↦
      reads_compact levels (exact_structureFieldMembers (h.2 field hfield)))
  refine reads_objectText blank_nil blank_nil blank_nil (.cons ⟨rfl, ?_⟩ (.cons ⟨rfl, ?_⟩
    (.cons ⟨rfl, hfields⟩ .nil)))
  · exact reads_quoted _ s.name
  · rw [hsize]
    exact reads_printInt _ (exact_natCast h.1)

/-! ### The document -/

/-- The numbers of a table are in the range of their types, its sizes are doubles, and its comments
have addresses. -/
structure CheatTable.Storable (t : CheatTable) : Prop where
  entries : ∀ e ∈ t.entries, e.InRange
  structures : ∀ s ∈ t.structures, s.InRange
  comments : ∀ c ∈ t.disassemblerComments, c.address ≠ []

/-- The object that a table is read as, with what its structures are read as. -/
def documentObject (t : CheatTable) (structures : JsonValue) : JsonValue :=
  .object [("game".toList, .string t.gameName), ("version".toList, .string t.gameVersion),
    ("author".toList, .string t.author), ("comment".toList, .string t.comment),
    ("luaScript".toList, .string t.luaScript), ("structures".toList, structures),
    ("disassemblerComments".toList,
      .array (t.disassemblerComments.map fun c ↦ objectOf (commentMembers c))),
    ("entries".toList, .array (t.entries.map fun e ↦ objectOf (entryMembers e)))]

/-- The object that a table is read as. -/
def tableObject (t : CheatTable) : JsonValue :=
  documentObject t (.array (t.structures.map structureObject))

/-- The parser reads the document of a table where it reads its structures. -/
theorem parseJson_document {t : CheatTable} (h : ∀ e ∈ t.entries, e.InRange) {structures : JsonValue}
    (hstructures : Reads 127 (arrayText itemLead fieldLead (t.structures.map structureText))
      structures) :
    parseJson (saveJson t) = some (documentObject t structures) := by
  have hlead : Blank fieldLead := by decide
  have hcomments : Reads 127
      (arrayText [] [] (t.disassemblerComments.map fun c ↦ compact (commentMembers c)))
      (.array (t.disassemblerComments.map fun c ↦ objectOf (commentMembers c))) :=
    reads_arrayText blank_nil blank_nil (forall₂_reads fun c _ ↦
      reads_compact 124 (exact_commentMembers c))
  have hentries : Reads 127
      (arrayText itemLead fieldLead (t.entries.map fun e ↦ compact (entryMembers e)))
      (.array (t.entries.map fun e ↦ objectOf (entryMembers e))) :=
    reads_arrayText (by decide) hlead (forall₂_reads fun e he ↦
      reads_compact 124 (exact_entryMembers (h e he)))
  have hdocument : Reads kMaxDepth (objectText fieldLead [' '] ['\n'] (tableMembers t))
      (documentObject t structures) := by
    refine reads_objectText hlead (by decide) (by decide) ?_
    exact .cons ⟨rfl, reads_quoted 126 t.gameName⟩ (.cons ⟨rfl, reads_quoted 126 t.gameVersion⟩
      (.cons ⟨rfl, reads_quoted 126 t.author⟩ (.cons ⟨rfl, reads_quoted 126 t.comment⟩
        (.cons ⟨rfl, reads_quoted 126 t.luaScript⟩ (.cons ⟨rfl, hstructures⟩
          (.cons ⟨rfl, hcomments⟩ (.cons ⟨rfl, hentries⟩ .nil)))))))
  rw [parseJson, parseValue_skipWs, saveJson,
    hdocument ['\n'] (delimited_cons (by decide) [])]
  rfl

/-- The parser reads the document of a table. -/
theorem parseJson_saveJson {t : CheatTable} (h : t.Storable) :
    parseJson (saveJson t) = some (tableObject t) :=
  parseJson_document h.entries (reads_arrayText (by decide) (by decide) (forall₂_reads fun s hs ↦
    reads_structureText 122 (h.structures s hs)))

/-! ### Putting the records together -/

/-- An array of objects is read back item by item. -/
theorem jsonObjects_map {α β : Type} {object : JsonValue} {key : String} {items : List α}
    {value : α → JsonValue} {read : JsonValue → β} {back : α → β}
    (h : getField object key = some (.array (items.map value)))
    (hobject : ∀ item, ∃ fields, value item = .object fields)
    (hback : ∀ item ∈ items, read (value item) = back item) :
    (jsonObjects object key).map read = items.map back := by
  have hall : jsonObjects object key = items.map value := by
    rw [jsonObjects, h]
    refine List.filter_eq_self.mpr fun item hitem ↦ ?_
    obtain ⟨source, -, rfl⟩ := List.mem_map.mp hitem
    obtain ⟨fields, heq⟩ := hobject source
    rw [heq]
  rw [hall, List.map_map]
  exact List.map_congr_left hback

theorem structureFieldOfJson_members {field : StructureField} (h : field.InRange) :
    structureFieldOfJson (objectOf (structureFieldMembers field)) = field := by
  set object := objectOf (structureFieldMembers field) with hobject
  have hname : jsonStringField object "name" = field.name := jsonStringField_of_some ?_
  have hoffset : jsonSizeField object "offset" 0 = field.offset :=
    jsonSizeField_of_some 0 (h.1.trans (by decide)) ?_
  have htype : jsonValueTypeField object = if True then field.type else .int32 :=
    jsonValueTypeField_of_ite ?_
  have hsize : jsonSizeField object "size" 4 = field.size :=
    jsonSizeField_of_some 4 (h.2.trans (by decide)) ?_
  have hdisplay : jsonStringField object "display" = field.displayMethod :=
    jsonStringField_unlessEmpty ?_
  have hnested : jsonStringField object "nested" = field.nestedStructure :=
    jsonStringField_unlessEmpty ?_
  · rw [structureFieldOfJson, hname, hoffset, htype, hsize, hdisplay, hnested, if_pos trivial]
  all_goals rw [hobject, structureFieldMembers]
  all_goals simp only [List.cons_append, List.nil_append, getField_cons, getField_memberUnlessEmpty,
    getField_memberUnlessEmpty_last, Scalar.value, String.reduceEq, if_false, if_true]

theorem commentOfJson_members (c : DisassemblerComment) :
    commentOfJson (objectOf (commentMembers c)) = c := by
  set object := objectOf (commentMembers c) with hobject
  have haddress : jsonStringField object "address" = c.address := jsonStringField_of_some ?_
  have hcomment : jsonStringField object "comment" = c.comment := jsonStringField_unlessEmpty ?_
  have hlabel : jsonStringField object "label" = c.label := jsonStringField_unlessEmpty ?_
  · rw [commentOfJson, haddress, hcomment, hlabel]
  all_goals rw [hobject, commentMembers]
  all_goals simp only [List.cons_append, List.nil_append, getField_cons, getField_memberUnlessEmpty,
    getField_memberUnlessEmpty_last, Scalar.value, String.reduceEq, if_false, if_true]

theorem structureOfJson_structureObject {s : StructureDefinition} (h : s.InRange) :
    structureOfJson (structureObject s) = s := by
  have hname : jsonStringField (structureObject s) "name" = s.name :=
    jsonStringField_of_some (by simp only [structureObject, getField_field, if_true])
  have hsize : jsonSizeField (structureObject s) "size" 0 = s.size :=
    jsonSizeField_of_some 0 (h.1.trans (by decide)) (by
      simp only [structureObject, getField_field, String.reduceEq, if_false, if_true])
  have hget : getField (structureObject s) "fields" =
      some (.array (s.fields.map fun field ↦ objectOf (structureFieldMembers field))) := by
    simp only [structureObject, getField_field, String.reduceEq, if_false, if_true]
  have hfields : (jsonObjects (structureObject s) "fields").map structureFieldOfJson =
      s.fields.map id :=
    jsonObjects_map hget (fun field ↦ ⟨_, rfl⟩) fun field hfield ↦
      structureFieldOfJson_members (h.2 field hfield)
  rw [structureOfJson, hname, hsize, hfields, List.map_id]

/-- What `saveJson` keeps of a table, loaded into `self`. -/
def CheatTable.jsonView (self t : CheatTable) : CheatTable :=
  { t with
    entries := t.entries.map CheatEntry.jsonView
    rawFormsXml := self.rawFormsXml }

/-- `loadJson` reads what `saveJson` wrote. -/
theorem loadJson_saveJson (self : CheatTable) {t : CheatTable} (h : t.Storable) :
    loadJson self (saveJson t) = some (self.jsonView t) := by
  have htexts : jsonStringField (tableObject t) "game" = t.gameName ∧
      jsonStringField (tableObject t) "version" = t.gameVersion ∧
      jsonStringField (tableObject t) "author" = t.author ∧
      jsonStringField (tableObject t) "comment" = t.comment ∧
      jsonStringField (tableObject t) "luaScript" = t.luaScript := by
    refine ⟨?_, ?_, ?_, ?_, ?_⟩
    all_goals apply jsonStringField_of_some
    all_goals simp only [tableObject, documentObject, getField_field, String.reduceEq, if_false, if_true]
  have harrays : getField (tableObject t) "structures" =
        some (.array (t.structures.map structureObject)) ∧
      getField (tableObject t) "disassemblerComments" =
        some (.array (t.disassemblerComments.map fun c ↦ objectOf (commentMembers c))) ∧
      getField (tableObject t) "entries" =
        some (.array (t.entries.map fun e ↦ objectOf (entryMembers e))) := by
    refine ⟨?_, ?_, ?_⟩
    all_goals simp only [tableObject, documentObject, getField_field, String.reduceEq, if_false, if_true]
  have hstructures : (jsonObjects (tableObject t) "structures").map structureOfJson =
      t.structures.map id :=
    jsonObjects_map harrays.1 (fun s ↦ ⟨_, rfl⟩) fun s hs ↦
      structureOfJson_structureObject (h.structures s hs)
  have hcomments : (jsonObjects (tableObject t) "disassemblerComments").map commentOfJson =
      t.disassemblerComments.map id :=
    jsonObjects_map harrays.2.1 (fun c ↦ ⟨_, rfl⟩) fun c _ ↦ commentOfJson_members c
  have hentries : (jsonObjects (tableObject t) "entries").map entryOfJson =
      t.entries.map CheatEntry.jsonView :=
    jsonObjects_map harrays.2.2 (fun e ↦ ⟨_, rfl⟩) fun e he ↦
      entryOfJson_entryMembers (h.entries e he).2.2
  have hkept : (t.disassemblerComments.filter fun c ↦ !c.address.isEmpty) =
      t.disassemblerComments := by
    refine List.filter_eq_self.mpr fun c hc ↦ ?_
    simpa using h.comments c hc
  have hloaded : loadJson self (saveJson t) = some { self with
      gameName := jsonStringField (tableObject t) "game"
      gameVersion := jsonStringField (tableObject t) "version"
      author := jsonStringField (tableObject t) "author"
      comment := jsonStringField (tableObject t) "comment"
      luaScript := jsonStringField (tableObject t) "luaScript"
      structures := (jsonObjects (tableObject t) "structures").map structureOfJson
      disassemblerComments :=
        ((jsonObjects (tableObject t) "disassemblerComments").map commentOfJson).filter fun c ↦
          !c.address.isEmpty
      entries := (jsonObjects (tableObject t) "entries").map entryOfJson } := by
    rw [loadJson, parseJson_saveJson h]
    rfl
  obtain ⟨hgame, hversion, hauthor, hcomment, hlua⟩ := htexts
  rw [hloaded, hgame, hversion, hauthor, hcomment, hlua, hstructures, hcomments, hentries,
    List.map_id, List.map_id, hkept]
  rfl

end Cecore.Table
