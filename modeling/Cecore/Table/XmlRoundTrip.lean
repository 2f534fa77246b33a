import Cecore.Table.XmlEntry
import Cecore.Table.XmlHierarchy

/-!
# Tables in XML, saved and loaded

Which entries come back as they were written (`roundTrips_iff`). An entry without a value of its own
takes the value of a hotkey for its own, because the reader looks for the first `<Value>` anywhere
in the entry.
-/

set_option autoImplicit false
set_option relaxedAutoImplicit false

namespace Cecore.Table

open Library Library.Markup

/-! ### What the writer emits -/

/-- A record with an address, a type and a value: neither a group nor a script. -/
def CheatEntry.IsData (e : CheatEntry) : Prop := e.isGroup = false ∧ e.autoAsmScript = []

instance (e : CheatEntry) : Decidable e.IsData := inferInstanceAs (Decidable (_ ∧ _))

/-- `e'` is `e` in every field that the writer emits for `e`, and it has no value, address, type or
length that it does not emit. -/
structure SameEmitted (e e' : CheatEntry) : Prop where
  id : e'.id = e.id
  parentId : e'.parentId = e.parentId
  description : e'.description = e.description
  isGroup : e'.isGroup = e.isGroup
  collapsed : e.isGroup = true → e'.collapsed = e.collapsed
  addressString : e.isGroup = false → e.addressString ≠ [] → e'.addressString = e.addressString
  address : e.IsData → e.addressString = [] → e'.address = e.address
  offsets : e.IsData → e'.offsets = e.offsets
  type : e.IsData → e'.type = e.type
  length : e.IsData → HasLength e → e'.length = e.length
  value : e.IsData → e'.value = e.value
  active : e'.active = e.active
  showAsHex : e'.showAsHex = e.showAsHex
  showAsSigned : e'.showAsSigned = e.showAsSigned
  freezeMode : e'.freezeMode = e.freezeMode
  autoAsmScript : e'.autoAsmScript = e.autoAsmScript
  luaScript : e'.luaScript = e.luaScript
  color : e'.color = e.color
  dropdownList : e'.dropdownList = e.dropdownList
  optionsXml : e.optionsXml ≠ [] → e'.optionsXml = e.optionsXml
  activateChildren : e.isGroup = true → e.optionsXml = [] →
    e'.activateChildren = e.activateChildren
  deactivateChildren : e.isGroup = true → e.optionsXml = [] →
    e'.deactivateChildren = e.deactivateChildren
  hotkeyKeys : e'.hotkeyKeys = e.hotkeyKeys
  increaseHotkeyKeys : e'.increaseHotkeyKeys = e.increaseHotkeyKeys
  decreaseHotkeyKeys : e'.decreaseHotkeyKeys = e.decreaseHotkeyKeys
  setValueHotkeyKeys : e'.setValueHotkeyKeys = e.setValueHotkeyKeys
  setValueHotkeyValue : e.setValueHotkeyKeys ≠ [] → e'.setValueHotkeyValue = e.setValueHotkeyValue
  hotkeyStep : e.increaseHotkeyKeys ≠ [] ∨ e.decreaseHotkeyKeys ≠ [] → e'.hotkeyStep = e.hotkeyStep
  no_address : ¬e.IsData → e.isGroup = true ∨ e.addressString = [] → e'.addressString = []
  no_offsets : ¬e.IsData → e'.offsets = []
  no_type : ¬e.IsData → e'.type = .int32
  no_length : ¬(e.IsData ∧ HasLength e) → e'.length = 0
  no_value : ¬e.IsData → e'.value = []

/-- The texts are as the claimed tables have them, and the numbers fit their types: the address
text, the colour and the options have no `<`, and hotkeys are canonical. -/
structure CheatEntry.Plain (e : CheatEntry) : Prop where
  addressString : '<' ∉ e.addressString
  color : '<' ∉ e.color
  optionsXml : '<' ∉ e.optionsXml
  hotkeyKeys : IsCanonical e.hotkeyKeys
  increaseHotkeyKeys : IsCanonical e.increaseHotkeyKeys
  decreaseHotkeyKeys : IsCanonical e.decreaseHotkeyKeys
  setValueHotkeyKeys : IsCanonical e.setValueHotkeyKeys
  address : e.address < sizeModulus
  length : e.length < 2 ^ 31
  offsets : ∀ off ∈ e.offsets, -(2 ^ 63) ≤ off ∧ off < 2 ^ 63

theorem CheatEntry.Plain.safe {e : CheatEntry} (h : e.Plain) : e.Safe :=
  ⟨h.addressString, h.color, wellFormed_verbatim h.optionsXml⟩

/-- The entries that come back: the type has a name of its own, no hotkey of an entry that is
written without a value has one, and there are no options without a tag. -/
structure CheatEntry.Survives (e : CheatEntry) : Prop where
  type : e.IsData → e.type ≠ .all ∧ e.type ≠ .grouped
  value : e.isGroup = false → e.autoAsmScript ≠ [] ∨ e.value = [] →
    ∀ hk ∈ hotkeysOf e, hk.value = []
  optionsXml : e.optionsXml = []

theorem firstValue_eq_nil {hks : List HkOut} : firstValue hks = [] ↔ ∀ hk ∈ hks, hk.value = [] := by
  induction hks with
  | nil => simp [firstValue]
  | cons hk hks ih =>
    rw [firstValue, List.forall_mem_cons]
    split_ifs with hvalue
    · rw [ih]
      exact ⟨fun h ↦ ⟨hvalue, h⟩, fun h ↦ h.2⟩
    · exact ⟨fun h ↦ absurd h hvalue, fun h ↦ absurd h.1 hvalue⟩

theorem typeRead_eq_iff {type : ValueType} :
    typeRead type = type ↔ type ≠ .all ∧ type ≠ .grouped := by
  cases type <;> decide

/-! ### One entry -/

section Entry

variable {e : CheatEntry} (h : e.Plain) (hasChildren : Bool)

include h

/-- The value that is read of an entry that is no group. -/
theorem value_readEntry (hgroup : e.isGroup = false) (parentId : ℤ) :
    (readEntry (render (ownPieces e hasChildren)) parentId).value =
      if e.autoAsmScript ≠ [] ∨ e.value = [] then firstValue (hotkeysOf e) else e.value := by
  by_cases hscript : e.autoAsmScript = []
  · obtain ⟨-, -, -, -, hvalue, -⟩ := readEntry_ofData h.safe hasChildren parentId hgroup hscript
      h.address h.length h.offsets
    rw [hvalue]
    by_cases hnil : e.value = []
    · rw [if_pos hnil, if_pos (Or.inr hnil)]
    · rw [if_neg hnil, if_neg (by simp [hscript, hnil])]
  · obtain ⟨-, -, -, hvalue, -⟩ := readEntry_ofScript h.safe hasChildren parentId hgroup hscript
    rw [hvalue, if_pos (Or.inl hscript)]

theorem survives_of_sameEmitted
    (hsame : SameEmitted e (readEntry (render (ownPieces e hasChildren)) e.parentId)) :
    e.Survives where
  type hdata := by
    obtain ⟨-, -, -, htype, -⟩ := readEntry_ofData h.safe hasChildren e.parentId hdata.1 hdata.2
      h.address h.length h.offsets
    exact typeRead_eq_iff.mp (htype.symm.trans (hsame.type hdata))
  value hgroup hnone := by
    have hread := value_readEntry h hasChildren hgroup e.parentId
    rw [if_pos hnone] at hread
    refine firstValue_eq_nil.mp (hread.symm.trans ?_)
    by_cases hdata : e.IsData
    · rw [hsame.value hdata]
      exact hnone.resolve_left (not_not.mpr hdata.2)
    · exact hsame.no_value hdata
  optionsXml := by
    by_contra hoptions
    obtain ⟨hread, -⟩ := (readEntry_options h.safe hasChildren e.parentId).1 h.optionsXml
      fun hnil ↦ absurd hnil hoptions
    exact hoptions ((hsame.optionsXml hoptions).symm.trans hread)

/-- What is read of the data agrees for every kind of entry. -/
theorem data_of_survives (hsurvives : e.Survives) :
    let e' := readEntry (render (ownPieces e hasChildren)) e.parentId
    (e.isGroup = true → e'.collapsed = e.collapsed) ∧
    (e.isGroup = false → e.addressString ≠ [] → e'.addressString = e.addressString) ∧
    (e.IsData → (e.addressString = [] → e'.address = e.address) ∧ e'.offsets = e.offsets ∧
      e'.type = e.type ∧ e'.value = e.value ∧ (HasLength e → e'.length = e.length)) ∧
    (¬e.IsData → (e.isGroup = true ∨ e.addressString = [] → e'.addressString = []) ∧
      e'.offsets = [] ∧ e'.type = .int32 ∧ e'.value = []) ∧
    (¬(e.IsData ∧ HasLength e) → e'.length = 0) := by
  cases hgroup : e.isGroup with
  | true =>
    obtain ⟨-, haddressString, hoffsets, htype, hvalue, hlength, hcollapsed⟩ :=
      readEntry_ofGroup h.safe hasChildren e.parentId hgroup
    refine ⟨fun _ ↦ hcollapsed, fun hfalse ↦ absurd hfalse (by decide), fun hdata ↦ ?_,
      fun _ ↦ ⟨fun _ ↦ haddressString, hoffsets, htype, hvalue⟩, fun _ ↦ hlength⟩
    exact absurd (hgroup.symm.trans hdata.1) (by decide)
  | false =>
    have hvalue := value_readEntry h hasChildren hgroup e.parentId
    by_cases hscript : e.autoAsmScript = []
    · have hdata : e.IsData := ⟨hgroup, hscript⟩
      obtain ⟨haddressString, haddress, hoffsets, htype, -, hlength⟩ :=
        readEntry_ofData h.safe hasChildren e.parentId hgroup hscript h.address h.length h.offsets
      have hvalueEq : (readEntry (render (ownPieces e hasChildren)) e.parentId).value = e.value := by
        rw [hvalue]
        split_ifs with hnone
        · rw [firstValue_eq_nil.mpr (hsurvives.value hgroup hnone)]
          exact (hnone.resolve_left (not_not.mpr hscript)).symm
        · rfl
      refine ⟨fun hfalse ↦ absurd hfalse (by decide), fun _ hne ↦ ?_, fun _ ↦ ⟨haddress, hoffsets, ?_,
        hvalueEq, fun hhas ↦ ?_⟩, fun hnot ↦ absurd hdata hnot, fun hnot ↦ ?_⟩
      · rw [haddressString, if_neg hne]
      · exact htype.trans (typeRead_eq_iff.mpr (hsurvives.type hdata))
      · rw [hlength, if_pos hhas]
      · rw [hlength, if_neg fun hhas ↦ hnot ⟨hdata, hhas⟩]
    · obtain ⟨haddressString, hoffsets, htype, -, hlength⟩ :=
        readEntry_ofScript h.safe hasChildren e.parentId hgroup hscript
      refine ⟨fun hfalse ↦ absurd hfalse (by decide), fun _ _ ↦ haddressString,
        fun hdata ↦ absurd hdata.2 hscript, fun _ ↦ ⟨fun hnone ↦ ?_, hoffsets, htype, ?_⟩,
        fun _ ↦ hlength⟩
      · exact haddressString.trans (hnone.resolve_left (by decide))
      · rw [hvalue, if_pos (Or.inl hscript)]
        exact firstValue_eq_nil.mpr (hsurvives.value hgroup (Or.inl hscript))

theorem sameEmitted_of_survives (hsurvives : e.Survives) :
    SameEmitted e (readEntry (render (ownPieces e hasChildren)) e.parentId) := by
  obtain ⟨hid, hparent⟩ := readEntry_ownPieces h.safe hasChildren e.parentId
  obtain ⟨hdescription, hactive, hhex, hsigned, hfreeze, hscript, hlua, hcolor, hdrop⟩ :=
    readEntry_common h.safe hasChildren e.parentId
  obtain ⟨hkeys, hinc, hdec, hset, hsetValue, hstep⟩ :=
    readEntry_hotkeys h.safe hasChildren e.parentId
  obtain ⟨hcollapsed, haddressString, hdata, hother, hlength⟩ :=
    data_of_survives h hasChildren hsurvives
  have hcascade : e.isGroup = true →
      (readEntry (render (ownPieces e hasChildren)) e.parentId).activateChildren =
        e.activateChildren ∧
      (readEntry (render (ownPieces e hasChildren)) e.parentId).deactivateChildren =
        e.deactivateChildren := by
    intro hgroup
    obtain ⟨hdefault, hwritten⟩ := readEntry_options h.safe hasChildren e.parentId
    by_cases hflags : e.activateChildren ∧ e.deactivateChildren
    · obtain ⟨-, hactivate, hdeactivate⟩ := hdefault h.optionsXml fun _ _ ↦ hflags
      exact ⟨hactivate.trans hflags.1.symm, hdeactivate.trans hflags.2.symm⟩
    · exact (hwritten hsurvives.optionsXml hgroup hflags).2
  refine {
    id := hid, parentId := hparent, description := hdescription
    isGroup := readEntry_isGroup h.safe hasChildren e.parentId
    collapsed := hcollapsed, addressString := haddressString
    address := fun hd ↦ (hdata hd).1
    offsets := fun hd ↦ (hdata hd).2.1
    type := fun hd ↦ (hdata hd).2.2.1
    value := fun hd ↦ (hdata hd).2.2.2.1
    length := fun hd ↦ (hdata hd).2.2.2.2
    active := hactive, showAsHex := hhex, showAsSigned := hsigned, freezeMode := hfreeze
    autoAsmScript := hscript, luaScript := hlua, color := hcolor, dropdownList := hdrop
    optionsXml := fun hne ↦ absurd hsurvives.optionsXml hne
    activateChildren := fun hgroup _ ↦ (hcascade hgroup).1
    deactivateChildren := fun hgroup _ ↦ (hcascade hgroup).2
    hotkeyKeys := hkeys.trans (vksToKeyString_keyStringToVKs h.hotkeyKeys)
    increaseHotkeyKeys := hinc.trans (vksToKeyString_keyStringToVKs h.increaseHotkeyKeys)
    decreaseHotkeyKeys := hdec.trans (vksToKeyString_keyStringToVKs h.decreaseHotkeyKeys)
    setValueHotkeyKeys := hset.trans (vksToKeyString_keyStringToVKs h.setValueHotkeyKeys)
    setValueHotkeyValue := fun hne ↦ ?_
    hotkeyStep := fun hne ↦ ?_
    no_address := fun hd ↦ (hother hd).1
    no_offsets := fun hd ↦ (hother hd).2.1
    no_type := fun hd ↦ (hother hd).2.2.1
    no_value := fun hd ↦ (hother hd).2.2.2
    no_length := hlength }
  · rw [hsetValue, if_neg hne]
  · rw [hstep, if_neg fun hnone ↦ hne.elim (fun hinc ↦ hinc hnone.1)
      fun hdec ↦ hdec hnone.2]

end Entry

/-! ### Tables -/

/-- Saving and loading gives entries with the ids of the table's, each the same in everything that
is written of it. -/
def RoundTrips (t : CheatTable) : Prop :=
  ∃ xml loaded, save t = some xml ∧ loadFromString xml = some loaded ∧
    (loaded.entries.map (·.id)).Perm (t.entries.map (·.id)) ∧
    ∀ e ∈ t.entries, ∀ e' ∈ loaded.entries, e'.id = e.id → SameEmitted e e'

/-- A forest of entries comes back exactly when every entry does. -/
theorem roundTrips_iff {t : CheatTable} (hforest : IsForest t.entries)
    (hplain : ∀ e ∈ t.entries, e.Plain) :
    RoundTrips t ↔ ∀ e ∈ t.entries, e.Survives := by
  have hsafe : ∀ e ∈ t.entries, e.Safe := fun e he ↦ (hplain e he).safe
  obtain ⟨loaded, forest, hsave, hload, hentries, -, hperm⟩ := save_load_forest hforest hsafe
  have hlabels : ∀ i ∈ forest.labels, i < t.entries.length := fun i hi ↦
    List.mem_range.mp (hperm.mem_iff.mp hi)
  constructor
  · rintro ⟨xml, loaded', hsave', hload', -, hsame⟩ e he
    obtain rfl := Option.some.inj (hsave.symm.trans hsave')
    obtain rfl := Option.some.inj (hload.symm.trans hload')
    obtain ⟨i, hi, rfl⟩ := exists_entryAt he
    have hmem : loadedEntry t.entries i ∈ loaded.entries := by
      rw [hentries]
      exact List.mem_map_of_mem (hperm.mem_iff.mpr (List.mem_range.mpr hi))
    exact survives_of_sameEmitted (hplain _ he) _
      (hsame _ he _ hmem (loadedEntry_id_parentId hsafe hi).1)
  · intro hsurvives
    refine ⟨_, loaded, hsave, hload, ?_, ?_⟩
    · have hids : loaded.entries.map (·.id) = forest.labels.map fun i ↦ (entryAt t.entries i).id := by
        rw [hentries, List.map_map]
        exact List.map_congr_left fun i hi ↦ (loadedEntry_id_parentId hsafe (hlabels i hi)).1
      have hown : t.entries.map (·.id) =
          (List.range t.entries.length).map fun i ↦ (entryAt t.entries i).id := by
        refine List.ext_getElem (by simp) fun i hi _ ↦ ?_
        rw [List.getElem_map, List.getElem_map, List.getElem_range, entryAt_eq]
      rw [hids, hown]
      exact hperm.map _
    · intro e he e' he' hid
      rw [hentries] at he'
      obtain ⟨i, hi, rfl⟩ := List.mem_map.mp he'
      obtain ⟨j, hj, rfl⟩ := exists_entryAt he
      have hi' := hlabels i hi
      rw [(loadedEntry_id_parentId hsafe hi').1] at hid
      obtain rfl := hforest.id_injective hi' hj hid
      exact sameEmitted_of_survives (hplain _ he) _ (hsurvives _ he)

/-- An entry with a hotkey that increases its value by five. -/
def steppedTable (value : Text) : CheatTable where
  entries := [{ id := 1, value := value, increaseHotkeyKeys := "Ctrl+F1".toList, hotkeyStep := ['5'] }]

theorem isForest_steppedTable (value : Text) : IsForest (steppedTable value).entries where
  ids_nodup := List.nodup_singleton _
  ids_ne_zero := List.forall_mem_singleton.mpr one_ne_zero
  parent_mem := List.forall_mem_singleton.mpr (Or.inl rfl)
  wellFounded := wellFounded_of_lt fun _ _ _ he hchild ↦
    absurd (congrArg CheatEntry.parentId (List.mem_singleton.mp he)) hchild

theorem isCanonical_nil : IsCanonical [] :=
  ⟨false, false, false, false, none, by decide, rfl⟩

theorem plain_steppedTable (value : Text) : ∀ e ∈ (steppedTable value).entries, e.Plain := by
  refine List.forall_mem_singleton.mpr ?_
  exact {
    addressString := List.not_mem_nil, color := List.not_mem_nil, optionsXml := List.not_mem_nil
    hotkeyKeys := isCanonical_nil, decreaseHotkeyKeys := isCanonical_nil
    setValueHotkeyKeys := isCanonical_nil
    increaseHotkeyKeys := ⟨true, false, false, false, some "F1".toList, by decide,
      (by decide : "Ctrl+F1".toList =
        ['+'].intercalate (chordTokens true false false false (some "F1".toList)))⟩
    address := (by decide : 0 < sizeModulus), length := (by decide : (0 : ℤ) < 2 ^ 31)
    offsets := List.forall_mem_nil _ }

theorem roundTrips_steppedTable : RoundTrips (steppedTable ['7']) :=
  (roundTrips_iff (isForest_steppedTable _) (plain_steppedTable _)).mpr
    (List.forall_mem_singleton.mpr
      ⟨by decide, fun _ hnone ↦ absurd hnone (by decide), rfl⟩)

/-- An entry with an empty value comes back with the step of its hotkey for a value. -/
theorem steppedTable_gains_value : IsForest (steppedTable []).entries ∧
    (∀ e ∈ (steppedTable []).entries, e.Plain) ∧ ¬RoundTrips (steppedTable []) := by
  refine ⟨isForest_steppedTable [], plain_steppedTable [], ?_⟩
  rintro ⟨xml, loaded, hsave, hload, -, hsame⟩
  have hread : ((save (steppedTable [])).bind loadFromString).map
      (fun loaded ↦ loaded.entries.map fun e ↦ (e.id, e.value)) = some [(1, ['5'])] := by
    decide +kernel
  rw [hsave, Option.bind_some, hload, Option.map_some] at hread
  have hmem : (1, ['5']) ∈ loaded.entries.map fun e ↦ (e.id, e.value) := by
    rw [Option.some.inj hread]
    exact List.mem_cons_self
  obtain ⟨e', he', heq⟩ := List.mem_map.mp hmem
  have hvalue := (hsame _ List.mem_cons_self e' he' (congrArg Prod.fst heq)).value ⟨rfl, rfl⟩
  exact absurd ((congrArg Prod.snd heq).symm.trans hvalue) (by decide)

end Cecore.Table
