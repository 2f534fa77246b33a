import Cecore.Table.Protected
import Cecore.Table.XmlEntry
import Cecore.Table.XmlHierarchy

/-!
# The two forms of a table

What loading the JSON form of a table and loading its XML form say about where an entry is. The JSON
form has no member for an address text, for offsets and for a length, so the forms agree only on
scripts (`formatsAgree_iff`).
-/

set_option autoImplicit false
set_option relaxedAutoImplicit false

namespace Cecore.Table

open Library Library.Markup

/-! ### The entries of the JSON form -/

/-- The numbers of a table are in the range of their types. -/
structure CheatTable.InRange (t : CheatTable) : Prop where
  entries : ∀ e ∈ t.entries, e.InRange
  structures : ∀ s ∈ t.structures, s.size < sizeModulus ∧
    ∀ field ∈ s.fields, field.offset < sizeModulus ∧ field.size < sizeModulus

/-- Texts that are read one by one, whatever the values are. -/
theorem exists_forall₂_reads {levels : ℕ} {items : List Text}
    (h : ∀ item ∈ items, ∃ value, Reads levels item value) :
    ∃ values, List.Forall₂ (Reads levels) items values := by
  induction items with
  | nil => exact ⟨[], .nil⟩
  | cons item items ih =>
    obtain ⟨⟨value, hvalue⟩, hothers⟩ := List.forall_mem_cons.mp h
    obtain ⟨values, hvalues⟩ := ih hothers
    exact ⟨value :: values, .cons hvalue hvalues⟩

theorem exists_forall₂_readsMember {levels : ℕ} {members : List (String × Text)}
    (h : ∀ member ∈ members, ∃ value, Reads levels member.2 value) :
    ∃ fields, List.Forall₂ (ReadsMember levels) members fields := by
  induction members with
  | nil => exact ⟨[], .nil⟩
  | cons member members ih =>
    obtain ⟨⟨value, hvalue⟩, hothers⟩ := List.forall_mem_cons.mp h
    obtain ⟨fields, hfields⟩ := ih hothers
    exact ⟨(member.1.toList, value) :: fields, .cons ⟨rfl, hvalue⟩ hfields⟩

/-- A size is read as some number. -/
theorem exists_reads_size (levels : ℕ) {n : ℕ} (h : n < sizeModulus) :
    ∃ value, Reads (levels + 1) (printInt n) value :=
  ⟨_, reads_rounded levels (doubleRange_of_size h)⟩

theorem exists_reads_compact (levels : ℕ) {members : Members}
    (h : ∀ member ∈ members, ∃ value, Reads (levels + 1) member.2.render value) :
    ∃ value, Reads (levels + 2) (compact members) value := by
  have hwritten : ∀ written ∈ members.map fun member ↦ (member.1, member.2.render),
      ∃ value, Reads (levels + 1) written.2 value := by
    intro written hwritten
    obtain ⟨member, hmember, rfl⟩ := List.mem_map.mp hwritten
    exact h member hmember
  obtain ⟨fields, hfields⟩ := exists_forall₂_readsMember hwritten
  exact ⟨_, reads_objectText blank_nil blank_nil blank_nil hfields⟩

theorem exists_reads_memberIf {levels : ℕ} {present : Bool} {name : String} {value : Scalar}
    (h : ∃ v, Reads levels value.render v) :
    ∀ member ∈ memberIf present name value, ∃ v, Reads levels member.2.render v := by
  intro member hmember
  cases present
  · cases hmember
  · obtain rfl := List.mem_singleton.mp hmember
    exact h

theorem exists_reads_structureText (levels : ℕ) {s : StructureDefinition} (hsize : s.size < sizeModulus)
    (hfields : ∀ field ∈ s.fields, field.offset < sizeModulus ∧ field.size < sizeModulus) :
    ∃ value, Reads (levels + 4) (structureText s) value := by
  have hfield : ∀ written ∈ s.fields.map fun field ↦ compact (structureFieldMembers field),
      ∃ value, Reads (levels + 2) written value := by
    intro written hwritten
    obtain ⟨field, hmem, rfl⟩ := List.mem_map.mp hwritten
    obtain ⟨hoffset, hfieldSize⟩ := hfields field hmem
    refine exists_reads_compact levels ?_
    unfold structureFieldMembers
    simp only [List.forall_mem_append, List.forall_mem_cons]
    refine ⟨⟨⟨⟨_, reads_quoted levels _⟩, exists_reads_size levels hoffset,
      ⟨_, reads_scalar levels (exact_type field.type)⟩, exists_reads_size levels hfieldSize,
      List.forall_mem_nil _⟩, ?_⟩, ?_⟩
    · exact exists_reads_memberIf ⟨_, reads_quoted levels _⟩
    · exact exists_reads_memberIf ⟨_, reads_quoted levels _⟩
  obtain ⟨values, hvalues⟩ := exists_forall₂_reads hfield
  have hdecimal : decimal s.size = printInt s.size := by
    rw [printInt, if_neg (Int.not_lt.mpr (Int.natCast_nonneg _)), Int.natAbs_natCast]
  obtain ⟨size, hsize⟩ := exists_reads_size (levels + 2) hsize
  have harray : Reads (levels + 3)
      (arrayText [] [] (s.fields.map fun field ↦ compact (structureFieldMembers field)))
      (.array values) := reads_arrayText blank_nil blank_nil hvalues
  refine ⟨.object [("name".toList, .string s.name), ("size".toList, size),
    ("fields".toList, .array values)], reads_objectText blank_nil blank_nil blank_nil
      (.cons ⟨rfl, reads_quoted _ s.name⟩ (.cons ⟨rfl, ?_⟩ (.cons ⟨rfl, harray⟩ .nil)))⟩
  rw [hdecimal]
  exact hsize

/-- Loading the JSON form of a table gives its entries, as far as they are written. -/
theorem entries_loadJson_saveJson (self : CheatTable) {t : CheatTable} (h : t.InRange) :
    ∃ loaded, loadJson self (saveJson t) = some loaded ∧
      loaded.entries = t.entries.map CheatEntry.jsonView := by
  have hstructure : ∀ written ∈ t.structures.map structureText, ∃ value, Reads 126 written value := by
    intro written hwritten
    obtain ⟨s, hs, rfl⟩ := List.mem_map.mp hwritten
    exact exists_reads_structureText 122 (h.structures s hs).1 (h.structures s hs).2
  obtain ⟨values, hvalues⟩ := exists_forall₂_reads hstructure
  have hparse := parseJson_document h.entries (reads_arrayText (by decide) (by decide) hvalues)
  have hfield : getField (documentObject t (.array values)) "entries" =
      some (.array (t.entries.map fun e ↦ objectOf (entryMembers e))) := by
    simp only [documentObject, getField_field, String.reduceEq, if_false, if_true]
  have hback : ∀ e ∈ t.entries, entryOfJson (objectOf (entryMembers e)) = e.jsonView := fun e he ↦
    entryOfJson_entryMembers (h.entries e he).2.2
  have hread := jsonObjects_map hfield (fun e ↦ ⟨_, rfl⟩) hback
  unfold loadJson
  rw [hparse]
  exact ⟨_, rfl, hread⟩

/-! ### The entries of the XML form -/

/-- Every entry of a written forest is read from its own text. -/
theorem forall₂_loadedForest (entries : List CheatEntry) (forest : Forest ℕ) (parentId : ℤ) :
    List.Forall₂ (fun i x ↦ ∃ parentId, x = readEntry (render (ownPieces (entryAt entries i)
      (!(childIndices entries i).isEmpty))) parentId) forest.labels
      (loadedForest entries parentId forest) := by
  induction forest generalizing parentId with
  | nil => exact .nil
  | cons i children others ihChildren ihOthers =>
    rw [Forest.labels, loadedForest]
    exact .cons ⟨parentId, rfl⟩ (List.rel_append (ihChildren _) (ihOthers _))

/-! ### Agreement -/

/-- Two records of one entry say the same of where and what it is. -/
structure SameRecord (json xml : CheatEntry) : Prop where
  addressString : json.addressString = xml.addressString
  offsets : json.offsets = xml.offsets
  type : json.type = xml.type
  length : json.length = xml.length
  value : json.value = xml.value

/-- The tables loaded from two forms of `t` have the same records of every entry that is no group,
the entries of the XML form in the order of the written hierarchy. -/
def SameRecords (t : CheatTable) (written : Forest ℕ) (json xml : CheatTable) : Prop :=
  List.Forall₂ (fun i x ↦ (entryAt t.entries i).isGroup = false →
    SameRecord (entryAt json.entries i) x) written.labels xml.entries

/-- The JSON form and the protected form, under any password and within the size that it may have,
give the same records as the XML form. -/
def FormatsAgree (t : CheatTable) : Prop :=
  ∃ written xml json, save t = some (documentText t written) ∧
    written.Follows (childIndices t.entries) ∧
    written.labels.Perm (List.range t.entries.length) ∧
    loadFromString (documentText t written) = some xml ∧
    loadJson {} (saveJson t) = some json ∧ SameRecords t written json xml ∧
    ∀ password, (saveProtected t password).length ≤ kMaxProtectedSize →
      ∃ loaded, loadProtected {} password (saveProtected t password) = some loaded ∧
        SameRecords t written loaded xml

/-- The entries whose two forms agree: groups, and scripts that have no address text and whose type
and value are those that the XML form gives a script. -/
def CheatEntry.FormatFree (e : CheatEntry) : Prop :=
  e.isGroup = true ∨ (e.autoAsmScript ≠ [] ∧ e.addressString = [] ∧ e.type = .int32 ∧
    e.value = firstValue (hotkeysOf e))

instance (e : CheatEntry) : Decidable e.FormatFree := inferInstanceAs (Decidable (_ ∨ _))

theorem sameRecord_iff {e : CheatEntry} (hsafe : e.Safe) (hasChildren : Bool) (parentId : ℤ)
    (hgroup : e.isGroup = false) :
    SameRecord e.jsonView (readEntry (render (ownPieces e hasChildren)) parentId) ↔ e.FormatFree := by
  have hview : e.jsonView.type = e.type ∧ e.jsonView.value = e.value := by
    simp [CheatEntry.jsonView, hgroup]
  have hgroupFalse : ¬e.isGroup = true := by simp [hgroup]
  by_cases hscript : e.autoAsmScript = []
  · -- the address text that is read of a data record is never empty
    have hread := readEntry_addressString_ofData hsafe hasChildren parentId hgroup hscript
    constructor
    · intro hsame
      have hempty := hsame.addressString.symm.trans (rfl : e.jsonView.addressString = [])
      rw [hread] at hempty
      split_ifs at hempty with haddress
      · exact absurd hempty (toDigits_ne_nil (by decide) (by decide) _)
      · exact absurd hempty haddress
    · rintro (htrue | ⟨hne, -⟩)
      · exact absurd htrue hgroupFalse
      · exact absurd hscript hne
  · obtain ⟨haddress, hoffsets, htype, hvalue, hlength⟩ :=
      readEntry_ofScript hsafe hasChildren parentId hgroup hscript
    constructor
    · intro hsame
      refine Or.inr ⟨hscript, ?_, ?_, ?_⟩
      · exact haddress.symm.trans (hsame.addressString.symm.trans rfl)
      · exact hview.1.symm.trans (hsame.type.trans htype)
      · exact hview.2.symm.trans (hsame.value.trans hvalue)
    · rintro (htrue | ⟨-, hnone, hint, hown⟩)
      · exact absurd htrue hgroupFalse
      · exact ⟨hnone.symm.trans haddress.symm, hoffsets.symm,
          hview.1.trans (hint.trans htype.symm), hlength.symm, hview.2.trans (hown.trans hvalue.symm)⟩

theorem entryAt_map {entries : List CheatEntry} (f : CheatEntry → CheatEntry) {i : ℕ}
    (hi : i < entries.length) : entryAt (entries.map f) i = f (entryAt entries i) := by
  rw [entryAt_eq (by rwa [List.length_map]), List.getElem_map, entryAt_eq hi]

/-- The records of a written hierarchy agree where its entries do. -/
theorem sameRecords_iff {t json xml : CheatTable} {written : Forest ℕ}
    (hsafe : ∀ e ∈ t.entries, e.Safe) (hfollows : written.Follows (childIndices t.entries))
    (hperm : written.labels.Perm (List.range t.entries.length))
    (hxml : loadFromString (documentText t written) = some xml)
    (hjson : json.entries = t.entries.map CheatEntry.jsonView) :
    SameRecords t written json xml ↔ ∀ e ∈ t.entries, e.FormatFree := by
  have hlabel : ∀ i ∈ written.labels, i < t.entries.length := fun i hi ↦
    List.mem_range.mp (hperm.mem_iff.mp hi)
  have hsafeForest : SafeForest t.entries written := fun i hi ↦
    hsafe _ (entryAt_mem (hlabel i hi))
  obtain ⟨loaded, hloaded, hentries⟩ := loadFromString_documentText hsafeForest hfollows
  obtain rfl := Option.some.inj (hloaded.symm.trans hxml)
  have hread := forall₂_loadedForest t.entries written (-1)
  rw [← hentries] at hread
  obtain ⟨hlength, hzip⟩ := List.forall₂_iff_zip.mp hread
  constructor
  · intro hsame e he
    by_cases hgroup : e.isGroup = true
    · exact Or.inl hgroup
    · have hgroupFalse := Bool.eq_false_iff.mpr hgroup
      obtain ⟨i, hi, rfl⟩ := exists_entryAt he
      obtain ⟨k, hk, hki⟩ := List.mem_iff_getElem.mp (hperm.mem_iff.mpr (List.mem_range.mpr hi))
      have hkx : k < loaded.entries.length := hlength ▸ hk
      have hpair : (i, loaded.entries[k]) ∈ written.labels.zip loaded.entries := by
        rw [← hki, ← List.getElem_zip (h := by rw [List.length_zip]; omega)]
        exact List.getElem_mem _
      obtain ⟨parentId, hx⟩ := hzip hpair
      have hrecord := (List.forall₂_iff_zip.mp hsame).2 hpair hgroupFalse
      rw [hjson, entryAt_map _ hi, hx] at hrecord
      exact (sameRecord_iff (hsafe _ he) _ parentId hgroupFalse).mp hrecord
  · intro hfree
    refine List.forall₂_iff_zip.mpr ⟨hlength, fun {i x} hpair hgroup ↦ ?_⟩
    have hi := hlabel i (List.of_mem_zip hpair).1
    obtain ⟨parentId, hx⟩ := hzip hpair
    rw [hjson, entryAt_map _ hi, hx]
    exact (sameRecord_iff (hsafe _ (entryAt_mem hi)) _ parentId hgroup).mpr
      (hfree _ (entryAt_mem hi))

/-- The forms of a table agree exactly when it has only groups and scripts without an address. -/
theorem formatsAgree_iff {t : CheatTable} (hrange : t.InRange) (hbytes : ∀ s ∈ t.texts, IsBytes s)
    (hsafe : ∀ e ∈ t.entries, e.Safe) :
    FormatsAgree t ↔ ∀ e ∈ t.entries, e.FormatFree := by
  obtain ⟨json, hjson, hentries⟩ := entries_loadJson_saveJson {} hrange
  constructor
  · rintro ⟨written, xml, json', -, hfollows, hperm, hxml, hjson', hsame, -⟩
    obtain rfl := Option.some.inj (hjson.symm.trans hjson')
    exact (sameRecords_iff hsafe hfollows hperm hxml hentries).mp hsame
  · intro hfree
    obtain ⟨written, seen, hsearch, hpieces, hperm⟩ := entriesPieces_eq t.entries
    have hfollows := (searchAll_spec hsearch).follows
    have hsafeForest : SafeForest t.entries written := fun i hi ↦
      hsafe _ (entryAt_mem (List.mem_range.mp (hperm.mem_iff.mp hi)))
    obtain ⟨xml, hxml, -⟩ := loadFromString_documentText hsafeForest hfollows
    have hsame := (sameRecords_iff hsafe hfollows hperm hxml hentries).mpr hfree
    have hsave : save t = some (documentText t written) := by
      rw [save, hpieces]
      rfl
    refine ⟨written, xml, json, hsave, hfollows, hperm, hxml, hjson, hsame, fun password hsize ↦
      ⟨json, ?_, hsame⟩⟩
    rw [loadProtected_eq {} t password (isBytes_saveJson hbytes), if_neg (Nat.not_lt.mpr hsize), hjson]

/-- A group and a script in it. -/
def scriptedTable : CheatTable where
  entries := [{ id := 1, isGroup := true, description := "cheats".toList },
    { id := 2, parentId := 1, autoAsmScript := "[ENABLE]\n[DISABLE]".toList }]

theorem formatsAgree_scriptedTable : FormatsAgree scriptedTable := by
  have hplain : ∀ e ∈ scriptedTable.entries,
      e.addressString = [] ∧ e.color = [] ∧ e.optionsXml = [] := by decide
  refine (formatsAgree_iff ⟨by decide, List.forall_mem_nil _⟩ (by decide) fun e he ↦ ?_).mpr (by decide)
  obtain ⟨haddress, hcolor, hoptions⟩ := hplain e he
  exact ⟨by simp [haddress], by simp [hcolor], wellFormed_verbatim (by simp [hoptions])⟩

/-- A pointer: a module-relative base and an offset. -/
def pointerTable : CheatTable where
  entries := [{ id := 1, addressString := "game.exe+10".toList, offsets := [8] }]

/-- The JSON form loses the way to the address of a pointer. -/
theorem pointerTable_loses_address : ¬FormatsAgree pointerTable := by
  rintro ⟨written, xml, json, -, hfollows, hperm, hxml, hjson, hsame, -⟩
  have hplain : ∀ e ∈ pointerTable.entries,
      '<' ∉ e.addressString ∧ e.color = [] ∧ e.optionsXml = [] := by decide
  have hsafe : ∀ e ∈ pointerTable.entries, e.Safe := fun e he ↦
    ⟨(hplain e he).1, by simp [(hplain e he).2.1], wellFormed_verbatim (by simp [(hplain e he).2.2])⟩
  obtain ⟨json', hjson', hentries⟩ :=
    entries_loadJson_saveJson {} (t := pointerTable) ⟨by decide, List.forall_mem_nil _⟩
  obtain rfl := Option.some.inj (hjson.symm.trans hjson')
  have hfree := (sameRecords_iff hsafe hfollows hperm hxml hentries).mp hsame
  exact absurd (hfree _ List.mem_cons_self) (by decide)

end Cecore.Table
