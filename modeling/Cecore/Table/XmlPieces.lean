import Cecore.Table.XmlSave
import Cecore.Table.XmlTags

/-!
# The written pieces

The pieces that `save` writes are well formed where the texts that are written as they are have no
tags in them, and which tags a part of them has.
-/

set_option autoImplicit false
set_option relaxedAutoImplicit false

namespace Cecore.Table

open Library.Markup

/-! ### Texts without tags -/

theorem not_mem_spaces {c : Char} (hc : c ≠ ' ') (count : ℕ) : c ∉ spaces count := fun h ↦
  hc (List.eq_of_mem_replicate h)

theorem lt_not_mem_toDigits {base : ℕ} (hbase : 1 < base) (hmax : base ≤ 16) (n : ℕ) :
    '<' ∉ Nat.toDigits base n := by
  intro h
  obtain ⟨d, hd, heq⟩ := isNumeral_of_mem hbase hmax h
  revert heq
  interval_cases d <;> decide

theorem lt_not_mem_printInt (n : ℤ) : '<' ∉ printInt n := by
  have hdigits : '<' ∉ decimal n.natAbs := lt_not_mem_toDigits (by decide) (by decide) _
  unfold printInt
  split_ifs
  · rw [List.mem_cons, not_or]
    exact ⟨by decide, hdigits⟩
  · exact hdigits

theorem lt_not_mem_xmlEscape (s : Text) : '<' ∉ xmlEscape s := by
  intro h
  obtain ⟨c, -, hc⟩ := List.mem_flatMap.mp h
  unfold xmlEscapeChar at hc
  split_ifs at hc with hamp hlt hgt hquote
  · exact absurd hc (by decide)
  · exact absurd hc (by decide)
  · exact absurd hc (by decide)
  · exact absurd hc (by decide)
  · exact hlt (List.mem_singleton.mp hc).symm

theorem lt_not_mem_typeToStr (type : ValueType) : '<' ∉ typeToStr type := by
  cases type <;> decide

/-! ### Well-formed parts -/

theorem wellFormed_append {first second : List Piece} (hfirst : WellFormed first)
    (hsecond : WellFormed second) : WellFormed (first ++ second) :=
  List.forall_mem_append.mpr ⟨hfirst, hsecond⟩

theorem wellFormed_flatMap {α : Type} {items : List α} {pieces : α → List Piece}
    (h : ∀ item ∈ items, WellFormed (pieces item)) : WellFormed (items.flatMap pieces) := by
  intro piece hpiece
  obtain ⟨item, hitem, hmem⟩ := List.mem_flatMap.mp hpiece
  exact h item hitem piece hmem

theorem wellFormed_newline : (Piece.text ['\n']).WellFormed := by
  change '<' ∉ ['\n']
  decide

theorem wellFormed_leaf {indent : ℕ} {name : String} {text : Text} (hname : PlainName name)
    (htext : '<' ∉ text) : WellFormed (leaf indent name text) := by
  intro piece hpiece
  simp only [leaf, List.mem_cons, List.not_mem_nil, or_false] at hpiece
  rcases hpiece with rfl | rfl | rfl | rfl | rfl
  · exact not_mem_spaces (by decide) indent
  · exact hname
  · exact htext
  · exact hname
  · exact wellFormed_newline

theorem wellFormed_leafIf {present : Bool} {indent : ℕ} {name : String} {text : Text}
    (hname : PlainName name) (htext : '<' ∉ text) : WellFormed (leafIf present indent name text) := by
  cases present
  · exact List.forall_mem_nil _
  · exact wellFormed_leaf hname htext

theorem wellFormed_leafUnlessEmpty {indent : ℕ} {name : String} (text : Text)
    (hname : PlainName name) : WellFormed (leafUnlessEmpty indent name text) :=
  wellFormed_leafIf hname (lt_not_mem_xmlEscape text)

theorem wellFormed_tagLine {indent : ℕ} {tag : Piece} (htag : tag.WellFormed) :
    WellFormed (tagLine indent tag) := by
  intro piece hpiece
  simp only [tagLine, List.mem_cons, List.not_mem_nil, or_false] at hpiece
  rcases hpiece with rfl | rfl | rfl
  · exact not_mem_spaces (by decide) indent
  · exact htag
  · exact wellFormed_newline

theorem wellFormed_block {indent : ℕ} {name : String} {lines : List Piece} (hname : PlainName name)
    (hlines : WellFormed lines) : WellFormed (block indent name lines) :=
  have hclosing : (Piece.closing name).WellFormed := hname
  wellFormed_append (wellFormed_append (wellFormed_tagLine hname) hlines)
    (wellFormed_tagLine hclosing)

/-! ### Parts without a tag -/

/-- No element of the name is opened or closed. -/
def Free (name : String) (pieces : List Piece) : Prop :=
  .opening name ∉ pieces ∧ .closing name ∉ pieces

theorem free_nil (name : String) : Free name [] := ⟨List.not_mem_nil, List.not_mem_nil⟩

theorem Free.append {name : String} {first second : List Piece} (hfirst : Free name first)
    (hsecond : Free name second) : Free name (first ++ second) := by
  simp only [Free, List.mem_append, not_or] at *
  exact ⟨⟨hfirst.1, hsecond.1⟩, hfirst.2, hsecond.2⟩

theorem free_flatMap {α : Type} {name : String} {items : List α} {pieces : α → List Piece}
    (h : ∀ item ∈ items, Free name (pieces item)) : Free name (items.flatMap pieces) := by
  refine ⟨fun hmem ↦ ?_, fun hmem ↦ ?_⟩
  · obtain ⟨item, hitem, hpiece⟩ := List.mem_flatMap.mp hmem
    exact (h item hitem).1 hpiece
  · obtain ⟨item, hitem, hpiece⟩ := List.mem_flatMap.mp hmem
    exact (h item hitem).2 hpiece

theorem free_leaf {name other : String} (h : name ≠ other) (indent : ℕ) (text : Text) :
    Free name (leaf indent other text) := by
  simp [Free, leaf, h]

theorem free_leafIf {name other : String} (h : name ≠ other) (present : Bool) (indent : ℕ)
    (text : Text) : Free name (leafIf present indent other text) := by
  cases present
  · exact free_nil name
  · exact free_leaf h indent text

theorem free_leafUnlessEmpty {name other : String} (h : name ≠ other) (indent : ℕ) (text : Text) :
    Free name (leafUnlessEmpty indent other text) :=
  free_leafIf h _ indent _

theorem free_block {name other : String} (h : name ≠ other) (indent : ℕ) {lines : List Piece}
    (hlines : Free name lines) : Free name (block indent other lines) := by
  refine Free.append (Free.append ?_ hlines) ?_
  · simp [Free, tagLine, h]
  · simp [Free, tagLine, h]

/-- Texts and the tags of some elements only. -/
def Uses (names : List String) (pieces : List Piece) : Prop :=
  ∀ piece ∈ pieces, (∃ chunk, piece = .text chunk) ∨
    ∃ name ∈ names, piece = .opening name ∨ piece = .closing name

theorem Uses.free {names : List String} {pieces : List Piece} (h : Uses names pieces) {name : String}
    (hname : name ∉ names) : Free name pieces := by
  refine ⟨fun hmem ↦ ?_, fun hmem ↦ ?_⟩
  all_goals
    obtain ⟨chunk, heq⟩ | ⟨other, hother, heq | heq⟩ := h _ hmem
    all_goals cases heq
    exact hname hother

theorem Uses.mono {names others : List String} {pieces : List Piece} (h : Uses names pieces)
    (hsub : names ⊆ others) : Uses others pieces := fun piece hpiece ↦
  (h piece hpiece).imp_right fun ⟨name, hname, heq⟩ ↦ ⟨name, hsub hname, heq⟩

theorem uses_nil (names : List String) : Uses names [] := List.forall_mem_nil _

theorem Uses.append {names : List String} {first second : List Piece} (hfirst : Uses names first)
    (hsecond : Uses names second) : Uses names (first ++ second) :=
  List.forall_mem_append.mpr ⟨hfirst, hsecond⟩

theorem uses_flatMap {α : Type} {names : List String} {items : List α} {pieces : α → List Piece}
    (h : ∀ item ∈ items, Uses names (pieces item)) : Uses names (items.flatMap pieces) := by
  intro piece hpiece
  obtain ⟨item, hitem, hmem⟩ := List.mem_flatMap.mp hpiece
  exact h item hitem piece hmem

theorem uses_text (names : List String) (chunk : Text) : Uses names [.text chunk] :=
  List.forall_mem_singleton.mpr (Or.inl ⟨chunk, rfl⟩)

theorem uses_tagLine {names : List String} {tag : Piece}
    (h : ∃ name ∈ names, tag = .opening name ∨ tag = .closing name) (indent : ℕ) :
    Uses names (tagLine indent tag) := by
  refine List.forall_mem_cons.mpr ⟨Or.inl ⟨_, rfl⟩, List.forall_mem_cons.mpr ⟨Or.inr h, ?_⟩⟩
  exact uses_text names ['\n']

theorem uses_leaf {names : List String} {name : String} (h : name ∈ names) (indent : ℕ)
    (text : Text) : Uses names (leaf indent name text) := by
  intro piece hpiece
  simp only [leaf, List.mem_cons, List.not_mem_nil, or_false] at hpiece
  rcases hpiece with rfl | rfl | rfl | rfl | rfl
  · exact Or.inl ⟨_, rfl⟩
  · exact Or.inr ⟨name, h, Or.inl rfl⟩
  · exact Or.inl ⟨_, rfl⟩
  · exact Or.inr ⟨name, h, Or.inr rfl⟩
  · exact Or.inl ⟨_, rfl⟩

theorem uses_leafIf {names : List String} {name : String} (h : name ∈ names) (present : Bool)
    (indent : ℕ) (text : Text) : Uses names (leafIf present indent name text) := by
  cases present
  · exact uses_nil names
  · exact uses_leaf h indent text

theorem uses_leafUnlessEmpty {names : List String} {name : String} (h : name ∈ names) (indent : ℕ)
    (text : Text) : Uses names (leafUnlessEmpty indent name text) :=
  uses_leafIf h _ indent _

theorem uses_block {names : List String} {name : String} (h : name ∈ names) (indent : ℕ)
    {lines : List Piece} (hlines : Uses names lines) : Uses names (block indent name lines) :=
  ((uses_tagLine ⟨name, h, Or.inl rfl⟩ indent).append hlines).append
    (uses_tagLine ⟨name, h, Or.inr rfl⟩ indent)

/-! ### Entries -/

/-- The texts of an entry that are written as they are spoil no tag: the address text and the colour
have no `<`, the options have none or are a single tag with attributes or one that closes itself. -/
structure CheatEntry.Safe (e : CheatEntry) : Prop where
  addressString : '<' ∉ e.addressString
  color : '<' ∉ e.color
  optionsXml : (verbatim e.optionsXml).WellFormed

theorem wellFormed_verbatim {s : Text} (h : '<' ∉ s) : (verbatim s).WellFormed := by
  unfold verbatim
  split
  · next rest => exact absurd List.mem_cons_self h
  · exact h

theorem wellFormed_cascadeOptions (e : CheatEntry) : (verbatim (cascadeOptions e)).WellFormed := by
  unfold cascadeOptions
  cases e.activateChildren <;> cases e.deactivateChildren
  all_goals
    refine ⟨?_, ?_, Or.inl ?_⟩
    all_goals decide

theorem lt_not_mem_offsetText (off : ℤ) : '<' ∉ offsetText off := by
  have hdigits : '<' ∉ hex off.natAbs := lt_not_mem_toDigits (by decide) (by decide) _
  unfold offsetText
  split_ifs
  · rw [List.mem_cons, not_or]
    exact ⟨by decide, hdigits⟩
  · exact hdigits

theorem wellFormed_hotkeyLines (hkId : ℕ) (hks : List HkOut) : WellFormed (hotkeyLines hkId hks) := by
  induction hks generalizing hkId with
  | nil => exact List.forall_mem_nil _
  | cons hk hks ih =>
    refine wellFormed_append (wellFormed_block (by decide) ?_) (ih (hkId + 1))
    refine wellFormed_append (wellFormed_append (wellFormed_append ?_ ?_) ?_) ?_
    · exact wellFormed_leaf (by decide) (lt_not_mem_toDigits (by decide) (by decide) _)
    · exact wellFormed_block (by decide) (wellFormed_flatMap fun vk _ ↦
        wellFormed_leaf (by decide) (lt_not_mem_printInt vk))
    · exact wellFormed_leafUnlessEmpty _ (by decide)
    · exact wellFormed_leaf (by decide) (lt_not_mem_toDigits (by decide) (by decide) _)

theorem wellFormed_hotkeysPieces (e : CheatEntry) : WellFormed (hotkeysPieces e) := by
  unfold hotkeysPieces
  split_ifs
  · exact List.forall_mem_nil _
  · exact wellFormed_block (by decide) (wellFormed_hotkeyLines _ _)

theorem wellFormed_optionsPieces {e : CheatEntry} (h : e.Safe) : WellFormed (optionsPieces e) := by
  have hline : ∀ {piece : Piece}, piece.WellFormed →
      WellFormed [.text (spaces 6), piece, .text ['\n']] := fun hpiece ↦
    @wellFormed_tagLine 6 _ hpiece
  unfold optionsPieces
  split_ifs
  · exact hline h.optionsXml
  · exact hline (wellFormed_cascadeOptions e)
  · exact List.forall_mem_nil _

theorem wellFormed_lengthPieces (e : CheatEntry) : WellFormed (lengthPieces e) := by
  unfold lengthPieces
  split_ifs
  · exact wellFormed_append (wellFormed_leafIf (by decide) (lt_not_mem_printInt _))
      (wellFormed_leaf (by decide) (by decide))
  · exact wellFormed_append (wellFormed_leafIf (by decide) (lt_not_mem_printInt _))
      (wellFormed_leaf (by decide) (by decide))
  · exact wellFormed_leafIf (by decide) (lt_not_mem_printInt _)

theorem wellFormed_offsetsPieces (e : CheatEntry) : WellFormed (offsetsPieces e) := by
  unfold offsetsPieces
  split_ifs
  · exact List.forall_mem_nil _
  · exact wellFormed_block (by decide) (wellFormed_flatMap fun off _ ↦
      wellFormed_leaf (by decide) (lt_not_mem_offsetText off))

theorem wellFormed_kindPieces {e : CheatEntry} (h : e.Safe) : WellFormed (kindPieces e) := by
  have haddress : '<' ∉ (if e.addressString = [] then hex e.address else e.addressString) := by
    split_ifs
    · exact lt_not_mem_toDigits (by decide) (by decide) _
    · exact h.addressString
  unfold kindPieces
  split_ifs
  · exact wellFormed_append (wellFormed_leaf (by decide) (by decide))
      (wellFormed_leafIf (by decide) (by decide))
  · exact wellFormed_append (wellFormed_leafIf (by decide) h.addressString)
      (wellFormed_leaf (by decide) (by decide))
  · refine wellFormed_append (wellFormed_append (wellFormed_append (wellFormed_append ?_ ?_) ?_) ?_) ?_
    · exact wellFormed_leaf (by decide) haddress
    · exact wellFormed_leaf (by decide) (lt_not_mem_typeToStr e.type)
    · exact wellFormed_lengthPieces e
    · exact wellFormed_offsetsPieces e
    · exact wellFormed_leafUnlessEmpty _ (by decide)

theorem wellFormed_entryFields {e : CheatEntry} (h : e.Safe) : WellFormed (entryFields e) := by
  have hdescription : '<' ∉ doubleQuote :: (xmlEscape e.description ++ [doubleQuote]) := by
    simp only [List.mem_cons, List.mem_append, List.not_mem_nil, or_false, not_or]
    exact ⟨by decide, lt_not_mem_xmlEscape _, by decide⟩
  unfold entryFields
  repeat' apply wellFormed_append
  · exact wellFormed_leaf (by decide) (lt_not_mem_printInt _)
  · exact wellFormed_leaf (by decide) hdescription
  · exact wellFormed_kindPieces h
  · exact wellFormed_leafIf (by decide) (by decide)
  · exact wellFormed_leafIf (by decide) (by decide)
  · exact wellFormed_leafIf (by decide) (by decide)
  · exact wellFormed_leafIf (by decide) (lt_not_mem_toDigits (by decide) (by decide) _)
  · exact wellFormed_leafUnlessEmpty _ (by decide)
  · exact wellFormed_leafUnlessEmpty _ (by decide)
  · exact wellFormed_leafIf (by decide) h.color
  · exact wellFormed_optionsPieces h
  · exact wellFormed_leafUnlessEmpty _ (by decide)
  · exact wellFormed_hotkeysPieces e

/-- The names of the elements of a hotkey. -/
def hotkeyNames : List String := ["Hotkey", "Action", "Keys", "Key", "Value", "ID"]

/-- The names of the elements of a data record. -/
def dataNames : List String :=
  ["Address", "VariableType", "Length", "Unicode", "Offsets", "Offset", "Value"]

/-- The names of the elements of an entry. -/
def fieldNames : List String :=
  ["ID", "Description", "GroupHeader", "Collapsed", "Activated", "ShowAsHex", "ShowAsSigned",
    "freezeMode", "AssemblerScript", "LuaScript", "Color", "DropDownList", "Hotkeys"] ++
  dataNames ++ hotkeyNames

theorem uses_groupPieces (e : CheatEntry) : Uses ["GroupHeader", "Collapsed"] (groupPieces e) :=
  (uses_leaf (by decide) _ _).append (uses_leafIf (by decide) _ _ _)

theorem uses_scriptPieces (e : CheatEntry) : Uses ["Address", "VariableType"] (scriptPieces e) :=
  (uses_leafIf (by decide) _ _ _).append (uses_leaf (by decide) _ _)

theorem uses_lengthPieces (e : CheatEntry) : Uses ["Length", "Unicode"] (lengthPieces e) := by
  unfold lengthPieces
  split_ifs
  · exact (uses_leafIf (by decide) _ _ _).append (uses_leaf (by decide) _ _)
  · exact (uses_leafIf (by decide) _ _ _).append (uses_leaf (by decide) _ _)
  · exact uses_leafIf (by decide) _ _ _

theorem uses_offsetsPieces (e : CheatEntry) : Uses ["Offsets", "Offset"] (offsetsPieces e) := by
  unfold offsetsPieces
  split_ifs
  · exact uses_nil _
  · exact uses_block (by decide) _ (uses_flatMap fun off _ ↦ uses_leaf (by decide) _ _)

theorem uses_dataPieces (e : CheatEntry) : Uses dataNames (dataPieces e) := by
  unfold dataPieces
  repeat' apply Uses.append
  · exact uses_leaf (by decide) _ _
  · exact uses_leaf (by decide) _ _
  · exact (uses_lengthPieces e).mono (by decide)
  · exact (uses_offsetsPieces e).mono (by decide)
  · exact uses_leafUnlessEmpty (by decide) _ _

theorem uses_kindPieces (e : CheatEntry) :
    Uses (["GroupHeader", "Collapsed"] ++ dataNames) (kindPieces e) := by
  unfold kindPieces
  split_ifs
  · exact (uses_groupPieces e).mono (by decide)
  · exact (uses_scriptPieces e).mono (by decide)
  · exact (uses_dataPieces e).mono (by decide)

theorem uses_hotkeyLines (hkId : ℕ) (hks : List HkOut) : Uses hotkeyNames (hotkeyLines hkId hks) := by
  induction hks generalizing hkId with
  | nil => exact uses_nil _
  | cons hk hks ih =>
    refine Uses.append (uses_block (by decide) 8 ?_) (ih (hkId + 1))
    refine Uses.append (Uses.append (Uses.append ?_ ?_) ?_) ?_
    · exact uses_leaf (by decide) _ _
    · exact uses_block (by decide) _ (uses_flatMap fun vk _ ↦ uses_leaf (by decide) _ _)
    · exact uses_leafUnlessEmpty (by decide) _ _
    · exact uses_leaf (by decide) _ _

theorem uses_hotkeysPieces (e : CheatEntry) : Uses ("Hotkeys" :: hotkeyNames) (hotkeysPieces e) := by
  unfold hotkeysPieces
  split_ifs
  · exact uses_nil _
  · exact uses_block (by decide) _ ((uses_hotkeyLines _ _).mono (by decide))

/-- The lines in front of the options. -/
def frontFields (e : CheatEntry) : List Piece :=
  leaf 6 "ID" (printInt e.id) ++
  leaf 6 "Description" (doubleQuote :: (xmlEscape e.description ++ [doubleQuote])) ++
  kindPieces e ++
  leafIf e.active 6 "Activated" ['1'] ++
  leafIf e.showAsHex 6 "ShowAsHex" ['1'] ++
  leafIf (!e.showAsSigned) 6 "ShowAsSigned" ['0'] ++
  leafIf (decide (e.freezeMode ≠ .normal)) 6 "freezeMode" (decimal e.freezeMode.number) ++
  leafUnlessEmpty 6 "AssemblerScript" e.autoAsmScript ++
  leafUnlessEmpty 6 "LuaScript" e.luaScript ++
  leafIf (!e.color.isEmpty) 6 "Color" e.color

/-- The lines behind the options. -/
def backFields (e : CheatEntry) : List Piece :=
  leafUnlessEmpty 6 "DropDownList" e.dropdownList ++ hotkeysPieces e

theorem entryFields_eq (e : CheatEntry) :
    entryFields e = frontFields e ++ (optionsPieces e ++ backFields e) := by
  unfold entryFields frontFields backFields
  simp only [List.append_assoc]

theorem uses_frontFields (e : CheatEntry) : Uses fieldNames (frontFields e) := by
  unfold frontFields
  repeat' apply Uses.append
  · exact uses_leaf (by decide) _ _
  · exact uses_leaf (by decide) _ _
  · exact (uses_kindPieces e).mono (by decide)
  · exact uses_leafIf (by decide) _ _ _
  · exact uses_leafIf (by decide) _ _ _
  · exact uses_leafIf (by decide) _ _ _
  · exact uses_leafIf (by decide) _ _ _
  · exact uses_leafUnlessEmpty (by decide) _ _
  · exact uses_leafUnlessEmpty (by decide) _ _
  · exact uses_leafIf (by decide) _ _ _

theorem uses_backFields (e : CheatEntry) : Uses fieldNames (backFields e) :=
  (uses_leafUnlessEmpty (by decide) _ _).append ((uses_hotkeysPieces e).mono (by decide))

/-- A verbatim text opens and closes no element. -/
theorem free_verbatimLine (name : String) (s : Text) :
    Free name [.text (spaces 6), verbatim s, .text ['\n']] := by
  have hverbatim : ∀ tag : Piece, tag.IsTag → verbatim s ≠ tag := by
    intro tag htag
    unfold verbatim
    split
    · split_ifs
      · rintro rfl
        exact htag
      · rintro rfl
        exact htag
    · rintro rfl
      exact htag
  simp only [Free, List.mem_cons, List.not_mem_nil, or_false, reduceCtorEq, false_or]
  exact ⟨(hverbatim _ (isTag_opening name)).symm, (hverbatim _ (isTag_closing name)).symm⟩

theorem free_optionsPieces (name : String) (e : CheatEntry) : Free name (optionsPieces e) := by
  unfold optionsPieces
  split_ifs
  · exact free_verbatimLine name _
  · exact free_verbatimLine name _
  · exact free_nil name

/-- An entry's own lines have no other elements. -/
theorem free_entryFields {name : String} (h : name ∉ fieldNames) (e : CheatEntry) :
    Free name (entryFields e) := by
  rw [entryFields_eq]
  exact ((uses_frontFields e).free h).append
    ((free_optionsPieces name e).append ((uses_backFields e).free h))

/-! ### What is in front of the entries -/

theorem wellFormed_structurePieces (s : StructureDefinition) : WellFormed (structurePieces s) := by
  have hfield : ∀ field ∈ s.fields, WellFormed (structureFieldPieces field) := by
    intro field _
    refine wellFormed_block (by decide) ?_
    repeat' apply wellFormed_append
    · exact wellFormed_leaf (by decide) (lt_not_mem_xmlEscape _)
    · exact wellFormed_leaf (by decide) (lt_not_mem_toDigits (by decide) (by decide) _)
    · exact wellFormed_leaf (by decide) (lt_not_mem_typeToStr _)
    · exact wellFormed_leaf (by decide) (lt_not_mem_toDigits (by decide) (by decide) _)
    · exact wellFormed_leafUnlessEmpty _ (by decide)
    · exact wellFormed_leafUnlessEmpty _ (by decide)
  refine wellFormed_block (by decide) (wellFormed_append (wellFormed_append ?_ ?_) ?_)
  · exact wellFormed_leaf (by decide) (lt_not_mem_xmlEscape _)
  · exact wellFormed_leaf (by decide) (lt_not_mem_toDigits (by decide) (by decide) _)
  · exact wellFormed_block (by decide) (wellFormed_flatMap hfield)

theorem wellFormed_commentPieces (c : DisassemblerComment) : WellFormed (commentPieces c) := by
  refine wellFormed_block (by decide) (wellFormed_append (wellFormed_append ?_ ?_) ?_)
  · exact wellFormed_leaf (by decide) (lt_not_mem_xmlEscape _)
  · exact wellFormed_leafUnlessEmpty _ (by decide)
  · exact wellFormed_leafUnlessEmpty _ (by decide)

theorem wellFormed_headPieces (t : CheatTable) : WellFormed (headPieces t) := by
  unfold headPieces
  repeat' apply wellFormed_append
  · decide
  · exact wellFormed_tagLine (by decide)
  · exact wellFormed_leaf (by decide) (by decide)
  · exact wellFormed_leafUnlessEmpty _ (by decide)
  · exact wellFormed_leafUnlessEmpty _ (by decide)
  · exact wellFormed_leafUnlessEmpty _ (by decide)
  · exact wellFormed_leafUnlessEmpty _ (by decide)
  · exact wellFormed_leafUnlessEmpty _ (by decide)
  · split_ifs
    · exact List.forall_mem_nil _
    · exact wellFormed_block (by decide) (wellFormed_flatMap fun s _ ↦ wellFormed_structurePieces s)
  · split_ifs
    · exact List.forall_mem_nil _
    · exact wellFormed_block (by decide) (wellFormed_flatMap fun c _ ↦ wellFormed_commentPieces c)

/-- No list of entries is in front of the entries. -/
theorem free_headPieces (t : CheatTable) : Free "CheatEntries" (headPieces t) := by
  have hstructure : ∀ s ∈ t.structures, Free "CheatEntries" (structurePieces s) := by
    intro s _
    have hfield : ∀ field ∈ s.fields, Free "CheatEntries" (structureFieldPieces field) := by
      intro field _
      refine free_block (by decide) _ ?_
      repeat' apply Free.append
      all_goals first
        | exact free_leaf (by decide) _ _
        | exact free_leafUnlessEmpty (by decide) _ _
    refine free_block (by decide) _ (Free.append (Free.append ?_ ?_) ?_)
    · exact free_leaf (by decide) _ _
    · exact free_leaf (by decide) _ _
    · exact free_block (by decide) _ (free_flatMap hfield)
  have hcomment : ∀ c ∈ t.disassemblerComments, Free "CheatEntries" (commentPieces c) := by
    intro c _
    refine free_block (by decide) _ (Free.append (Free.append ?_ ?_) ?_)
    · exact free_leaf (by decide) _ _
    · exact free_leafUnlessEmpty (by decide) _ _
    · exact free_leafUnlessEmpty (by decide) _ _
  unfold headPieces
  repeat' apply Free.append
  · simp [Free]
  · simp [Free, tagLine]
  · exact free_leaf (by decide) _ _
  · exact free_leafUnlessEmpty (by decide) _ _
  · exact free_leafUnlessEmpty (by decide) _ _
  · exact free_leafUnlessEmpty (by decide) _ _
  · exact free_leafUnlessEmpty (by decide) _ _
  · exact free_leafUnlessEmpty (by decide) _ _
  · split_ifs
    · exact free_nil _
    · exact free_block (by decide) _ (free_flatMap hstructure)
  · split_ifs
    · exact free_nil _
    · exact free_block (by decide) _ (free_flatMap hcomment)

end Cecore.Table
