import Cecore.Table.XmlHotkeys

/-!
# An entry, written and read

What the reader makes of the lines that the writer has for an entry, for each kind of entry.
-/

set_option autoImplicit false
set_option relaxedAutoImplicit false

namespace Cecore.Table

open Library Library.Markup

/-! ### Options -/

/-- The lines of an entry have no tag that begins like the options. -/
theorem Uses.not_options {pieces : List Piece} (h : Uses fieldNames pieces) :
    ∀ piece ∈ pieces, ¬"Options".toList <+: piece.body := by
  have hnames : ∀ name ∈ fieldNames, ¬"Options".toList <+: name.toList := by decide
  intro piece hpiece
  obtain ⟨chunk, rfl⟩ | ⟨name, hname, rfl | rfl⟩ := h piece hpiece
  · exact fun hstarts ↦ absurd (List.prefix_nil.mp hstarts) (by decide)
  · exact hnames name hname
  · exact fun hstarts ↦ absurd (List.cons_prefix_cons.mp hstarts).1 (by decide)

/-- An entry's own text, its options line apart. -/
theorem render_ownPieces (e : CheatEntry) (hasChildren : Bool) :
    render (ownPieces e hasChildren) =
      render ([.opening "CheatEntry", .text ['\n']] ++ frontFields e) ++
        (render (optionsPieces e) ++ (render (backFields e ++ if hasChildren then [.text (spaces 6)]
          else [.text (spaces 4), .closing "CheatEntry"]))) := by
  rw [ownPieces, entryFields_eq]
  simp only [render_append, List.append_assoc]

theorem wellFormed_frontFields {e : CheatEntry} (h : e.Safe) : WellFormed (frontFields e) := by
  have hfields := wellFormed_entryFields h
  rw [entryFields_eq] at hfields
  exact (List.forall_mem_append.mp hfields).1

theorem wellFormed_backFields {e : CheatEntry} (h : e.Safe) : WellFormed (backFields e) := by
  have hfields := wellFormed_entryFields h
  rw [entryFields_eq] at hfields
  exact (List.forall_mem_append.mp (List.forall_mem_append.mp hfields).2).2

/-- The options are looked for in their line first. -/
theorem cut_options {e : CheatEntry} (h : e.Safe) (hasChildren : Bool) :
    ∃ front back, cut "<Options".toList back = none ∧
      cut "<Options".toList (render (ownPieces e hasChildren)) =
        (cut "<Options".toList (render (optionsPieces e) ++ back)).map (under front) := by
  have hfront : ∀ piece ∈ [.opening "CheatEntry", .text ['\n']] ++ frontFields e,
      ¬"Options".toList <+: piece.body :=
    List.forall_mem_append.mpr ⟨by decide, (uses_frontFields e).not_options⟩
  have htail : ∀ piece ∈ (if hasChildren then [.text (spaces 6)]
      else [.text (spaces 4), .closing "CheatEntry"] : List Piece),
      piece.WellFormed ∧ ¬"Options".toList <+: piece.body := by
    cases hasChildren <;> decide
  have hback := List.forall_mem_append.mpr ⟨(uses_backFields e).not_options, fun piece hpiece ↦
    (htail piece hpiece).2⟩
  have hwfBack := wellFormed_append (wellFormed_backFields h) fun piece hpiece ↦
    (htail piece hpiece).1
  refine ⟨_, _, ?_, (congrArg _ (render_ownPieces e hasChildren)).trans
    (cut_append_of_starts (by decide : '>' ∉ "Options".toList)
      (wellFormed_append (by decide) (wellFormed_frontFields h)) hfront _)⟩
  have hnone := cut_append_of_starts (by decide : '>' ∉ "Options".toList) hwfBack hback []
  rw [List.append_nil] at hnone
  exact hnone

/-- Options without a tag are not read. -/
theorem readOptions_own_of_text {e : CheatEntry} (hsafe : e.Safe) (hasChildren : Bool)
    (htext : '<' ∉ e.optionsXml)
    (hflags : e.optionsXml = [] → e.isGroup = true → e.activateChildren ∧ e.deactivateChildren)
    (start : CheatEntry) :
    readOptions (render (ownPieces e hasChildren)) start = start := by
  obtain ⟨front, back, hback, hcut⟩ := cut_options hsafe hasChildren
  have hline : ∀ piece ∈ optionsPieces e, ¬"Options".toList <+: piece.body := by
    have hverbatim : verbatim e.optionsXml = .text e.optionsXml := by
      unfold verbatim
      split
      · next rest heq => exact absurd (heq ▸ List.mem_cons_self) htext
      · rfl
    unfold optionsPieces
    split_ifs with hoptions hcascade
    · rw [hverbatim]
      intro piece hpiece hstarts
      simp only [List.mem_cons, List.not_mem_nil, or_false] at hpiece
      rcases hpiece with rfl | rfl | rfl
      all_goals exact absurd (List.prefix_nil.mp hstarts) (by decide)
    · exact absurd (hflags (not_not.mp hoptions) hcascade.1) hcascade.2
    · exact List.forall_mem_nil _
  have hnone : cut "<Options".toList (render (optionsPieces e) ++ back) = none := by
    have hskip := cut_append_of_starts (by decide : '>' ∉ "Options".toList)
      (wellFormed_optionsPieces hsafe) hline back
    change cut ('<' :: "Options".toList) _ = none
    rw [hskip]
    change (cut "<Options".toList back).map _ = none
    rw [hback]
    rfl
  rw [hnone] at hcut
  rw [readOptions, hcut]
  rfl

/-- The attributes of the options that stand for the cascade flags. -/
def cascadeAttributes (e : CheatEntry) : Text :=
  " moActivateChildrenAsWell=".toList ++
    [doubleQuote, if e.activateChildren then '1' else '0', doubleQuote] ++
    " moDeactivateChildrenAsWell=".toList ++
    [doubleQuote, if e.deactivateChildren then '1' else '0', doubleQuote] ++ ['/']

theorem cascadeOptions_eq (e : CheatEntry) :
    cascadeOptions e = "<Options".toList ++ cascadeAttributes e ++ ['>'] := by
  unfold cascadeOptions cascadeAttributes
  cases e.activateChildren <;> cases e.deactivateChildren <;> decide

/-- The cascade flags of a group are read back. -/
theorem readOptions_own_of_group {e : CheatEntry} (hsafe : e.Safe) (hasChildren : Bool)
    (htext : e.optionsXml = []) (hgroup : e.isGroup = true)
    (hflags : ¬(e.activateChildren ∧ e.deactivateChildren)) (start : CheatEntry) :
    readOptions (render (ownPieces e hasChildren)) start =
      { start with
        optionsXml := cascadeOptions e
        activateChildren := e.activateChildren
        deactivateChildren := e.deactivateChildren } := by
  obtain ⟨front, back, -, hcut⟩ := cut_options hsafe hasChildren
  have hline : render (optionsPieces e) = spaces 6 ++ (cascadeOptions e ++ ['\n']) := by
    rw [optionsPieces, if_neg (not_not.mpr htext), if_pos ⟨hgroup, hflags⟩]
    simp only [render, List.flatMap_cons, List.flatMap_nil, render_verbatim]
    simp [Piece.render]
  have hfound : cut "<Options".toList (render (optionsPieces e) ++ back) =
      some (spaces 6, cascadeAttributes e ++ ('>' :: '\n' :: back)) := by
    have hshape : render (optionsPieces e) ++ back = spaces 6 ++
        ("<Options".toList ++ (cascadeAttributes e ++ ('>' :: '\n' :: back))) := by
      rw [hline, cascadeOptions_eq]
      simp
    rw [hshape]
    have hskip := @cut_append_of_not_mem '<' "Options".toList _ (not_mem_spaces (by decide) 6)
      ("<Options".toList ++ (cascadeAttributes e ++ ('>' :: '\n' :: back)))
    refine hskip.trans ?_
    change (cut "<Options".toList _).map _ = _
    rw [cut_pattern_append]
    simp [under]
  have hclose : cut ['>'] (cascadeAttributes e ++ ('>' :: '\n' :: back)) =
      some (cascadeAttributes e, '\n' :: back) := by
    have hfree : '>' ∉ cascadeAttributes e := by
      unfold cascadeAttributes
      cases e.activateChildren <;> cases e.deactivateChildren <;> decide
    have hfirst : cut ['>'] ('>' :: '\n' :: back) = some ([], '\n' :: back) :=
      cut_pattern_append ['>'] ('\n' :: back)
    rw [cut_append_of_not_mem hfree, hfirst]
    simp [under]
  have hactivate : (cut ("moActivateChildrenAsWell".toList ++ ['=', doubleQuote, '1', doubleQuote])
      (cascadeOptions e)).isSome = e.activateChildren := by
    unfold cascadeOptions
    cases e.activateChildren <;> cases e.deactivateChildren <;> decide
  have hdeactivate : (cut ("moDeactivateChildrenAsWell".toList ++
      ['=', doubleQuote, '1', doubleQuote]) (cascadeOptions e)).isSome = e.deactivateChildren := by
    unfold cascadeOptions
    cases e.activateChildren <;> cases e.deactivateChildren <;> decide
  rw [hfound] at hcut
  rw [readOptions, hcut]
  dsimp only [Option.map_some, under]
  rw [hclose]
  dsimp only
  rw [← cascadeOptions_eq, hactivate, hdeactivate]

/-! ### Fields of every entry -/

theorem stripQuotes_quoted (s : Text) : stripQuotes (doubleQuote :: (s ++ [doubleQuote])) = s := by
  have hlast : (doubleQuote :: (s ++ [doubleQuote])).getLast? = some doubleQuote := by
    rw [← List.cons_append, List.getLast?_concat]
  rw [stripQuotes, if_pos ⟨by simp, rfl, hlast⟩, List.tail_cons, List.dropLast_concat]

theorem readFreezeMode (mode : FreezeMode) :
    (if (if decide (mode ≠ .normal) then decimal mode.number else []) = [] then FreezeMode.normal
      else ((stoi 10 (if decide (mode ≠ .normal) then decimal mode.number else [])).map
        FreezeMode.ofNumber).getD .normal) = mode := by
  cases mode <;> decide

section Own

variable {e : CheatEntry} (hsafe : e.Safe) (hasChildren : Bool) (parentId : ℤ)

include hsafe

theorem readEntry_isGroup :
    (readEntry (render (ownPieces e hasChildren)) parentId).isGroup = e.isGroup := by
  rw [(readEntry_fields _ _).2.1, getTag_own (by decide) (by decide) hsafe, textOf_kind (by decide)]
  cases hgroup : e.isGroup with
  | true =>
    rw [kindPieces_group hgroup, (textOf_groupPieces e).1]
    rfl
  | false =>
    have hfree : Free "GroupHeader" (kindPieces e) := by
      by_cases hscript : e.autoAsmScript = []
      · rw [kindPieces_data hgroup hscript]
        exact (uses_dataPieces e).free (by decide)
      · rw [kindPieces_script hgroup hscript]
        exact (uses_scriptPieces e).free (by decide)
    rw [textOf_of_free hfree]
    rfl

/-- The fields that are read of every entry are those that were written. -/
theorem readEntry_common :
    let e' := readEntry (render (ownPieces e hasChildren)) parentId
    e'.description = e.description ∧ e'.active = e.active ∧ e'.showAsHex = e.showAsHex ∧
      e'.showAsSigned = e.showAsSigned ∧ e'.freezeMode = e.freezeMode ∧
      e'.autoAsmScript = e.autoAsmScript ∧ e'.luaScript = e.luaScript ∧ e'.color = e.color ∧
      e'.dropdownList = e.dropdownList := by
  obtain ⟨hactive, hhex, hsigned, hfreeze, hscript, hlua, hcolor, hdrop⟩ := textOf_laterFields e
  obtain ⟨hdescription', -, -, hactive', hhex', hsigned', hfreeze', hscript', hlua', hcolor', hdrop'⟩ :=
    readEntry_fields (render (ownPieces e hasChildren)) parentId
  have hown : ∀ name : String, PlainName name → name ≠ "CheatEntry" →
      name ∉ ["ID", "Description", "GroupHeader", "Collapsed"] ++ dataNames →
      getTag (render (ownPieces e hasChildren)) name = textOf name (laterFields e) :=
    fun name hplain hne hname ↦ (getTag_own hplain hne hsafe hasChildren).trans (textOf_later hname e)
  have hempty : getTag (render (ownPieces e hasChildren)) "DropdownList" = [] := by
    rw [getTag_own (by decide) (by decide) hsafe, textOf_of_free (free_entryFields (by decide) e)]
  refine ⟨?_, ?_, ?_, ?_, ?_, ?_, ?_, ?_, ?_⟩
  · rw [hdescription', getTag_own (by decide) (by decide) hsafe, textOf_description,
      xmlUnescape_cons (by decide), xmlUnescape_xmlEscape_append]
    exact stripQuotes_quoted e.description
  · rw [hactive', hown _ (by decide) (by decide) (by decide), hactive]
    cases e.active <;> rfl
  · rw [hhex', hown _ (by decide) (by decide) (by decide), hhex]
    cases e.showAsHex <;> rfl
  · rw [hsigned', hown _ (by decide) (by decide) (by decide), hsigned]
    cases e.showAsSigned <;> decide
  · rw [hfreeze', hown _ (by decide) (by decide) (by decide), hfreeze]
    exact readFreezeMode e.freezeMode
  · rw [hscript', hown _ (by decide) (by decide) (by decide), hscript, xmlUnescape_xmlEscape]
  · rw [hlua', hown _ (by decide) (by decide) (by decide), hlua, xmlUnescape_xmlEscape]
  · rw [hcolor', hown _ (by decide) (by decide) (by decide), hcolor]
  · rw [hdrop', hown "DropDownList" (by decide) (by decide) (by decide), hdrop, hempty,
      xmlUnescape_xmlEscape]
    split_ifs with hnil
    · rw [hnil]
      rfl
    · rfl

/-- The hotkeys that are read. -/
theorem readEntry_hotkeys :
    let e' := readEntry (render (ownPieces e hasChildren)) parentId
    e'.hotkeyKeys = keysRead e.hotkeyKeys ∧ e'.increaseHotkeyKeys = keysRead e.increaseHotkeyKeys ∧
      e'.decreaseHotkeyKeys = keysRead e.decreaseHotkeyKeys ∧
      e'.setValueHotkeyKeys = keysRead e.setValueHotkeyKeys ∧
      e'.setValueHotkeyValue = (if e.setValueHotkeyKeys = [] then [] else e.setValueHotkeyValue) ∧
      e'.hotkeyStep = (if e.increaseHotkeyKeys = [] ∧ e.decreaseHotkeyKeys = [] then []
        else e.hotkeyStep) := by
  obtain ⟨start, hempty, hread⟩ :=
    readEntry_hotkeysPart (render (ownPieces e hasChildren)) parentId
  rw [hread, readHotkeys_own hsafe hasChildren hempty]
  exact ⟨rfl, rfl, rfl, rfl, rfl, rfl⟩

/-- The options that are read are those of the options' part. -/
theorem readEntry_options :
    let e' := readEntry (render (ownPieces e hasChildren)) parentId
    ('<' ∉ e.optionsXml → (e.optionsXml = [] → e.isGroup = true →
        e.activateChildren ∧ e.deactivateChildren) →
      e'.optionsXml = [] ∧ e'.activateChildren = true ∧ e'.deactivateChildren = true) ∧
    (e.optionsXml = [] → e.isGroup = true → ¬(e.activateChildren ∧ e.deactivateChildren) →
      e'.optionsXml = cascadeOptions e ∧ e'.activateChildren = e.activateChildren ∧
        e'.deactivateChildren = e.deactivateChildren) := by
  obtain ⟨start, ⟨hoptions, hactivate, hdeactivate⟩, hread⟩ :=
    readEntry_optionsPart (render (ownPieces e hasChildren)) parentId
  obtain ⟨hoptions', hactivate', hdeactivate'⟩ := hread
  dsimp only
  rw [hoptions', hactivate', hdeactivate']
  refine ⟨fun htext hflags ↦ ?_, fun htext hgroup hflags ↦ ?_⟩
  · rw [readOptions_own_of_text hsafe hasChildren htext hflags]
    exact ⟨hoptions, hactivate, hdeactivate⟩
  · rw [readOptions_own_of_group hsafe hasChildren htext hgroup hflags]
    exact ⟨rfl, rfl, rfl⟩

/-- What is read of a group. -/
theorem readEntry_ofGroup (hgroup : e.isGroup = true) :
    let e' := readEntry (render (ownPieces e hasChildren)) parentId
    e'.address = 0 ∧ e'.addressString = [] ∧ e'.offsets = [] ∧ e'.type = .int32 ∧ e'.value = [] ∧
      e'.length = 0 ∧ e'.collapsed = e.collapsed := by
  have hown : ∀ name : String, PlainName name → name ≠ "CheatEntry" →
      name ∉ ["ID", "Description"] ++ laterNames →
      getTag (render (ownPieces e hasChildren)) name = textOf name (groupPieces e) := by
    intro name hplain hne hname
    rw [getTag_own hplain hne hsafe, textOf_kind hname, kindPieces_group hgroup]
  have hheader : getTag (render (ownPieces e hasChildren)) "GroupHeader" = ['1'] := by
    rw [hown _ (by decide) (by decide) (by decide), (textOf_groupPieces e).1]
  obtain ⟨haddress, haddressString, hoffsets, htype, hvalue, hlength⟩ :=
    readEntry_group hheader parentId
  refine ⟨haddress, haddressString, hoffsets, htype, hvalue, hlength, ?_⟩
  rw [(readEntry_fields _ _).2.2.1, hown _ (by decide) (by decide) (by decide),
    (textOf_groupPieces e).2]
  cases e.collapsed <;> rfl

theorem getTag_groupHeader_of_not_group (hgroup : e.isGroup = false) :
    getTag (render (ownPieces e hasChildren)) "GroupHeader" ≠ ['1'] := by
  intro hheader
  have hread := readEntry_isGroup hsafe hasChildren 0
  rw [(readEntry_fields _ _).2.1, hheader, hgroup] at hread
  exact absurd hread (by decide)

/-- What is read of a script. -/
theorem readEntry_ofScript (hgroup : e.isGroup = false) (hscript : e.autoAsmScript ≠ []) :
    let e' := readEntry (render (ownPieces e hasChildren)) parentId
    e'.addressString = e.addressString ∧ e'.offsets = [] ∧ e'.type = .int32 ∧
      e'.value = firstValue (hotkeysOf e) ∧ e'.length = 0 := by
  have hown : ∀ name : String, PlainName name → name ≠ "CheatEntry" →
      name ∉ ["ID", "Description"] ++ laterNames →
      getTag (render (ownPieces e hasChildren)) name = textOf name (scriptPieces e) := by
    intro name hplain hne hname
    rw [getTag_own hplain hne hsafe, textOf_kind hname, kindPieces_script hgroup hscript]
  have hnone : ∀ name : String, PlainName name → name ≠ "CheatEntry" →
      name ∉ ["ID", "Description"] ++ laterNames → name ∉ ["Address", "VariableType"] →
      getTag (render (ownPieces e hasChildren)) name = [] := by
    intro name hplain hne hname hother
    rw [hown name hplain hne hname, textOf_of_free ((uses_scriptPieces e).free hother)]
  obtain ⟨-, haddressString, hoffsets, htype, hvalue, hlength⟩ :=
    readEntry_nonGroup (getTag_groupHeader_of_not_group hsafe hasChildren hgroup) parentId
  dsimp only
  refine ⟨?_, ?_, ?_, ?_, ?_⟩
  · rw [haddressString, hown _ (by decide) (by decide) (by decide), (textOf_scriptPieces e).1]
  · rw [hoffsets, hnone "Offsets" (by decide) (by decide) (by decide) (by decide)]
    rfl
  · rw [htype, hown "VariableType" (by decide) (by decide) (by decide), (textOf_scriptPieces e).2,
      hnone "Unicode" (by decide) (by decide) (by decide) (by decide)]
    decide
  · rw [hvalue, getTag_own (by decide) (by decide) hsafe, textOf_value hgroup,
      if_neg fun h ↦ hscript h.1, xmlUnescape_xmlEscape]
  · rw [hlength, hnone "Length" (by decide) (by decide) (by decide) (by decide), if_pos rfl]

end Own

/-- The type that a written type is read as. -/
def typeRead (type : ValueType) : ValueType :=
  if type = .all ∨ type = .grouped then .int32 else type

theorem strToType_typeToStr (type : ValueType) :
    (if strToType (typeToStr type) = .string ∧
        (if type = .unicodeString then ['1'] else if type = .string then ['0'] else []) = ['1']
      then .unicodeString else strToType (typeToStr type)) = typeRead type := by
  cases type <;> decide

theorem stoull_bareHex {address : ℕ} (h : address < sizeModulus) :
    ((stoull 16 (hex address)).map (·.1)).getD 0 = address := by
  have hread := stoull_toDigits (by decide : 1 < 16) (by decide) h (stops_nil 16)
  rw [List.append_nil] at hread
  rw [hex, hread]
  rfl

/-- A search in the text of a data record finds the first line of a name of its kind. -/
theorem getTag_ofData {e : CheatEntry} (hsafe : e.Safe) (hasChildren : Bool)
    (hgroup : e.isGroup = false) (hscript : e.autoAsmScript = []) {name : String}
    (hplain : PlainName name) (hne : name ≠ "CheatEntry")
    (hname : name ∉ ["ID", "Description"] ++ laterNames) :
    getTag (render (ownPieces e hasChildren)) name = textOf name (dataPieces e) := by
  rw [getTag_own hplain hne hsafe, textOf_kind hname, kindPieces_data hgroup hscript]

/-- The address text that is read of a data record, which is never empty. -/
theorem readEntry_addressString_ofData {e : CheatEntry} (hsafe : e.Safe) (hasChildren : Bool)
    (parentId : ℤ) (hgroup : e.isGroup = false) (hscript : e.autoAsmScript = []) :
    (readEntry (render (ownPieces e hasChildren)) parentId).addressString =
      if e.addressString = [] then hex e.address else e.addressString := by
  obtain ⟨-, haddressString, -⟩ :=
    readEntry_nonGroup (getTag_groupHeader_of_not_group hsafe hasChildren hgroup) parentId
  rw [haddressString, getTag_ofData hsafe hasChildren hgroup hscript (by decide) (by decide)
    (by decide), (textOf_dataPieces e).1]

/-- What is read of a data record. -/
theorem readEntry_ofData {e : CheatEntry} (hsafe : e.Safe) (hasChildren : Bool) (parentId : ℤ)
    (hgroup : e.isGroup = false) (hscript : e.autoAsmScript = [])
    (haddress : e.address < sizeModulus) (hlength : e.length < 2 ^ 31)
    (hoffsets : ∀ off ∈ e.offsets, -(2 ^ 63) ≤ off ∧ off < 2 ^ 63) :
    let e' := readEntry (render (ownPieces e hasChildren)) parentId
    e'.addressString = (if e.addressString = [] then hex e.address else e.addressString) ∧
      (e.addressString = [] → e'.address = e.address) ∧ e'.offsets = e.offsets ∧
      e'.type = typeRead e.type ∧
      e'.value = (if e.value = [] then firstValue (hotkeysOf e) else e.value) ∧
      e'.length = if HasLength e then e.length else 0 := by
  have hown : ∀ name : String, PlainName name → name ≠ "CheatEntry" →
      name ∉ ["ID", "Description"] ++ laterNames →
      getTag (render (ownPieces e hasChildren)) name = textOf name (dataPieces e) :=
    fun name hplain hne hname ↦ getTag_ofData hsafe hasChildren hgroup hscript hplain hne hname
  obtain ⟨hAddress, hType, hLength, hUnicode, hOffsets⟩ := textOf_dataPieces e
  obtain ⟨haddress', -, hoffsets', htype', hvalue', hlength'⟩ :=
    readEntry_nonGroup (getTag_groupHeader_of_not_group hsafe hasChildren hgroup) parentId
  have haddressTag : getTag (render (ownPieces e hasChildren)) "Address" =
      if e.addressString = [] then hex e.address else e.addressString := by
    rw [hown _ (by decide) (by decide) (by decide), hAddress]
  have hnonempty : hex e.address ≠ [] := toDigits_ne_nil (by decide) (by decide) _
  dsimp only
  refine ⟨?_, fun hempty ↦ ?_, ?_, ?_, ?_, ?_⟩
  · exact readEntry_addressString_ofData hsafe hasChildren parentId hgroup hscript
  · rw [haddress', haddressTag, if_pos hempty, if_neg hnonempty, stoull_bareHex haddress]
  · change _ = offsetsOfXml _ at hoffsets'
    rw [hoffsets', hown _ (by decide) (by decide) (by decide), hOffsets]
    split_ifs with hnil
    · rw [hnil]
      rfl
    · exact offsetsOfXml_offsets hoffsets
  · rw [htype', hown "VariableType" (by decide) (by decide) (by decide),
      hown "Unicode" (by decide) (by decide) (by decide), hType, hUnicode]
    exact strToType_typeToStr e.type
  · rw [hvalue', getTag_own (by decide) (by decide) hsafe, textOf_value hgroup,
      xmlUnescape_xmlEscape]
    by_cases hvalue : e.value = []
    · rw [if_neg fun h ↦ h.2 hvalue, if_pos hvalue]
    · rw [if_pos ⟨hscript, hvalue⟩, if_neg hvalue]
  · rw [hlength', hown _ (by decide) (by decide) (by decide), hLength]
    by_cases hhas : HasLength e
    · have hstoi := stoi_printInt (n := e.length) (by have := hhas.2; omega) hlength (stops_nil 10)
      rw [List.append_nil] at hstoi
      rw [if_pos hhas, if_neg (printInt_ne_nil _), hstoi, if_pos hhas]
      rfl
    · rw [if_neg hhas, if_pos rfl, if_neg hhas]

end Cecore.Table
