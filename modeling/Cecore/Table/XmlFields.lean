import Cecore.Table.XmlForest

/-!
# The fields of a written entry

What each search of the reader finds in the text of an entry: the text of the first element of a
name among the lines of the entry (`getTag_own`), and the blocks of its inner elements.
-/

set_option autoImplicit false
set_option relaxedAutoImplicit false

namespace Cecore.Table

open Library Library.Markup

/-! ### The text of the first element of a name -/

/-- What `getTag` finds in written pieces. -/
def textOf (name : String) (pieces : List Piece) : Text :=
  ((content name pieces).map render).getD []

theorem content_append_of_free {name : String} {front : List Piece} (h : Free name front)
    (rest : List Piece) : content name (front ++ rest) = content name rest := by
  rw [content, content, split_append_of_not_mem h.1]
  cases split (.opening name) rest <;> rfl

theorem content_of_free {name : String} {pieces : List Piece} (h : Free name pieces) :
    content name pieces = none := by
  rw [content, split_eq_none_iff.mpr h.1]

/-- The first element of a name ends in front of pieces without that name. -/
theorem content_front_of_free {name : String} {tail : List Piece} (h : Free name tail)
    (pieces : List Piece) : content name (pieces ++ tail) = content name pieces := by
  by_cases hopen : .opening name ∈ pieces
  · obtain ⟨⟨before, after⟩, hsplit⟩ := Option.ne_none_iff_exists'.mp fun hnone ↦
      split_eq_none_iff.mp hnone hopen
    obtain ⟨hpieces, hfree⟩ := split_eq_some hsplit
    have hshape : pieces ++ tail = before ++ .opening name :: (after ++ tail) := by
      rw [hpieces]
      simp
    rw [content, content, hsplit, hshape, split_append_cons hfree]
    dsimp only
    by_cases hclose : .closing name ∈ after
    · obtain ⟨⟨inner, rest⟩, hinner⟩ := Option.ne_none_iff_exists'.mp fun hnone ↦
        split_eq_none_iff.mp hnone hclose
      obtain ⟨hafter, hinnerFree⟩ := split_eq_some hinner
      have hshapeAfter : after ++ tail = inner ++ .closing name :: (rest ++ tail) := by
        rw [hafter]
        simp
      rw [hinner, hshapeAfter, split_append_cons hinnerFree]
      rfl
    · rw [split_eq_none_iff.mpr hclose, split_append_of_not_mem hclose, split_eq_none_iff.mpr h.2]
      rfl
  · rw [content, content, split_eq_none_iff.mpr hopen, split_append_of_not_mem hopen,
      split_eq_none_iff.mpr h.1]
    rfl

theorem content_element {name : String} {front inner : List Piece} (hfront : Free name front)
    (hinner : Free name inner) (rest : List Piece) :
    content name (front ++ .opening name :: (inner ++ .closing name :: rest)) = some inner := by
  rw [content, split_append_cons hfront.1]
  dsimp only
  rw [split_append_cons hinner.2]
  rfl

theorem textOf_append_of_free {name : String} {front : List Piece} (h : Free name front)
    (rest : List Piece) : textOf name (front ++ rest) = textOf name rest := by
  rw [textOf, content_append_of_free h, textOf]

theorem textOf_of_free {name : String} {pieces : List Piece} (h : Free name pieces) :
    textOf name pieces = [] := by
  rw [textOf, content_of_free h]
  rfl

theorem free_text (name : String) (chunk : Text) : Free name [.text chunk] := by simp [Free]

/-- The first line of a name has the text. -/
theorem textOf_leaf (indent : ℕ) (name : String) (text : Text) (rest : List Piece) :
    textOf name (leaf indent name text ++ rest) = text := by
  have hfound : content name (leaf indent name text ++ rest) = some [.text text] :=
    content_element (free_text name (spaces indent)) (free_text name text) (.text ['\n'] :: rest)
  rw [textOf, hfound]
  simp [render, Piece.render]

theorem textOf_leafIf (present : Bool) (indent : ℕ) (name : String) (text : Text)
    (rest : List Piece) :
    textOf name (leafIf present indent name text ++ rest) =
      if present then text else textOf name rest := by
  cases present
  · rfl
  · exact textOf_leaf indent name text rest

theorem textOf_leaf_of_ne {name other : String} (h : name ≠ other) (indent : ℕ) (text : Text)
    (rest : List Piece) : textOf name (leaf indent other text ++ rest) = textOf name rest :=
  textOf_append_of_free (free_leaf h indent text) rest

theorem textOf_leafIf_of_ne {name other : String} (h : name ≠ other) (present : Bool) (indent : ℕ)
    (text : Text) (rest : List Piece) :
    textOf name (leafIf present indent other text ++ rest) = textOf name rest :=
  textOf_append_of_free (free_leafIf h present indent text) rest

theorem textOf_leafUnlessEmpty_of_ne {name other : String} (h : name ≠ other) (indent : ℕ)
    (text : Text) (rest : List Piece) :
    textOf name (leafUnlessEmpty indent other text ++ rest) = textOf name rest :=
  textOf_leafIf_of_ne h _ indent _ rest

/-! ### Escaping -/

theorem xmlUnescape_cons {c : Char} (h : c ≠ '&') (rest : Text) :
    xmlUnescape (c :: rest) = c :: xmlUnescape rest := by
  rw [xmlUnescape]
  all_goals
    intro _ heq
    exact absurd heq h

/-- Unescaping undoes escaping. -/
theorem xmlUnescape_xmlEscape_append (s rest : Text) :
    xmlUnescape (xmlEscape s ++ rest) = s ++ xmlUnescape rest := by
  induction s with
  | nil => rfl
  | cons c s ih =>
    have hshape : xmlEscape (c :: s) ++ rest = xmlEscapeChar c ++ (xmlEscape s ++ rest) := by
      simp [xmlEscape]
    rw [hshape, List.cons_append]
    unfold xmlEscapeChar
    split_ifs with hamp hlt hgt hquote
    · rw [← ih, hamp]
      rfl
    · rw [← ih, hlt]
      rfl
    · rw [← ih, hgt]
      rfl
    · rw [← ih, hquote]
      rfl
    · rw [List.singleton_append, xmlUnescape_cons hamp, ih]

theorem xmlUnescape_xmlEscape (s : Text) : xmlUnescape (xmlEscape s) = s := by
  have h := xmlUnescape_xmlEscape_append s []
  rwa [List.append_nil, xmlUnescape, List.append_nil] at h

/-! ### The lines of an entry -/

theorem free_front {name : String} (h : name ≠ "CheatEntry") :
    Free name [.opening "CheatEntry", .text ['\n']] := by
  simp [Free, h]

theorem free_back {name : String} (h : name ≠ "CheatEntry") (hasChildren : Bool) :
    Free name (if hasChildren then [.text (spaces 6)] else
      [.text (spaces 4), .closing "CheatEntry"]) := by
  cases hasChildren
  · simp [Free, h]
  · exact free_text name _

/-- A search in an entry's own text finds the first line of the name. -/
theorem getTag_own {name : String} (hplain : PlainName name) (hne : name ≠ "CheatEntry")
    {e : CheatEntry} (hsafe : e.Safe) (hasChildren : Bool) :
    getTag (render (ownPieces e hasChildren)) name = textOf name (entryFields e) := by
  have hfound : content name (ownPieces e hasChildren) = content name (entryFields e) := by
    rw [ownPieces, content_front_of_free (free_back hne hasChildren),
      content_append_of_free (free_front hne)]
  rw [getTag_render hplain (wellFormed_ownPieces hsafe hasChildren), hfound, textOf]

/-- The lines behind those that depend on the kind of entry. -/
def laterFields (e : CheatEntry) : List Piece :=
  leafIf e.active 6 "Activated" ['1'] ++
  leafIf e.showAsHex 6 "ShowAsHex" ['1'] ++
  leafIf (!e.showAsSigned) 6 "ShowAsSigned" ['0'] ++
  leafIf (decide (e.freezeMode ≠ .normal)) 6 "freezeMode" (decimal e.freezeMode.number) ++
  leafUnlessEmpty 6 "AssemblerScript" e.autoAsmScript ++
  leafUnlessEmpty 6 "LuaScript" e.luaScript ++
  leafIf (!e.color.isEmpty) 6 "Color" e.color ++
  optionsPieces e ++
  leafUnlessEmpty 6 "DropDownList" e.dropdownList ++
  hotkeysPieces e

/-- The names of the elements of the later lines. -/
def laterNames : List String :=
  ["Activated", "ShowAsHex", "ShowAsSigned", "freezeMode", "AssemblerScript", "LuaScript", "Color",
    "DropDownList", "Hotkeys"] ++ hotkeyNames

theorem free_laterFields {name : String} (h : name ∉ laterNames) (e : CheatEntry) :
    Free name (laterFields e) := by
  have hhotkeys : name ∉ "Hotkeys" :: hotkeyNames := fun hmem ↦
    h ((by decide : "Hotkeys" :: hotkeyNames ⊆ laterNames) hmem)
  have hhotkeysFree := (uses_hotkeysPieces e).free hhotkeys
  simp only [laterNames, List.mem_append, List.mem_cons, List.not_mem_nil, or_false, not_or] at h
  unfold laterFields
  repeat' apply Free.append
  · exact free_leafIf (by tauto) _ _ _
  · exact free_leafIf (by tauto) _ _ _
  · exact free_leafIf (by tauto) _ _ _
  · exact free_leafIf (by tauto) _ _ _
  · exact free_leafUnlessEmpty (by tauto) _ _
  · exact free_leafUnlessEmpty (by tauto) _ _
  · exact free_leafIf (by tauto) _ _ _
  · exact free_optionsPieces name e
  · exact free_leafUnlessEmpty (by tauto) _ _
  · exact hhotkeysFree

theorem entryFields_split (e : CheatEntry) :
    entryFields e = leaf 6 "ID" (printInt e.id) ++
      (leaf 6 "Description" (doubleQuote :: (xmlEscape e.description ++ [doubleQuote])) ++
        (kindPieces e ++ laterFields e)) := by
  unfold entryFields laterFields
  simp only [List.append_assoc]

/-- The id that is read is the entry's. -/
theorem textOf_id (e : CheatEntry) : textOf "ID" (entryFields e) = printInt e.id := by
  rw [entryFields_split]
  exact textOf_leaf 6 "ID" _ _

theorem textOf_description (e : CheatEntry) :
    textOf "Description" (entryFields e) =
      doubleQuote :: (xmlEscape e.description ++ [doubleQuote]) := by
  rw [entryFields_split, textOf_leaf_of_ne (by decide)]
  exact textOf_leaf 6 "Description" _ _

/-- A name that depends on the kind of entry is looked for among the lines of its kind. -/
theorem textOf_kind {name : String} (h : name ∉ ["ID", "Description"] ++ laterNames)
    (e : CheatEntry) : textOf name (entryFields e) = textOf name (kindPieces e) := by
  rw [List.mem_append, not_or] at h
  obtain ⟨hfront, hlater⟩ := h
  simp only [List.mem_cons, List.not_mem_nil, or_false, not_or] at hfront
  rw [entryFields_split, textOf_leaf_of_ne hfront.1, textOf_leaf_of_ne hfront.2, textOf, textOf,
    content_front_of_free (free_laterFields hlater e)]

/-- A name that does not depend on it is looked for behind. -/
theorem textOf_later {name : String}
    (h : name ∉ ["ID", "Description", "GroupHeader", "Collapsed"] ++ dataNames) (e : CheatEntry) :
    textOf name (entryFields e) = textOf name (laterFields e) := by
  have hkind : name ∉ ["GroupHeader", "Collapsed"] ++ dataNames := fun hmem ↦ h (by
    rw [List.mem_append] at hmem ⊢
    exact hmem.imp_left fun hmem ↦ List.mem_cons_of_mem _ (List.mem_cons_of_mem _ hmem))
  simp only [List.mem_append, List.mem_cons, not_or] at h
  rw [entryFields_split, textOf_leaf_of_ne h.1.1, textOf_leaf_of_ne h.1.2.1,
    textOf_append_of_free ((uses_kindPieces e).free hkind)]

/-! ### Flags and texts -/

theorem textOf_leafUnlessEmpty (indent : ℕ) (name : String) (text : Text) (rest : List Piece) :
    textOf name (leafUnlessEmpty indent name text ++ rest) =
      if text = [] then textOf name rest else xmlEscape text := by
  rw [leafUnlessEmpty, textOf_leafIf]
  cases text <;> rfl

theorem textOf_optionsPieces (name : String) (e : CheatEntry) (rest : List Piece) :
    textOf name (optionsPieces e ++ rest) = textOf name rest :=
  textOf_append_of_free (free_optionsPieces name e) rest

theorem textOf_hotkeysPieces {name : String} (h : name ∉ "Hotkeys" :: hotkeyNames) (e : CheatEntry) :
    textOf name (hotkeysPieces e) = [] :=
  textOf_of_free ((uses_hotkeysPieces e).free h)

/-- What is found among the later lines. -/
theorem textOf_laterFields (e : CheatEntry) :
    textOf "Activated" (laterFields e) = (if e.active then ['1'] else []) ∧
    textOf "ShowAsHex" (laterFields e) = (if e.showAsHex then ['1'] else []) ∧
    textOf "ShowAsSigned" (laterFields e) = (if !e.showAsSigned then ['0'] else []) ∧
    textOf "freezeMode" (laterFields e) =
      (if decide (e.freezeMode ≠ .normal) then decimal e.freezeMode.number else []) ∧
    textOf "AssemblerScript" (laterFields e) = xmlEscape e.autoAsmScript ∧
    textOf "LuaScript" (laterFields e) = xmlEscape e.luaScript ∧
    textOf "Color" (laterFields e) = e.color ∧
    textOf "DropDownList" (laterFields e) = xmlEscape e.dropdownList := by
  have hescape : ∀ s : Text, (if s = [] then [] else xmlEscape s) = xmlEscape s := by
    intro s
    split_ifs with hs
    · rw [hs]
      rfl
    · rfl
  have hcolor : (if (!e.color.isEmpty) = true then e.color else []) = e.color := by
    cases e.color <;> rfl
  unfold laterFields
  simp only [List.append_assoc]
  refine ⟨?_, ?_, ?_, ?_, ?_, ?_, ?_, ?_⟩
  all_goals
    simp only [textOf_leafIf, textOf_leafIf_of_ne, textOf_leafUnlessEmpty,
      textOf_leafUnlessEmpty_of_ne, textOf_optionsPieces, ne_eq, String.reduceEq, not_false_eq_true]
    rw [textOf_hotkeysPieces (by decide)]
  all_goals first | exact hescape _ | exact hcolor

/-! ### Kinds of entries -/

theorem kindPieces_group {e : CheatEntry} (h : e.isGroup = true) : kindPieces e = groupPieces e := by
  rw [kindPieces, if_pos h]

theorem kindPieces_script {e : CheatEntry} (h : e.isGroup = false) (hscript : e.autoAsmScript ≠ []) :
    kindPieces e = scriptPieces e := by
  rw [kindPieces, if_neg (by simp [h]), if_pos hscript]

theorem kindPieces_data {e : CheatEntry} (h : e.isGroup = false) (hdata : e.autoAsmScript = []) :
    kindPieces e = dataPieces e := by
  rw [kindPieces, if_neg (by simp [h]), if_neg (by simp [hdata])]

/-- What is found among the lines of a group; all but these names are for other kinds. -/
theorem textOf_groupPieces (e : CheatEntry) :
    textOf "GroupHeader" (groupPieces e) = ['1'] ∧
    textOf "Collapsed" (groupPieces e) = if e.collapsed then ['1'] else [] := by
  unfold groupPieces
  refine ⟨textOf_leaf _ _ _ _, ?_⟩
  rw [textOf_leaf_of_ne (by decide), ← List.append_nil (leafIf _ _ _ _), textOf_leafIf]
  rfl

/-- What is found among the lines of a script. -/
theorem textOf_scriptPieces (e : CheatEntry) :
    textOf "Address" (scriptPieces e) = e.addressString ∧
    textOf "VariableType" (scriptPieces e) = "Auto Assembler Script".toList := by
  unfold scriptPieces
  constructor
  · rw [textOf_leafIf, textOf_of_free (free_leaf (by decide) _ _)]
    cases e.addressString <;> rfl
  · rw [textOf_leafIf_of_ne (by decide), ← List.append_nil (leaf _ _ _), textOf_leaf]

/-- Whether the writer has a line for the length. -/
def HasLength (e : CheatEntry) : Prop :=
  (e.type = .string ∨ e.type = .unicodeString ∨ e.type = .byteArray) ∧ 0 < e.length

instance (e : CheatEntry) : Decidable (HasLength e) := inferInstanceAs (Decidable (_ ∧ _))

/-- What is found among the lines for the length. -/
theorem textOf_lengthPieces (e : CheatEntry) (rest : List Piece) :
    textOf "Length" (lengthPieces e ++ rest) =
      (if HasLength e then printInt e.length else textOf "Length" rest) ∧
    textOf "Unicode" (lengthPieces e ++ rest) =
      if e.type = .unicodeString then ['1'] else if e.type = .string then ['0']
        else textOf "Unicode" rest := by
  have hne : "Length" ≠ "Unicode" := by decide
  unfold lengthPieces HasLength
  by_cases hstring : e.type = .string ∨ e.type = .unicodeString
  · have hlength : (e.type = .string ∨ e.type = .unicodeString ∨ e.type = .byteArray) ∧ 0 < e.length ↔
        0 < e.length := by tauto
    rw [if_pos hstring, List.append_assoc, textOf_leafIf, textOf_leaf_of_ne hne,
      textOf_leafIf_of_ne hne.symm, textOf_leaf]
    simp only [hlength, decide_eq_true_eq, true_and]
    rcases hstring with htype | htype <;> simp [htype]
  · rw [if_neg hstring, textOf_leafIf, textOf_leafIf_of_ne hne.symm]
    rw [not_or] at hstring
    simp [hstring.1, hstring.2]

/-! ### Inner elements -/

/-- What is found of lines between tags. -/
theorem textOf_block (indent : ℕ) (name : String) {lines : List Piece} (h : Free name lines)
    (rest : List Piece) :
    textOf name (block indent name lines ++ rest) =
      render (between ['\n'] lines (spaces indent)) := by
  have hshape : block indent name lines ++ rest = [.text (spaces indent)] ++ .opening name ::
      (between ['\n'] lines (spaces indent) ++ .closing name :: (.text ['\n'] :: rest)) := by
    simp [block, tagLine, between]
  have hinner : Free name (between ['\n'] lines (spaces indent)) :=
    (free_text name ['\n']).append (h.append (free_text name (spaces indent)))
  rw [textOf, hshape, content_element (free_text name (spaces indent)) hinner]
  rfl

theorem getTag_block {name : String} (hname : PlainName name) {text : Text} (h : '<' ∉ text) :
    getTag (openTag name ++ text ++ closeTag name) name = text := by
  have hwf : WellFormed [.opening name, .text text, .closing name] :=
    List.forall_mem_cons.mpr ⟨hname, List.forall_mem_cons.mpr ⟨h, List.forall_mem_singleton.mpr hname⟩⟩
  have hshape : openTag name ++ text ++ closeTag name =
      render [.opening name, .text text, .closing name] := by
    simp [render, Piece.render, Piece.body, openTag, closeTag]
  have hfound : content name [.opening name, .text text, .closing name] = some [.text text] :=
    content_element (free_nil name) (free_text name text) []
  rw [hshape, getTag_render hname hwf, hfound]
  simp [render, Piece.render]

/-- The blocks of lines of one name are found one behind the other. -/
theorem getTagBlocks_leaves {α : Type} {name : String} (hname : PlainName name) (indent : ℕ)
    {items : List α} {text : α → Text} (htext : ∀ item ∈ items, '<' ∉ text item)
    {front back : List Piece} (hfront : WellFormed front) (hback : WellFormed back)
    (hfrontFree : Free name front) (hbackFree : Free name back) :
    getTagBlocks (render (front ++ (items.flatMap (fun item ↦ leaf indent name (text item)) ++ back)))
        name = items.map fun item ↦ openTag name ++ text item ++ closeTag name := by
  induction items generalizing front with
  | nil =>
    exact getTagBlocks_of_not_mem hname (wellFormed_append hfront hback)
      (hfrontFree.append hbackFree).1
  | cons item items ih =>
    obtain ⟨hitem, hitems⟩ := List.forall_mem_cons.mp htext
    have hlines : WellFormed (items.flatMap fun item ↦ leaf indent name (text item)) :=
      wellFormed_flatMap fun item hmem ↦ wellFormed_leaf hname (hitems item hmem)
    have hshape : front ++ ((item :: items).flatMap (fun item ↦ leaf indent name (text item)) ++ back) =
        (front ++ [.text (spaces indent)]) ++ .opening name :: ([.text (text item)] ++ .closing name ::
          ([.text ['\n']] ++ (items.flatMap (fun item ↦ leaf indent name (text item)) ++ back))) := by
      simp [leaf]
    have hwhole : WellFormed (front ++
        ((item :: items).flatMap (fun item ↦ leaf indent name (text item)) ++ back)) :=
      wellFormed_append hfront (wellFormed_append
        (wellFormed_append (wellFormed_leaf hname hitem) hlines) hback)
    rw [hshape] at hwhole ⊢
    rw [getTagBlocks_element hname hwhole (hfrontFree.append (free_text name _)).1
        (free_text name _).2,
      ih hitems (List.forall_mem_singleton.mpr wellFormed_newline) (free_text name _)]
    simp [render, Piece.render]

/-! ### Data records -/

theorem stoll_offsetText {off : ℤ} (hlow : -(2 ^ 63) ≤ off) (hhigh : off < 2 ^ 63) :
    stoll 16 (offsetText off) = some off := by
  have hnonneg := readInteger_toDigits (by decide : 1 < 16) (by decide) off.natAbs (stops_nil 16)
  have hneg := readInteger_neg_toDigits (by decide : 1 < 16) (by decide) off.natAbs (stops_nil 16)
  rw [List.append_nil] at hnonneg hneg
  unfold offsetText stoll
  split_ifs with hsign
  · rw [hex, hneg]
    dsimp only
    rw [if_pos rfl, if_pos (by omega)]
    congr 1
    omega
  · rw [hex, hnonneg]
    dsimp only
    rw [if_neg Bool.false_ne_true, if_pos (by omega)]
    congr 1
    omega

/-- The offsets that are read from the text of the offsets' element. -/
def offsetsOfXml (offsetsXml : Text) : List ℤ :=
  (getTagBlocks offsetsXml "Offset").filterMap fun offBlock ↦ stoll 16 (getTag offBlock "Offset")

/-- Offsets that fit are read back. -/
theorem offsetsOfXml_offsets {offsets : List ℤ}
    (h : ∀ off ∈ offsets, -(2 ^ 63) ≤ off ∧ off < 2 ^ 63) :
    offsetsOfXml (render (between ['\n']
      (offsets.flatMap fun off ↦ leaf 8 "Offset" (offsetText off)) (spaces 6))) = offsets := by
  have hplain : ∀ off ∈ offsets, '<' ∉ offsetText off := fun off _ ↦ lt_not_mem_offsetText off
  have hblocks := getTagBlocks_leaves (by decide : PlainName "Offset") 8 hplain
    (by decide : WellFormed [.text ['\n']]) (by decide : WellFormed [.text (spaces 6)])
    (free_text _ _) (free_text _ _)
  have hread : ∀ off ∈ offsets, stoll 16 (getTag
      (openTag "Offset" ++ offsetText off ++ closeTag "Offset") "Offset") = some off := by
    intro off hoff
    rw [getTag_block (by decide) (lt_not_mem_offsetText off)]
    exact stoll_offsetText (h off hoff).1 (h off hoff).2
  have hshape : ∀ lines : List Piece, between ['\n'] lines (spaces 6) =
      [.text ['\n']] ++ (lines ++ [.text (spaces 6)]) := fun lines ↦ rfl
  rw [offsetsOfXml, hshape, hblocks, List.filterMap_map]
  calc offsets.filterMap _ = offsets.filterMap some := List.filterMap_congr hread
    _ = offsets := List.filterMap_some

theorem textOf_offsetsPieces (e : CheatEntry) (rest : List Piece) :
    textOf "Offsets" (offsetsPieces e ++ rest) =
      if e.offsets = [] then textOf "Offsets" rest else render (between ['\n']
        (e.offsets.flatMap fun off ↦ leaf 8 "Offset" (offsetText off)) (spaces 6)) := by
  unfold offsetsPieces
  cases hoffsets : e.offsets with
  | nil => rfl
  | cons off offsets =>
    rw [if_neg (by simp), if_neg (by simp)]
    exact textOf_block 6 "Offsets"
      (free_flatMap fun off _ ↦ free_leaf (by decide) 8 (offsetText off)) rest

/-- What is found among the lines of a data record. -/
theorem textOf_dataPieces (e : CheatEntry) :
    textOf "Address" (dataPieces e) =
      (if e.addressString = [] then hex e.address else e.addressString) ∧
    textOf "VariableType" (dataPieces e) = typeToStr e.type ∧
    textOf "Length" (dataPieces e) = (if HasLength e then printInt e.length else []) ∧
    textOf "Unicode" (dataPieces e) =
      (if e.type = .unicodeString then ['1'] else if e.type = .string then ['0'] else []) ∧
    textOf "Offsets" (dataPieces e) = (if e.offsets = [] then [] else render (between ['\n']
      (e.offsets.flatMap fun off ↦ leaf 8 "Offset" (offsetText off)) (spaces 6))) := by
  have hlast : ∀ {name : String}, name ≠ "Value" →
      textOf name (leafUnlessEmpty 6 "Value" e.value) = [] := fun hne ↦
    textOf_of_free (free_leafUnlessEmpty hne 6 e.value)
  have hoffsets : ∀ {name : String}, name ∉ ["Offsets", "Offset"] → name ≠ "Value" →
      textOf name (offsetsPieces e ++ leafUnlessEmpty 6 "Value" e.value) = [] := fun hname hne ↦ by
    rw [textOf_append_of_free ((uses_offsetsPieces e).free hname), hlast hne]
  unfold dataPieces
  simp only [List.append_assoc]
  refine ⟨textOf_leaf _ _ _ _, ?_, ?_, ?_, ?_⟩
  · rw [textOf_leaf_of_ne (by decide), textOf_leaf]
  · rw [textOf_leaf_of_ne (by decide), textOf_leaf_of_ne (by decide), (textOf_lengthPieces e _).1,
      hoffsets (by decide) (by decide)]
  · rw [textOf_leaf_of_ne (by decide), textOf_leaf_of_ne (by decide), (textOf_lengthPieces e _).2,
      hoffsets (by decide) (by decide)]
  · rw [textOf_leaf_of_ne (by decide), textOf_leaf_of_ne (by decide),
      textOf_append_of_free ((uses_lengthPieces e).free (by decide)), textOf_offsetsPieces,
      hlast (by decide)]

/-! ### Values -/

/-- The first value that a hotkey is written with. -/
def firstValue : List HkOut → Text
  | [] => []
  | hk :: hks => if hk.value = [] then firstValue hks else hk.value

theorem textOf_value_hotkeyLines (hkId : ℕ) (hks : List HkOut) (rest : List Piece) :
    textOf "Value" (hotkeyLines hkId hks ++ rest) =
      if firstValue hks = [] then textOf "Value" rest else xmlEscape (firstValue hks) := by
  induction hks generalizing hkId with
  | nil => rfl
  | cons hk hks ih =>
    have hkeys : Free "Value" (block 10 "Keys"
        ((keyStringToVKs hk.keys).flatMap fun vk ↦ leaf 12 "Key" (printInt vk))) :=
      free_block (by decide) 10 (free_flatMap fun vk _ ↦ free_leaf (by decide) 12 (printInt vk))
    have hline : ∀ tag : Piece, tag ≠ .opening "Value" → tag ≠ .closing "Value" →
        Free "Value" (tagLine 8 tag) := by
      intro tag hopen hclose
      simp [Free, tagLine, hopen.symm, hclose.symm]
    rw [hotkeyLines, hotkeyPieces, block]
    simp only [List.append_assoc]
    rw [textOf_append_of_free (hline _ (by decide) (by decide)), textOf_leaf_of_ne (by decide),
      textOf_append_of_free hkeys, textOf_leafUnlessEmpty, textOf_leaf_of_ne (by decide),
      textOf_append_of_free (hline _ (by decide) (by decide)), ih, firstValue]
    split_ifs <;> rfl

theorem textOf_value_hotkeysPieces (e : CheatEntry) :
    textOf "Value" (hotkeysPieces e) = xmlEscape (firstValue (hotkeysOf e)) := by
  unfold hotkeysPieces
  cases hhks : hotkeysOf e with
  | nil => rfl
  | cons hk hks =>
    have hopen : Free "Value" (tagLine 6 (.opening "Hotkeys")) := by simp [Free, tagLine]
    have hclose : Free "Value" (tagLine 6 (.closing "Hotkeys")) := by simp [Free, tagLine]
    rw [if_neg (by simp), block, List.append_assoc, textOf_append_of_free hopen,
      textOf_value_hotkeyLines, textOf_of_free hclose]
    split_ifs with hvalue
    · rw [hvalue]
      rfl
    · rfl

/-- The value that is found of an entry that is no group: its own, or else the first of its hotkeys.
-/
theorem textOf_value {e : CheatEntry} (h : e.isGroup = false) :
    textOf "Value" (entryFields e) = xmlEscape
      (if e.autoAsmScript = [] ∧ e.value ≠ [] then e.value else firstValue (hotkeysOf e)) := by
  have hlater : textOf "Value" (laterFields e) = xmlEscape (firstValue (hotkeysOf e)) := by
    unfold laterFields
    simp only [List.append_assoc]
    simp only [textOf_leafIf_of_ne, textOf_leafUnlessEmpty_of_ne, textOf_optionsPieces, ne_eq,
      String.reduceEq, not_false_eq_true]
    exact textOf_value_hotkeysPieces e
  rw [entryFields_split, textOf_leaf_of_ne (by decide), textOf_leaf_of_ne (by decide)]
  by_cases hscript : e.autoAsmScript = []
  · rw [kindPieces_data h hscript, dataPieces]
    simp only [List.append_assoc]
    rw [textOf_leaf_of_ne (by decide), textOf_leaf_of_ne (by decide),
      textOf_append_of_free ((uses_lengthPieces e).free (by decide)),
      textOf_append_of_free ((uses_offsetsPieces e).free (by decide)), textOf_leafUnlessEmpty, hlater]
    by_cases hvalue : e.value = []
    · rw [if_pos hvalue, if_neg (by simp [hvalue])]
    · rw [if_neg hvalue, if_pos ⟨hscript, hvalue⟩]
  · rw [kindPieces_script h hscript,
      textOf_append_of_free ((uses_scriptPieces e).free (by decide)), hlater,
      if_neg fun h ↦ hscript h.1]

end Cecore.Table
