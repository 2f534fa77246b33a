import Cecore.Table.XmlFields
import Cecore.Table.XmlReading

/-!
# Hotkeys in the XML form

A hotkey in canonical form is written as virtual-key codes and read back as the same text
(`vksToKeyString_keyStringToVKs`).
-/

set_option autoImplicit false
set_option relaxedAutoImplicit false

namespace Cecore.Table

open Library Library.Markup

/-! ### Canonical texts -/

/-- The keys that have a code and a name of their own. -/
def knownKeys : List Text :=
  ["Backspace", "Tab", "Return", "Esc", "Space", "PgUp", "PgDown", "End", "Home", "Left", "Up",
    "Right", "Down", "Ins", "Del"].map String.toList ++
  "0123456789ABCDEFGHIJKLMNOPQRSTUVWXYZ".toList.map (fun c ↦ [c]) ++
  ["F1", "F2", "F3", "F4", "F5", "F6", "F7", "F8", "F9", "F10", "F11", "F12"].map String.toList

/-- The tokens of a hotkey: its modifiers in their order and its key. -/
def chordTokens (hasCtrl hasAlt hasShift hasMeta : Bool) (key : Option Text) : List Text :=
  (if hasCtrl then ["Ctrl".toList] else []) ++ (if hasAlt then ["Alt".toList] else []) ++
    (if hasShift then ["Shift".toList] else []) ++ (if hasMeta then ["Meta".toList] else []) ++
    key.toList

/-- A hotkey in canonical form over known keys. -/
def IsCanonical (keys : Text) : Prop :=
  ∃ hasCtrl hasAlt hasShift hasMeta key, (∀ k ∈ key, k ∈ knownKeys) ∧
    keys = ['+'].intercalate (chordTokens hasCtrl hasAlt hasShift hasMeta key)

/-- A key is found under its code, and its name has nothing in it that a text of keys is split or
trimmed at. -/
structure KeepsToken (tok : Text) : Prop where
  code_ne_zero : keyTokenToVK tok ≠ 0
  name_code : vkToKeyToken (keyTokenToVK tok) = tok
  plus_not_mem : '+' ∉ tok
  trim : trimBlanks tok = tok

instance (tok : Text) : Decidable (KeepsToken tok) :=
  decidable_of_iff (keyTokenToVK tok ≠ 0 ∧ vkToKeyToken (keyTokenToVK tok) = tok ∧ '+' ∉ tok ∧
    trimBlanks tok = tok) ⟨fun h ↦ ⟨h.1, h.2.1, h.2.2.1, h.2.2.2⟩, fun h ↦ ⟨h.1, h.2, h.3, h.4⟩⟩

theorem keepsToken_knownKeys : ∀ tok ∈ knownKeys, KeepsToken tok := by decide

theorem keepsToken_modifiers : ∀ tok ∈ ["Ctrl", "Alt", "Shift", "Meta"].map String.toList,
    KeepsToken tok := by
  decide

/-- A known key is no modifier, and its name does not end in a plus. -/
theorem knownKeys_plain : ∀ tok ∈ knownKeys, tok ∉ ["Ctrl", "Alt", "Shift", "Meta"].map String.toList ∧
    tok ≠ [] ∧ tok.getLast? ≠ some '+' := by
  decide

theorem keepsToken_chordTokens {hasCtrl hasAlt hasShift hasMeta : Bool} {key : Option Text}
    (hkey : ∀ k ∈ key, k ∈ knownKeys) :
    ∀ tok ∈ chordTokens hasCtrl hasAlt hasShift hasMeta key, KeepsToken tok := by
  have hmodifier : ∀ (present : Bool) (tok : Text),
      tok ∈ ["Ctrl", "Alt", "Shift", "Meta"].map String.toList →
        ∀ t ∈ (if present then [tok] else []), KeepsToken t := by
    intro present tok htok t ht
    cases present
    · cases ht
    · exact keepsToken_modifiers t (List.mem_singleton.mp ht ▸ htok)
  intro tok htok
  simp only [chordTokens, List.mem_append, Option.mem_toList] at htok
  rcases htok with (((htok | htok) | htok) | htok) | htok
  · exact hmodifier _ _ (by decide) tok htok
  · exact hmodifier _ _ (by decide) tok htok
  · exact hmodifier _ _ (by decide) tok htok
  · exact hmodifier _ _ (by decide) tok htok
  · exact keepsToken_knownKeys tok (hkey tok htok)

/-- The codes of a text of known tokens. -/
theorem keyStringToVKs_intercalate {toks : List Text} (h : ∀ tok ∈ toks, KeepsToken tok) :
    keyStringToVKs (['+'].intercalate toks) = toks.map keyTokenToVK := by
  by_cases hnil : toks = []
  · rw [hnil]
    decide
  · have hcode : ∀ tok ∈ toks, (if keyTokenToVK (trimBlanks tok) = 0 then none
        else some (keyTokenToVK (trimBlanks tok))) = some (keyTokenToVK tok) := by
      intro tok htok
      rw [(h tok htok).trim, if_neg (h tok htok).code_ne_zero]
    rw [keyStringToVKs, List.splitOn_intercalate '+' (fun tok htok ↦ (h tok htok).plus_not_mem) hnil]
    dsimp only
    rw [List.filterMap_congr hcode]
    exact congrFun List.filterMap_eq_map toks

/-- A token that is a key is kept as the key of a chord without one. -/
theorem add_key {chord : KeyChord} {k : Text} (hk : k ∈ knownKeys) (hempty : chord.key = []) :
    chord.add (keyTokenToVK k) = { chord with key := k } := by
  obtain ⟨hplain, hne, -⟩ := knownKeys_plain k hk
  simp only [List.map_cons, List.map_nil, List.mem_cons, List.not_mem_nil, or_false, not_or] at hplain
  obtain ⟨hctrl, halt, hshift, hmeta⟩ := hplain
  unfold KeyChord.add
  rw [(keepsToken_knownKeys k hk).name_code]
  dsimp only
  rw [if_neg hctrl, if_neg halt, if_neg hshift, if_neg hmeta, if_pos ⟨hne, hempty⟩]

/-- The modifiers set the flags of a chord. -/
theorem foldl_add_modifiers (hasCtrl hasAlt hasShift hasMeta : Bool) :
    ((chordTokens hasCtrl hasAlt hasShift hasMeta none).map keyTokenToVK).foldl KeyChord.add {} =
      ⟨hasCtrl, hasAlt, hasShift, hasMeta, []⟩ := by
  cases hasCtrl <;> cases hasAlt <;> cases hasShift <;> cases hasMeta <;> rfl

/-- The text of a chord is its tokens with a plus between them. -/
theorem text_chord (hasCtrl hasAlt hasShift hasMeta : Bool) {key : Option Text}
    (hkey : ∀ k ∈ key, k ≠ [] ∧ k.getLast? ≠ some '+') :
    KeyChord.text ⟨hasCtrl, hasAlt, hasShift, hasMeta, key.getD []⟩ =
      ['+'].intercalate (chordTokens hasCtrl hasAlt hasShift hasMeta key) := by
  cases key with
  | none => cases hasCtrl <;> cases hasAlt <;> cases hasShift <;> cases hasMeta <;> rfl
  | some k =>
    obtain ⟨hne, hlast⟩ := hkey k rfl
    have hfront : ∀ modifiers : Text, (modifiers ++ k).getLast? ≠ some '+' := by
      intro modifiers
      rw [List.getLast?_append_of_ne_nil _ hne]
      exact hlast
    unfold KeyChord.text
    dsimp only [Option.getD_some]
    rw [if_neg (hfront _)]
    cases hasCtrl <;> cases hasAlt <;> cases hasShift <;> cases hasMeta <;>
      simp [chordTokens, List.intercalate]

/-- A canonical text of keys is read back from its codes. -/
theorem vksToKeyString_keyStringToVKs {keys : Text} (h : IsCanonical keys) :
    vksToKeyString (keyStringToVKs keys) = keys := by
  obtain ⟨hasCtrl, hasAlt, hasShift, hasMeta, key, hkey, rfl⟩ := h
  have hchord : ((chordTokens hasCtrl hasAlt hasShift hasMeta key).map keyTokenToVK).foldl
      KeyChord.add {} = ⟨hasCtrl, hasAlt, hasShift, hasMeta, key.getD []⟩ := by
    cases key with
    | none => exact foldl_add_modifiers hasCtrl hasAlt hasShift hasMeta
    | some k =>
      have hshape : chordTokens hasCtrl hasAlt hasShift hasMeta (some k) =
          chordTokens hasCtrl hasAlt hasShift hasMeta none ++ [k] := by
        simp [chordTokens]
      rw [hshape, List.map_append, List.foldl_append, foldl_add_modifiers]
      exact add_key (hkey k rfl) rfl
  rw [keyStringToVKs_intercalate (keepsToken_chordTokens hkey), vksToKeyString, hchord]
  exact text_chord _ _ _ _ fun k hk ↦ (knownKeys_plain k (hkey k hk)).2

/-! ### Hotkeys, written and read -/

/-- The codes of keys are those of bytes. -/
theorem keyTokenToVK_bounds (t : Text) : 0 ≤ keyTokenToVK t ∧ keyTokenToVK t < 256 := by
  have htable : ∀ code ∈ tokenCodes, 0 ≤ code.2 ∧ code.2 < 256 := by decide
  unfold keyTokenToVK
  cases hfind : tokenCodes.find? fun code ↦ decide (code.1.toList = t) with
  | some code => exact htable code (List.mem_of_find?_eq_some hfind)
  | none =>
    dsimp only
    split
    · next c =>
      have hnine : ∀ bound : Char, c ≤ bound → (c.toNat : ℤ) ≤ bound.toNat := fun bound h ↦
        Int.ofNat_le.mpr (UInt32.le_iff_toNat_le.mp h)
      split_ifs with hdigit hletter
      · have := hnine '9' hdigit.2
        have : ('9'.toNat : ℤ) = 57 := rfl
        omega
      · have := hnine 'Z' hletter.2
        have : ('Z'.toNat : ℤ) = 90 := rfl
        omega
      · decide
    · next number _ =>
      cases stoi 10 number with
      | none => decide
      | some n =>
        dsimp only
        split_ifs <;> omega
    · decide

theorem mem_keyStringToVKs {s : Text} {vk : ℤ} (h : vk ∈ keyStringToVKs s) : 0 ≤ vk ∧ vk < 256 := by
  obtain ⟨tok, -, htok⟩ := List.mem_filterMap.mp h
  dsimp only at htok
  split_ifs at htok
  rw [← Option.some.inj htok]
  exact keyTokenToVK_bounds _

/-- The lines of a hotkey between its tags. -/
def hotkeyInner (hkId : ℕ) (hk : HkOut) : List Piece :=
  leaf 10 "Action" (decimal hk.action) ++
    block 10 "Keys" ((keyStringToVKs hk.keys).flatMap fun vk ↦ leaf 12 "Key" (printInt vk)) ++
    leafUnlessEmpty 10 "Value" hk.value ++
    leaf 10 "ID" (decimal hkId)

/-- The block of a hotkey. -/
def hotkeyText (hkId : ℕ) (hk : HkOut) : Text :=
  openTag "Hotkey" ++ render (between ['\n'] (hotkeyInner hkId hk) (spaces 8)) ++ closeTag "Hotkey"

theorem free_keyLines {name : String} (hkeys : name ≠ "Keys") (hkey : name ≠ "Key") (vks : List ℤ) :
    Free name (block 10 "Keys" (vks.flatMap fun vk ↦ leaf 12 "Key" (printInt vk))) :=
  free_block hkeys 10 (free_flatMap fun vk _ ↦ free_leaf hkey 12 (printInt vk))

theorem wellFormed_hotkeyInner (hkId : ℕ) (hk : HkOut) : WellFormed (hotkeyInner hkId hk) := by
  refine wellFormed_append (wellFormed_append (wellFormed_append ?_ ?_) ?_) ?_
  · exact wellFormed_leaf (by decide) (lt_not_mem_toDigits (by decide) (by decide) _)
  · exact wellFormed_block (by decide) (wellFormed_flatMap fun vk _ ↦
      wellFormed_leaf (by decide) (lt_not_mem_printInt vk))
  · exact wellFormed_leafUnlessEmpty _ (by decide)
  · exact wellFormed_leaf (by decide) (lt_not_mem_toDigits (by decide) (by decide) _)

theorem free_hotkeyInner (hkId : ℕ) (hk : HkOut) : Free "Hotkey" (hotkeyInner hkId hk) := by
  refine Free.append (Free.append (Free.append ?_ ?_) ?_) ?_
  · exact free_leaf (by decide) _ _
  · exact free_keyLines (by decide) (by decide) _
  · exact free_leafUnlessEmpty (by decide) _ _
  · exact free_leaf (by decide) _ _

/-- A search in the block of a hotkey finds the first line of the name. -/
theorem getTag_hotkeyText {name : String} (hplain : PlainName name) (hne : name ≠ "Hotkey")
    (hkId : ℕ) (hk : HkOut) :
    getTag (hotkeyText hkId hk) name = textOf name (hotkeyInner hkId hk) := by
  have hshape : hotkeyText hkId hk = render ([.opening "Hotkey", .text ['\n']] ++
      (hotkeyInner hkId hk ++ [.text (spaces 8), .closing "Hotkey"])) := by
    simp [hotkeyText, between, render, Piece.render, Piece.body, openTag, closeTag]
  have hwf : WellFormed ([.opening "Hotkey", .text ['\n']] ++
      (hotkeyInner hkId hk ++ [.text (spaces 8), .closing "Hotkey"])) :=
    wellFormed_append (by decide) (wellFormed_append (wellFormed_hotkeyInner hkId hk) (by decide))
  have hfront : Free name [.opening "Hotkey", .text ['\n']] := by simp [Free, hne]
  have hback : Free name [.text (spaces 8), .closing "Hotkey"] := by simp [Free, hne]
  rw [hshape, getTag_render hplain hwf, content_append_of_free hfront, content_front_of_free hback,
    textOf]

/-- The codes that are read from the text of the keys' element. -/
def keysOfXml (keysXml : Text) : List ℤ :=
  (getTagBlocks keysXml "Key").filterMap fun kb ↦ stoi 10 (getTag kb "Key")

theorem keysOfXml_keys {vks : List ℤ} (h : ∀ vk ∈ vks, 0 ≤ vk ∧ vk < 256) :
    keysOfXml (render (between ['\n'] (vks.flatMap fun vk ↦ leaf 12 "Key" (printInt vk))
      (spaces 10))) = vks := by
  have hplain : ∀ vk ∈ vks, '<' ∉ printInt vk := fun vk _ ↦ lt_not_mem_printInt vk
  have hblocks := getTagBlocks_leaves (by decide : PlainName "Key") 12 hplain
    (by decide : WellFormed [.text ['\n']]) (by decide : WellFormed [.text (spaces 10)])
    (free_text _ _) (free_text _ _)
  have hread : ∀ vk ∈ vks, stoi 10 (getTag (openTag "Key" ++ printInt vk ++ closeTag "Key") "Key") =
      some vk := by
    intro vk hvk
    obtain ⟨hlow, hhigh⟩ := h vk hvk
    have hstoi := stoi_printInt (n := vk) (by omega) (by omega) (stops_nil 10)
    rw [List.append_nil] at hstoi
    rw [getTag_block (by decide) (lt_not_mem_printInt vk), hstoi]
  have hshape : ∀ lines : List Piece, between ['\n'] lines (spaces 10) =
      [.text ['\n']] ++ (lines ++ [.text (spaces 10)]) := fun lines ↦ rfl
  rw [keysOfXml, hshape, hblocks, List.filterMap_map]
  calc vks.filterMap _ = vks.filterMap some := List.filterMap_congr hread
    _ = vks := List.filterMap_some

/-- A written hotkey is bound again, its keys as their codes tell them. -/
theorem readHotkey_hotkeyText (e : CheatEntry) (hkId : ℕ) {hk : HkOut} (haction : hk.action < 8) :
    readHotkey e (hotkeyText hkId hk) =
      bindHotkey e hk.action (vksToKeyString (keyStringToVKs hk.keys)) hk.value := by
  have hAction : getTag (hotkeyText hkId hk) "Action" = decimal hk.action := by
    rw [getTag_hotkeyText (by decide) (by decide), hotkeyInner]
    simp only [List.append_assoc]
    exact textOf_leaf 10 "Action" _ _
  have hKeys : keysOfXml (getTag (hotkeyText hkId hk) "Keys") = keyStringToVKs hk.keys := by
    rw [getTag_hotkeyText (by decide) (by decide), hotkeyInner]
    simp only [List.append_assoc]
    rw [textOf_leaf_of_ne (by decide),
      textOf_block 10 "Keys" (free_flatMap fun vk _ ↦ free_leaf (by decide) 12 (printInt vk))]
    exact keysOfXml_keys fun vk hvk ↦ mem_keyStringToVKs hvk
  have hValue : xmlUnescape (getTag (hotkeyText hkId hk) "Value") = hk.value := by
    rw [getTag_hotkeyText (by decide) (by decide), hotkeyInner]
    simp only [List.append_assoc]
    rw [textOf_leaf_of_ne (by decide), textOf_append_of_free (free_keyLines (by decide) (by decide) _),
      textOf_leafUnlessEmpty, textOf_of_free (free_leaf (by decide) _ _)]
    split_ifs with hvalue
    · rw [hvalue]
      rfl
    · exact xmlUnescape_xmlEscape _
  have hnumber : stoi 10 (decimal hk.action) = some (hk.action : ℤ) := by
    have hstoi := stoi_printInt (n := hk.action) (by omega) (by omega) (stops_nil 10)
    rwa [List.append_nil] at hstoi
  have hnonempty : decimal hk.action ≠ [] := toDigits_ne_nil (by decide) (by decide) _
  unfold readHotkey
  dsimp only
  rw [hAction, if_neg hnonempty, hnumber, hValue]
  change bindHotkey e _ (vksToKeyString (keysOfXml _)) _ = _
  rw [hKeys]
  rfl

/-! ### The hotkeys of an entry -/

/-- The text that keys are read back as. -/
def keysRead (keys : Text) : Text := vksToKeyString (keyStringToVKs keys)

/-- Written hotkeys bound one behind the other. -/
def bindHotkeys (e : CheatEntry) (hks : List HkOut) : CheatEntry :=
  hks.foldl (fun e hk ↦ bindHotkey e hk.action (keysRead hk.keys) hk.value) e

/-- The hotkeys that are read of an entry. -/
def hotkeysRead (e : CheatEntry) : CheatEntry where
  hotkeyKeys := keysRead e.hotkeyKeys
  increaseHotkeyKeys := keysRead e.increaseHotkeyKeys
  decreaseHotkeyKeys := keysRead e.decreaseHotkeyKeys
  setValueHotkeyKeys := keysRead e.setValueHotkeyKeys
  setValueHotkeyValue := if e.setValueHotkeyKeys = [] then [] else e.setValueHotkeyValue
  hotkeyStep :=
    if e.increaseHotkeyKeys = [] ∧ e.decreaseHotkeyKeys = [] then [] else e.hotkeyStep

theorem action_hotkeysOf {e : CheatEntry} : ∀ hk ∈ hotkeysOf e, hk.action < 8 := by
  have hcase : ∀ {present : Prop} [Decidable present] {hk : HkOut}, hk.action < 8 →
      ∀ hk' ∈ (if present then [] else [hk]), hk'.action < 8 := by
    intro present _ hk haction hk' hmem
    split_ifs at hmem
    · cases hmem
    · rw [List.mem_singleton.mp hmem]
      exact haction
  intro hk hhk
  simp only [hotkeysOf, List.mem_append] at hhk
  rcases hhk with ((hhk | hhk) | hhk) | hhk
  · exact hcase (by decide : 0 < 8) hk hhk
  · exact hcase (by decide : 5 < 8) hk hhk
  · exact hcase (by decide : 6 < 8) hk hhk
  · exact hcase (by decide : 7 < 8) hk hhk

/-- The reader binds the written hotkeys in order. -/
theorem foldl_readHotkey (hkId : ℕ) {hks : List HkOut} (hactions : ∀ hk ∈ hks, hk.action < 8)
    (e : CheatEntry) {front back : List Piece} (hfront : WellFormed front) (hback : WellFormed back)
    (hfrontFree : Free "Hotkey" front) (hbackFree : Free "Hotkey" back) :
    (getTagBlocks (render (front ++ (hotkeyLines hkId hks ++ back))) "Hotkey").foldl readHotkey e =
      bindHotkeys e hks := by
  induction hks generalizing hkId e front with
  | nil =>
    rw [hotkeyLines, List.nil_append, getTagBlocks_of_not_mem (by decide)
      (wellFormed_append hfront hback) (hfrontFree.append hbackFree).1]
    rfl
  | cons hk hks ih =>
    obtain ⟨haction, hothers⟩ := List.forall_mem_cons.mp hactions
    have hshape : front ++ (hotkeyLines hkId (hk :: hks) ++ back) =
        (front ++ [.text (spaces 8)]) ++ .opening "Hotkey" ::
          (between ['\n'] (hotkeyInner hkId hk) (spaces 8) ++ .closing "Hotkey" ::
            ([.text ['\n']] ++ (hotkeyLines (hkId + 1) hks ++ back))) := by
      simp [hotkeyLines, hotkeyPieces, hotkeyInner, block, tagLine, between]
    have hwhole : WellFormed (front ++ (hotkeyLines hkId (hk :: hks) ++ back)) :=
      wellFormed_append hfront (wellFormed_append (wellFormed_hotkeyLines _ _) hback)
    have hinner : Free "Hotkey" (between ['\n'] (hotkeyInner hkId hk) (spaces 8)) :=
      (free_text _ ['\n']).append ((free_hotkeyInner hkId hk).append (free_text _ (spaces 8)))
    rw [hshape] at hwhole ⊢
    rw [getTagBlocks_element (by decide) hwhole (hfrontFree.append (free_text _ _)).1 hinner.2,
      List.foldl_cons]
    change List.foldl readHotkey (readHotkey e (hotkeyText hkId hk)) _ = _
    rw [readHotkey_hotkeyText e hkId haction,
      ih (hkId + 1) hothers _ (List.forall_mem_singleton.mpr wellFormed_newline) (free_text _ _)]
    rfl

theorem keysRead_nil : keysRead [] = [] := by decide

/-- The hotkeys that an entry without hotkeys is given. -/
theorem bindHotkeys_hotkeysOf {e start : CheatEntry} (hstart : start.withHotkeys {} = start) :
    bindHotkeys start (hotkeysOf e) = start.withHotkeys (hotkeysRead e) := by
  rw [← hstart]
  unfold hotkeysOf hotkeysRead bindHotkeys CheatEntry.withHotkeys
  by_cases hkeys : e.hotkeyKeys = [] <;> by_cases hset : e.setValueHotkeyKeys = [] <;>
    by_cases hinc : e.increaseHotkeyKeys = [] <;> by_cases hdec : e.decreaseHotkeyKeys = [] <;>
    simp [bindHotkey, hkeys, hset, hinc, hdec, keysRead_nil]

theorem textOf_hotkeys (e : CheatEntry) :
    textOf "Hotkeys" (entryFields e) = if hotkeysOf e = [] then []
      else render (between ['\n'] (hotkeyLines 0 (hotkeysOf e)) (spaces 6)) := by
  rw [textOf_later (by decide)]
  unfold laterFields
  simp only [List.append_assoc]
  simp only [textOf_leafIf_of_ne, textOf_leafUnlessEmpty_of_ne, textOf_optionsPieces, ne_eq,
    String.reduceEq, not_false_eq_true]
  unfold hotkeysPieces
  cases hhks : hotkeysOf e with
  | nil => rfl
  | cons hk hks =>
    rw [if_neg (by simp), if_neg (List.cons_ne_nil _ _)]
    have hfound := textOf_block 6 "Hotkeys"
      ((uses_hotkeyLines 0 (hk :: hks)).free (by decide : "Hotkeys" ∉ hotkeyNames)) []
    rwa [List.append_nil] at hfound

/-- Where there are hotkeys, a tag of one is found. -/
theorem cut_hotkey {hk : HkOut} {hks : List HkOut} :
    (cut "<Hotkey".toList (render (between ['\n'] (hotkeyLines 0 (hk :: hks)) (spaces 6)))).isSome :=
    by
  rw [Option.isSome_iff_ne_none]
  refine fun hnone ↦ cut_eq_none_iff.mp hnone ?_
  have hshape : render (between ['\n'] (hotkeyLines 0 (hk :: hks)) (spaces 6)) =
      ('\n' :: spaces 8) ++ "<Hotkey".toList ++ ('>' :: render (.text ['\n'] :: (hotkeyInner 0 hk ++
        (tagLine 8 (.closing "Hotkey") ++ (hotkeyLines 1 hks ++ [.text (spaces 6)]))))) := by
    simp [between, hotkeyLines, hotkeyPieces, hotkeyInner, block, tagLine, render, Piece.render,
      Piece.body]
  rw [hshape]
  exact List.infix_append _ _ _

theorem hotkeysRead_of_nil {e : CheatEntry} (h : hotkeysOf e = []) : hotkeysRead e = {} := by
  unfold hotkeysOf at h
  simp only [List.append_eq_nil_iff, ite_eq_left_iff, List.cons_ne_nil, imp_false, not_not] at h
  obtain ⟨⟨⟨hkeys, hset⟩, hinc⟩, hdec⟩ := h
  unfold hotkeysRead
  rw [hkeys, hset, hinc, hdec, keysRead_nil]
  rfl

/-- What the reader makes of the hotkeys of an entry. -/
theorem readHotkeys_own {e : CheatEntry} (hsafe : e.Safe) (hasChildren : Bool) {start : CheatEntry}
    (hstart : start.withHotkeys {} = start) :
    readHotkeys (render (ownPieces e hasChildren)) start = start.withHotkeys (hotkeysRead e) := by
  have hother : ∀ name : String, PlainName name → name ≠ "CheatEntry" → name ∉ fieldNames →
      getTag (render (ownPieces e hasChildren)) name = [] := by
    intro name hplain hne hname
    rw [getTag_own hplain hne hsafe, textOf_of_free (free_entryFields hname e)]
  unfold readHotkeys
  dsimp only
  rw [getTag_own (by decide) (by decide) hsafe, textOf_hotkeys]
  cases hhks : hotkeysOf e with
  | nil =>
    have hnone : ¬(cut "<Hotkey".toList []).isSome = true := by decide
    rw [if_pos rfl, if_neg hnone, hother _ (by decide) (by decide) (by decide),
      hother _ (by decide) (by decide) (by decide), hother _ (by decide) (by decide) (by decide),
      hother _ (by decide) (by decide) (by decide), hother _ (by decide) (by decide) (by decide),
      hotkeysRead_of_nil hhks]
    rfl
  | cons hk hks =>
    rw [if_neg (List.cons_ne_nil _ _), if_pos cut_hotkey]
    have hactions : ∀ hk' ∈ hk :: hks, hk'.action < 8 := hhks ▸ action_hotkeysOf
    have hfold := foldl_readHotkey 0 hactions start (by decide : WellFormed [.text ['\n']])
      (by decide : WellFormed [.text (spaces 6)]) (free_text _ _) (free_text _ _)
    rw [← bindHotkeys_hotkeysOf hstart, hhks, ← hfold]
    rfl

end Cecore.Table
