import Cecore.Table.JsonRoundTrip

/-!
# The protected form

The key stream is laid over the JSON text when a table is saved and once more when it is loaded,
which gives the text back where every character is a byte (`xorFrom_xorFrom`). The writer adds
nothing to the bytes of the table's own texts that is no byte (`isBytes_saveJson`).
-/

set_option autoImplicit false
set_option relaxedAutoImplicit false

namespace Cecore.Table

/-! ### Bytes -/

/-- A text of single bytes. -/
abbrev IsBytes (text : Text) : Prop := ∀ c ∈ text, c.toNat < 256

theorem isBytes_append {first second : Text} (hfirst : IsBytes first) (hsecond : IsBytes second) :
    IsBytes (first ++ second) :=
  List.forall_mem_append.mpr ⟨hfirst, hsecond⟩

theorem isBytes_cons {c : Char} {text : Text} (hc : c.toNat < 256) (h : IsBytes text) :
    IsBytes (c :: text) :=
  List.forall_mem_cons.mpr ⟨hc, h⟩

theorem isBytes_toDigits {base : ℕ} (hbase : 1 < base) (hmax : base ≤ 16) (n : ℕ) :
    IsBytes (Nat.toDigits base n) := by
  intro c hc
  obtain ⟨d, hd, rfl⟩ := isNumeral_of_mem hbase hmax hc
  interval_cases d <;> decide

theorem isBytes_printInt (n : ℤ) : IsBytes (printInt n) := by
  unfold printInt
  split_ifs
  · exact isBytes_cons (by decide) (isBytes_toDigits (by decide) (by decide) _)
  · exact isBytes_toDigits (by decide) (by decide) _

theorem isBytes_quoted {s : Text} (h : IsBytes s) : IsBytes (quoted s) := by
  have hescape : IsBytes (jsonEscape s) := by
    intro c hc
    obtain ⟨source, hsource, hmem⟩ := List.mem_flatMap.mp hc
    have hbyte := h source hsource
    unfold jsonEscapeChar at hmem
    split_ifs at hmem
    all_goals simp only [List.mem_cons, List.not_mem_nil, or_false] at hmem
    all_goals first
      | (rcases hmem with rfl | rfl <;> decide)
      | (rw [hmem]; exact hbyte)
  exact isBytes_cons (by decide) (isBytes_append hescape (isBytes_cons (by decide) (by decide)))

theorem isBytes_intercalate {items : List Text} (h : ∀ item ∈ items, IsBytes item) :
    IsBytes (List.intercalate [','] items) := by
  induction items with
  | nil => exact List.forall_mem_nil _
  | cons item items ih =>
    have hitem := h item List.mem_cons_self
    cases items with
    | nil => rwa [List.intercalate_singleton]
    | cons second items =>
      rw [List.intercalate_cons_cons]
      exact isBytes_append (isBytes_append hitem (by decide))
        (ih fun other hother ↦ h other (List.mem_cons_of_mem _ hother))

theorem isBytes_arrayText {lead tail : Text} (hlead : IsBytes lead) (htail : IsBytes tail)
    {items : List Text} (h : ∀ item ∈ items, IsBytes item) : IsBytes (arrayText lead tail items) := by
  have hitems : IsBytes (List.intercalate [','] (items.map (lead ++ ·))) := by
    refine isBytes_intercalate fun written hwritten ↦ ?_
    obtain ⟨item, hitem, rfl⟩ := List.mem_map.mp hwritten
    exact isBytes_append hlead (h item hitem)
  exact isBytes_cons (by decide) (isBytes_append (isBytes_append hitems htail) (by decide))

theorem isBytes_objectText {lead gap tail : Text} (hlead : IsBytes lead) (hgap : IsBytes gap)
    (htail : IsBytes tail) {members : List (String × Text)}
    (h : ∀ member ∈ members, IsBytes member.1.toList ∧ IsBytes member.2) :
    IsBytes (objectText lead gap tail members) := by
  have hmembers : IsBytes (List.intercalate [','] (members.map fun member ↦
      lead ++ (quoted member.1.toList ++ ':' :: (gap ++ member.2)))) := by
    refine isBytes_intercalate fun written hwritten ↦ ?_
    obtain ⟨member, hmember, rfl⟩ := List.mem_map.mp hwritten
    obtain ⟨hkey, hvalue⟩ := h member hmember
    exact isBytes_append hlead (isBytes_append (isBytes_quoted hkey)
      (isBytes_cons (by decide) (isBytes_append hgap hvalue)))
  exact isBytes_cons (by decide) (isBytes_append (isBytes_append hmembers htail) (by decide))

/-- A text of a member is of bytes. -/
def Scalar.IsByteText : Scalar → Prop
  | text value => IsBytes value
  | _ => True

theorem Scalar.IsByteText.render {scalar : Scalar} (h : scalar.IsByteText) :
    IsBytes scalar.render := by
  cases scalar with
  | text value => exact isBytes_quoted h
  | number value => exact isBytes_printInt value
  | flag value => cases value <;> decide

/-- Members with names and texts of bytes. -/
def ByteMembers (members : Members) : Prop :=
  ∀ member ∈ members, IsBytes member.1.toList ∧ member.2.IsByteText

theorem isBytes_compact {members : Members} (h : ByteMembers members) : IsBytes (compact members) := by
  refine isBytes_objectText (by decide) (by decide) (by decide) fun written hwritten ↦ ?_
  obtain ⟨member, hmember, rfl⟩ := List.mem_map.mp hwritten
  exact ⟨(h member hmember).1, (h member hmember).2.render⟩

theorem byteMembers_append {first second : Members} (hfirst : ByteMembers first)
    (hsecond : ByteMembers second) : ByteMembers (first ++ second) :=
  List.forall_mem_append.mpr ⟨hfirst, hsecond⟩

theorem byteMembers_memberIf {present : Bool} {name : String} {value : Scalar}
    (hname : IsBytes name.toList) (hvalue : value.IsByteText) :
    ByteMembers (memberIf present name value) := by
  intro member hmember
  cases present
  · cases hmember
  · obtain rfl := List.mem_singleton.mp hmember
    exact ⟨hname, hvalue⟩

/-! ### The texts of a table -/

/-- The texts of an entry that are written. -/
def CheatEntry.texts (e : CheatEntry) : List Text :=
  [e.description, e.value, e.autoAsmScript, e.luaScript, e.color, e.dropdownList, e.hotkeyKeys,
    e.increaseHotkeyKeys, e.setValueHotkeyKeys, e.setValueHotkeyValue, e.decreaseHotkeyKeys,
    e.hotkeyStep]

def StructureField.texts (field : StructureField) : List Text :=
  [field.name, field.displayMethod, field.nestedStructure]

def StructureDefinition.texts (s : StructureDefinition) : List Text :=
  s.name :: s.fields.flatMap StructureField.texts

def DisassemblerComment.texts (c : DisassemblerComment) : List Text := [c.address, c.comment, c.label]

/-- The texts of a table that are written. -/
def CheatTable.texts (t : CheatTable) : List Text :=
  [t.gameName, t.gameVersion, t.author, t.comment, t.luaScript] ++
    t.structures.flatMap StructureDefinition.texts ++
    t.disassemblerComments.flatMap DisassemblerComment.texts ++ t.entries.flatMap CheatEntry.texts

theorem byteMembers_entryMembers {e : CheatEntry} (h : ∀ s ∈ e.texts, IsBytes s) :
    ByteMembers (entryMembers e) := by
  simp only [CheatEntry.texts, List.forall_mem_cons, List.not_mem_nil, false_imp_iff,
    implies_true, and_true] at h
  obtain ⟨hdesc, hvalue, hasm, hlua, hcolor, hdrop, hkeys, hinc, hset, hsetValue, hdec, hstep⟩ := h
  have haddr : IsBytes ('0' :: 'x' :: hex e.address) :=
    isBytes_cons (by decide) (isBytes_cons (by decide) (isBytes_toDigits (by decide) (by decide) _))
  have hhead : ByteMembers [("id", .number e.id), ("desc", .text e.description)] := by
    simp only [ByteMembers, List.forall_mem_cons, List.not_mem_nil, false_imp_iff, implies_true,
      and_true]
    exact ⟨⟨by decide, trivial⟩, by decide, hdesc⟩
  unfold entryMembers
  repeat' apply byteMembers_append
  · exact hhead
  all_goals refine byteMembers_memberIf (by decide) ?_
  all_goals first | exact trivial | assumption

theorem isBytes_structureText {s : StructureDefinition} (h : ∀ text ∈ s.texts, IsBytes text) :
    IsBytes (structureText s) := by
  obtain ⟨hname, hfields⟩ := List.forall_mem_cons.mp h
  have hsize : IsBytes (decimal s.size) := isBytes_toDigits (by decide) (by decide) _
  have harray : IsBytes
      (arrayText [] [] (s.fields.map fun field ↦ compact (structureFieldMembers field))) := by
    refine isBytes_arrayText (by decide) (by decide) fun written hwritten ↦ ?_
    obtain ⟨field, hfield, rfl⟩ := List.mem_map.mp hwritten
    have htexts : ∀ text ∈ field.texts, IsBytes text := fun text htext ↦
      hfields text (List.mem_flatMap.mpr ⟨field, hfield, htext⟩)
    simp only [StructureField.texts, List.forall_mem_cons, List.not_mem_nil, false_imp_iff,
      implies_true, and_true] at htexts
    obtain ⟨hfieldName, hdisplay, hnested⟩ := htexts
    refine isBytes_compact (byteMembers_append (byteMembers_append ?_
      (byteMembers_memberIf (by decide) hdisplay)) (byteMembers_memberIf (by decide) hnested))
    simp only [ByteMembers, List.forall_mem_cons, List.not_mem_nil, false_imp_iff,
      implies_true, and_true]
    exact ⟨⟨by decide, hfieldName⟩, ⟨by decide, trivial⟩, ⟨by decide, trivial⟩, by decide, trivial⟩
  refine isBytes_objectText (by decide) (by decide) (by decide) ?_
  simp only [List.forall_mem_cons, List.not_mem_nil, false_imp_iff, implies_true, and_true]
  exact ⟨⟨by decide, isBytes_quoted hname⟩, ⟨by decide, hsize⟩, by decide, harray⟩

theorem byteMembers_commentMembers {c : DisassemblerComment} (h : ∀ s ∈ c.texts, IsBytes s) :
    ByteMembers (commentMembers c) := by
  simp only [DisassemblerComment.texts, List.forall_mem_cons, List.not_mem_nil, false_imp_iff,
    implies_true, and_true] at h
  obtain ⟨haddress, hcomment, hlabel⟩ := h
  refine byteMembers_append (byteMembers_append ?_ (byteMembers_memberIf (by decide) hcomment))
    (byteMembers_memberIf (by decide) hlabel)
  simp only [ByteMembers, List.forall_mem_cons, List.not_mem_nil, false_imp_iff, implies_true,
    and_true]
  exact ⟨by decide, haddress⟩

/-- The document of a table whose texts are bytes is bytes. -/
theorem isBytes_saveJson {t : CheatTable} (h : ∀ s ∈ t.texts, IsBytes s) : IsBytes (saveJson t) := by
  simp only [CheatTable.texts, List.forall_mem_append, List.forall_mem_cons, List.not_mem_nil,
    false_imp_iff, implies_true, and_true] at h
  obtain ⟨⟨⟨⟨hgame, hversion, hauthor, hcomment, hlua⟩, hstructures⟩, hcomments⟩, hentries⟩ := h
  have hs : IsBytes (arrayText itemLead fieldLead (t.structures.map structureText)) := by
    refine isBytes_arrayText (by decide) (by decide) fun written hwritten ↦ ?_
    obtain ⟨s, hs, rfl⟩ := List.mem_map.mp hwritten
    exact isBytes_structureText fun text htext ↦
      hstructures text (List.mem_flatMap.mpr ⟨s, hs, htext⟩)
  have hc : IsBytes
      (arrayText [] [] (t.disassemblerComments.map fun c ↦ compact (commentMembers c))) := by
    refine isBytes_arrayText (by decide) (by decide) fun written hwritten ↦ ?_
    obtain ⟨c, hc, rfl⟩ := List.mem_map.mp hwritten
    exact isBytes_compact (byteMembers_commentMembers fun text htext ↦
      hcomments text (List.mem_flatMap.mpr ⟨c, hc, htext⟩))
  have he : IsBytes
      (arrayText itemLead fieldLead (t.entries.map fun e ↦ compact (entryMembers e))) := by
    refine isBytes_arrayText (by decide) (by decide) fun written hwritten ↦ ?_
    obtain ⟨e, he, rfl⟩ := List.mem_map.mp hwritten
    exact isBytes_compact (byteMembers_entryMembers fun text htext ↦
      hentries text (List.mem_flatMap.mpr ⟨e, he, htext⟩))
  refine isBytes_append (isBytes_objectText (by decide) (by decide) (by decide) ?_) (by decide)
  simp only [tableMembers, List.forall_mem_cons, List.not_mem_nil, false_imp_iff, implies_true,
    and_true]
  exact ⟨⟨by decide, isBytes_quoted hgame⟩, ⟨by decide, isBytes_quoted hversion⟩,
    ⟨by decide, isBytes_quoted hauthor⟩, ⟨by decide, isBytes_quoted hcomment⟩,
    ⟨by decide, isBytes_quoted hlua⟩, ⟨by decide, hs⟩, ⟨by decide, hc⟩, by decide, he⟩

/-! ### The key stream -/

theorem byteOf_toNat {c : Char} (h : c.toNat < 256) : (byteOf c).toNat = c.toNat := by
  rw [byteOf, UInt8.toNat_ofNat']
  exact Nat.mod_eq_of_lt h

theorem toNat_ofNat_of_lt {n : ℕ} (h : n < 256) : (Char.ofNat n).toNat = n := by
  rw [Char.ofNat, dif_pos (Or.inl (by omega))]
  rfl

/-- Laying the key stream over a text twice gives the text. -/
theorem xorFrom_xorFrom (state : UInt64) {text : Text} (h : IsBytes text) :
    xorFrom state (xorFrom state text) = text := by
  induction text generalizing state with
  | nil => rfl
  | cons c text ih =>
    obtain ⟨hc, htext⟩ := List.forall_mem_cons.mp h
    have hkey : (xorshift64 state &&& 0xff).toNat < 2 ^ 8 := by
      rw [UInt64.toNat_and]
      exact Nat.and_lt_two_pow _ (by decide)
    have hmixed : c.toNat ^^^ (xorshift64 state &&& 0xff).toNat < 256 :=
      Nat.xor_lt_two_pow (n := 8) hc hkey
    have hback : (c.toNat ^^^ (xorshift64 state &&& 0xff).toNat) ^^^
        (xorshift64 state &&& 0xff).toNat = c.toNat := by
      rw [Nat.xor_assoc, Nat.xor_self, Nat.xor_zero]
    simp only [xorFrom]
    rw [byteOf_toNat hc, byteOf_toNat (by rwa [toNat_ofNat_of_lt hmixed]),
      toNat_ofNat_of_lt hmixed, hback, Char.ofNat_toNat, ih _ htext]

/-! ### Saved and loaded -/

theorem getline_append {line rest : Text} (h : ∀ c ∈ line, c ≠ '\n') :
    getline (line ++ '\n' :: rest) = some (line, rest) := by
  have hpass : ∀ c ∈ line, decide (c ≠ '\n') = true := fun c hc ↦ decide_eq_true (h c hc)
  have hline : getline (line ++ '\n' :: rest) =
      some ((line ++ '\n' :: rest).takeWhile fun c ↦ decide (c ≠ '\n'),
        ((line ++ '\n' :: rest).dropWhile fun c ↦ decide (c ≠ '\n')).drop 1) := by
    cases line <;> rfl
  rw [hline, List.takeWhile_append_of_pos hpass, List.dropWhile_append_of_pos hpass]
  simp

/-- `loadProtected` hands `loadJson` the text that `saveProtected` laid the key stream over, unless
the file is too large. -/
theorem loadProtected_eq (self t : CheatTable) (password : Text) (hbytes : IsBytes (saveJson t)) :
    loadProtected self password (saveProtected t password) =
      if kMaxProtectedSize < (saveProtected t password).length then none
      else loadJson self (saveJson t) := by
  have hmagic : getline (saveProtected t password) = some ("CETRAINER1".toList,
      decimal (fnv1a password).toNat ++ '\n' :: xorCrypt (saveJson t) password) :=
    getline_append (by decide : ∀ c ∈ "CETRAINER1".toList, c ≠ '\n')
  have hhash : getline (decimal (fnv1a password).toNat ++ '\n' :: xorCrypt (saveJson t) password) =
      some (decimal (fnv1a password).toNat, xorCrypt (saveJson t) password) := by
    refine getline_append fun c hc hline ↦ ?_
    obtain ⟨hspace, -⟩ := (isNumeral_of_mem (by decide) (by decide) hc).plain
    rw [hline] at hspace
    exact absurd hspace (by decide)
  have hstoull : stoull 10 (decimal (fnv1a password).toNat) = some ((fnv1a password).toNat, []) := by
    have h := stoull_toDigits (by decide) (by decide) (fnv1a password).toNat_lt (stops_nil 10)
    rwa [List.append_nil] at h
  unfold loadProtected
  split_ifs with hsize
  · rfl
  · rw [hmagic]
    dsimp only
    rw [hhash]
    dsimp only
    rw [if_neg (not_not.mpr rfl), hstoull]
    dsimp only
    rw [if_neg (not_not.mpr rfl), xorDecrypt, xorCrypt, xorFrom_xorFrom _ hbytes]

theorem length_xorFrom (state : UInt64) (text : Text) : (xorFrom state text).length = text.length := by
  induction text generalizing state with
  | nil => rfl
  | cons c text ih => exact congrArg Nat.succ (ih _)

/-- A table is loaded as it was saved on every field that `saveJson` writes, and the protected form
gives the same where its file is at most 64 MiB. -/
theorem load_save (self : CheatTable) {t : CheatTable} (hstorable : t.Storable)
    (hbytes : ∀ s ∈ t.texts, IsBytes s) (password : Text) :
    loadJson self (saveJson t) = some (self.jsonView t) ∧
      loadProtected self password (saveProtected t password) =
        if kMaxProtectedSize < (saveProtected t password).length then none
        else loadJson self (saveJson t) :=
  ⟨loadJson_saveJson self hstorable, loadProtected_eq self t password (isBytes_saveJson hbytes)⟩

/-- A table with quotes, backslashes and a nested comment. -/
def sampleTable : CheatTable where
  gameName := [doubleQuote, '\\', '\n', Char.ofNat 255]
  disassemblerComments := [{ address := "main+10".toList, comment := ['\t'] }]
  entries := [{ id := 1, description := "gold".toList, address := 0x1000, value := "5".toList }]

theorem load_save_sample :
    (loadJson {} (saveJson sampleTable) = some (CheatTable.jsonView {} sampleTable)) ∧
      loadProtected {} [] (saveProtected sampleTable []) =
        if kMaxProtectedSize < (saveProtected sampleTable []).length then none
        else loadJson {} (saveJson sampleTable) :=
  load_save {} { entries := by decide, structures := by decide, comments := by decide } (by decide) []

theorem length_le_intercalate {items : List Text} {item : Text} (h : item ∈ items) :
    item.length ≤ (List.intercalate [','] items).length := by
  induction items with
  | nil => cases h
  | cons first items ih =>
    cases items with
    | nil =>
      obtain rfl := List.mem_singleton.mp h
      rw [List.intercalate_singleton]
    | cons second items =>
      rw [List.intercalate_cons_cons, List.length_append, List.length_append]
      rcases List.mem_cons.mp h with rfl | hrest
      · omega
      · exact (ih hrest).trans (Nat.le_add_left _ _)

/-- The document is longer than the script of the table. -/
theorem length_luaScript_lt (t : CheatTable) : t.luaScript.length < (saveJson t).length := by
  have hmember : ("luaScript", quoted t.luaScript) ∈ tableMembers t := by simp [tableMembers]
  have hwritten := length_le_intercalate (List.mem_map_of_mem (f := fun member : String × Text ↦
    fieldLead ++ (quoted member.1.toList ++ ':' :: ([' '] ++ member.2))) hmember)
  have hquoted : t.luaScript.length ≤ (quoted t.luaScript).length := by
    have := length_le_jsonEscape t.luaScript
    simp only [quoted, List.length_cons, List.length_append]
    omega
  rw [saveJson, objectText]
  simp only [List.length_append, List.length_cons] at hwritten ⊢
  omega

theorem length_saveJson_le (t : CheatTable) (password : Text) :
    (saveJson t).length ≤ (saveProtected t password).length := by
  have hcrypt : (xorCrypt (saveJson t) password).length = (saveJson t).length := by
    rw [xorCrypt, length_xorFrom]
  calc (saveJson t).length = (xorCrypt (saveJson t) password).length := hcrypt.symm
    _ ≤ ('\n' :: xorCrypt (saveJson t) password).length := Nat.le_succ _
    _ ≤ (decimal (fnv1a password).toNat ++ '\n' :: xorCrypt (saveJson t) password).length :=
      (List.suffix_append _ _).length_le
    _ ≤ (saveProtected t password).length := (List.suffix_append _ _).length_le

/-- A table with nothing but a script. -/
def scriptTable (script : Text) : CheatTable where
  luaScript := script

/-- No table with a script of 64 MiB is loaded from its protected form. -/
theorem loadProtected_scriptTable {script : Text} (hbytes : IsBytes script)
    (hlong : kMaxProtectedSize ≤ script.length) :
    loadProtected {} [] (saveProtected (scriptTable script) []) = none ∧
      loadJson {} (saveJson (scriptTable script)) ≠ none := by
  have hstorable : (scriptTable script).Storable :=
    { entries := List.forall_mem_nil _
      structures := List.forall_mem_nil _
      comments := List.forall_mem_nil _ }
  have htexts : ∀ s ∈ (scriptTable script).texts, IsBytes s := by
    simp only [CheatTable.texts, scriptTable, List.flatMap_nil, List.append_nil,
      List.forall_mem_cons, List.not_mem_nil, false_imp_iff, implies_true, and_true]
    exact ⟨by decide, by decide, by decide, by decide, hbytes⟩
  have hfile : kMaxProtectedSize < (saveProtected (scriptTable script) []).length :=
    hlong.trans_lt ((length_luaScript_lt (scriptTable script)).trans_le
      (length_saveJson_le (scriptTable script) []))
  constructor
  · rw [loadProtected_eq {} (scriptTable script) [] (isBytes_saveJson htexts), if_pos hfile]
  · rw [loadJson_saveJson {} hstorable]
    exact Option.some_ne_none _

/-- A script of 64 MiB is written to a protected file that is not loaded. -/
theorem loadProtected_refuses_large :
    loadProtected {} [] (saveProtected (scriptTable (List.replicate kMaxProtectedSize 'a')) []) ≠
      loadJson {} (saveJson (scriptTable (List.replicate kMaxProtectedSize 'a'))) := by
  have hbytes : IsBytes (List.replicate kMaxProtectedSize 'a') := by
    intro c hc
    rw [List.eq_of_mem_replicate hc]
    decide
  have hlong : kMaxProtectedSize ≤ (List.replicate kMaxProtectedSize 'a').length := by
    rw [List.length_replicate]
  obtain ⟨hrefused, hloaded⟩ := loadProtected_scriptTable hbytes hlong
  rw [hrefused]
  exact hloaded.symm

end Cecore.Table
