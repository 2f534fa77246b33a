import Cecore.Library.Elements
import Cecore.Table.XmlTags

/-!
# The fields of a table and the tags below it

The loader takes the fields of a table from the text outside of the first list of entries. A field
is `Isolated` where no text below the table can change it, whatever that text is; `isolated_iff`
says when this is so: no tag of its name is left in front of the field once the range from the first
`<CheatEntries>` to the first `</CheatEntries>` is cut out.
-/

set_option autoImplicit false
set_option relaxedAutoImplicit false

namespace Cecore.Table

open Library.Markup

/-! ### The text of a table -/

/-- What is around the children of the table: a prolog and an epilog without tags, and the
attributes of `<CheatTable>`. -/
structure Frame where
  prolog : List Piece := []
  attributes : Text := []
  epilog : List Piece := []
  untagged : ∀ piece ∈ prolog ++ epilog, ¬piece.IsTag
  wellFormed : WellFormed (prolog ++ headTag "CheatTable" attributes :: epilog)

/-- What is in front of the children of the table. -/
def Frame.before (frame : Frame) : List Piece :=
  frame.prolog ++ [headTag "CheatTable" frame.attributes]

/-- What is behind them. -/
def Frame.after (frame : Frame) : List Piece := .closing "CheatTable" :: frame.epilog

/-- The text of a table with these children. -/
def Frame.text (frame : Frame) (children : Nodes) : Text :=
  render (frame.before ++ (children.pieces ++ frame.after))

/-- Around the children there are no tags but those of the table. -/
theorem Frame.eq_of_isTag (frame : Frame) {piece : Piece} (htag : piece.IsTag)
    (h : piece ∈ frame.before ++ frame.after) :
    piece = .opening "CheatTable" ∨ piece = .closing "CheatTable" := by
  simp only [before, after, List.mem_append, List.mem_cons, List.not_mem_nil, or_false] at h
  rcases h with (hprolog | rfl) | rfl | hepilog
  · exact absurd htag (frame.untagged piece (List.mem_append_left _ hprolog))
  · unfold headTag at htag ⊢
    split_ifs at htag ⊢ with hattributes
    · exact Or.inl rfl
    · cases htag
  · exact Or.inr rfl
  · exact absurd htag (frame.untagged piece (List.mem_append_right _ hepilog))

theorem Frame.not_mem (frame : Frame) {name : String} (hname : name ≠ "CheatTable") :
    .opening name ∉ frame.before ++ frame.after ∧ .closing name ∉ frame.before ++ frame.after := by
  constructor
  · intro h
    rcases frame.eq_of_isTag (isTag_opening name) h with heq | heq
    · exact hname (Piece.opening.inj heq)
    · exact Piece.noConfusion heq
  · intro h
    rcases frame.eq_of_isTag (isTag_closing name) h with heq | heq
    · exact Piece.noConfusion heq
    · exact hname (Piece.closing.inj heq)

theorem Frame.wellFormed_pieces (frame : Frame) {pieces : List Piece} (h : WellFormed pieces) :
    WellFormed (frame.before ++ (pieces ++ frame.after)) := by
  obtain ⟨hprolog, hrest⟩ := List.forall_mem_append.mp frame.wellFormed
  obtain ⟨hhead, hepilog⟩ := List.forall_mem_cons.mp hrest
  have hclosing : (Piece.closing "CheatTable").WellFormed := by decide
  refine List.forall_mem_append.mpr ⟨List.forall_mem_append.mpr ⟨hprolog, ?_⟩,
    List.forall_mem_append.mpr ⟨h, List.forall_mem_cons.mpr ⟨hclosing, hepilog⟩⟩⟩
  exact List.forall_mem_singleton.mpr hhead

/-- The text has the beginning of a `<CheatTable>` in it. -/
theorem Frame.cut_text (frame : Frame) (children : Nodes) :
    (cut "<CheatTable".toList (frame.text children)).isSome := by
  rw [← Option.ne_none_iff_isSome, Ne, cut_eq_none_iff, not_not]
  have hhead : ∃ rest, (headTag "CheatTable" frame.attributes).render = "<CheatTable".toList ++ rest := by
    unfold headTag
    split_ifs
    · exact ⟨['>'], by decide⟩
    · exact ⟨' ' :: frame.attributes ++ ['>'], by simp [Piece.render, Piece.body]⟩
  obtain ⟨rest, hrest⟩ := hhead
  refine ⟨render frame.prolog, rest ++ render (children.pieces ++ frame.after), ?_⟩
  simp [Frame.text, Frame.before, render_append, render_cons, hrest]

/-! ### The fields -/

/-- The fields of a table that are read from tags of their own name. -/
def tableFields : List (String × (CheatTable → Text)) :=
  [("GameName", (·.gameName)), ("GameVersion", (·.gameVersion)), ("Author", (·.author)),
    ("Comment", (·.comment)), ("LuaScript", (·.luaScript))]

theorem tableFields_names : ∀ field ∈ tableFields,
    field.1 ≠ "CheatEntries" ∧ field.1 ≠ "CheatTable" ∧ PlainName field.1 := by
  decide

theorem headerXml_render {pieces : List Piece} (h : WellFormed pieces) :
    headerXml (render pieces) = render (without "CheatEntries" pieces) := by
  rw [headerXml, cut_openTag (by decide) h, cut_closeTag (by decide) h, without]
  cases split (.opening "CheatEntries") pieces with
  | none => rfl
  | some first =>
    cases split (.closing "CheatEntries") pieces with
    | none => rfl
    | some second => exact (render_append first.1 second.2).symm

theorem wellFormed_without {name : String} {pieces : List Piece} (h : WellFormed pieces) :
    WellFormed (without name pieces) := by
  unfold without
  split
  · next before _ _ after hopening hclosing =>
    exact List.forall_mem_append.mpr
      ⟨(wellFormed_of_split h hopening).1, (wellFormed_of_split h hclosing).2⟩
  · exact h

/-- The text in the first child of the table with the tag `<name>`, as it is read from that child
alone. -/
def ownText (name : String) (children : Nodes) : Text := getTag (render (children.own name)) name

/-- What the loader reads of a field. -/
theorem loadFromString_field {field : String × (CheatTable → Text)} (hfield : field ∈ tableFields)
    (frame : Frame) {children : Nodes} (hwf : WellFormed children.pieces) :
    ∃ loaded, loadFromString (frame.text children) = some loaded ∧
      field.2 loaded = xmlUnescape
        (((content field.1 (without "CheatEntries" children.pieces ++ frame.after)).map render).getD
          []) := by
  obtain ⟨-, htable, hplain⟩ := tableFields_names field hfield
  have hlist := frame.not_mem (by decide : "CheatEntries" ≠ "CheatTable")
  have hread : getTag (headerXml (frame.text children)) field.1 =
      ((content field.1 (without "CheatEntries" children.pieces ++ frame.after)).map render).getD
        [] := by
    have hpieces := frame.wellFormed_pieces hwf
    have hbefore : .opening field.1 ∉ frame.before := fun h ↦
      (frame.not_mem htable).1 (List.mem_append_left _ h)
    rw [Frame.text, headerXml_render hpieces, without_frame (children.closed _) hlist.1
      (fun h ↦ hlist.2 (List.mem_append_left _ h)), getTag_render hplain
        (frame.wellFormed_pieces (wellFormed_without hwf)), content, content,
      split_append_of_not_mem hbefore]
    cases split (.opening field.1) (without "CheatEntries" children.pieces ++ frame.after) <;> rfl
  refine ⟨_, if_neg ?_, ?_⟩
  · rw [Option.isNone_iff_eq_none, ← Option.not_isSome_iff_eq_none]
    exact fun h ↦ h.1 (frame.cut_text children)
  · rw [← hread]
    revert field
    simp [tableFields]

/-! ### Isolation -/

/-- Children of the table with the same tags, and the same elements with the tag `<name>`; every
other text may be another one. -/
def SameTable (name : String) (first second : Nodes) : Prop := first.masked name = second.masked name

/-- The loader reads the field from the child of the table that has its name, whatever the texts in
the other elements are; nothing is read where there is no such child. -/
def Isolated (field : String × (CheatTable → Text)) (frame : Frame) (children : Nodes) : Prop :=
  ∀ others : Nodes, WellFormed others.pieces → SameTable field.1 children others →
    ∃ loaded, loadFromString (frame.text others) = some loaded ∧
      field.2 loaded = xmlUnescape (ownText field.1 children)

/-- No tag `<name>` in front of the first child with this tag is left when the range from the first
`<CheatEntries>` to the first `</CheatEntries>` is cut out of what is there. -/
def Clear (name : String) (children : Nodes) : Prop :=
  .opening name ∉ without "CheatEntries" (children.front name).pieces

instance (name : String) (children : Nodes) : Decidable (Clear name children) :=
  inferInstanceAs (Decidable (_ ∉ _))

theorem SameTable.own_eq {name : String} {first second : Nodes} (h : SameTable name first second) :
    second.own name = first.own name := by
  rw [← Nodes.own_masked, ← Nodes.own_masked name first, h]

theorem SameTable.clear_iff {name : String} {first second : Nodes} (h : SameTable name first second) :
    Clear name first ↔ Clear name second := by
  have hmasked : ∀ nodes : Nodes, Clear name nodes ↔
      .opening name ∉ without "CheatEntries" ((nodes.masked name).front name).pieces := by
    intro nodes
    rw [Nodes.front_masked, Nodes.pieces_mapText, without_map_mapText,
      mem_map_mapText (isTag_opening name)]
    rfl
  rw [hmasked, hmasked, h]

/-- Behind pieces without the tag, the search finds the content of the first element. -/
theorem content_append_element {name : String} {front : List Piece} (hfront : .opening name ∉ front)
    (inner rest : List Piece) :
    content name (front ++ (.opening name :: (inner ++ [.closing name]) ++ rest)) =
      content name (.opening name :: (inner ++ [.closing name])) := by
  have hclosing : .closing name ∈ inner ++ [.closing name] := by simp
  obtain ⟨before, after, -, -, hsplit⟩ := split_append_of_mem hclosing
  have hself := hsplit []
  rw [List.append_nil] at hself
  have hfirst : split (.opening name) (.opening name :: (inner ++ [.closing name])) =
      some ([], inner ++ [.closing name]) := split_append_cons List.not_mem_nil _
  rw [content, List.cons_append, split_append_cons hfront, content, hfirst]
  dsimp only
  rw [hsplit, hself]
  rfl

/-- A field that is clear is read from its own element. -/
theorem content_of_clear {name : String} {children : Nodes} (hclear : Clear name children)
    (hlist : .opening "CheatEntries" ∉ children.own name) {after : List Piece}
    (hafter : .opening name ∉ after) :
    content name (without "CheatEntries" children.pieces ++ after) =
      content name (children.own name) := by
  obtain ⟨rest, hpieces, hnone⟩ := children.pieces_eq name
  rcases children.own_eq name with hown | ⟨inner, hown⟩
  · rw [hown, hnone hown, List.nil_append, List.append_nil] at hpieces
    have hfree : .opening name ∉ without "CheatEntries" children.pieces ++ after := by
      rw [hpieces, List.mem_append, not_or]
      exact ⟨hclear, hafter⟩
    rw [hown, content, content, split_eq_none_iff.mpr hfree]
    rfl
  · obtain ⟨more, hwithout⟩ := without_append ((children.front name).closed "CheatEntries") hlist rest
    rw [hpieces, hwithout, hown, List.append_assoc, List.append_assoc,
      content_append_element hclear]

/-- The front of a text that has no escape in it is left as it is. -/
theorem xmlUnescape_replicate (n : ℕ) (rest : Text) :
    xmlUnescape (List.replicate n 'x' ++ rest) = List.replicate n 'x' ++ xmlUnescape rest := by
  induction n with
  | zero => rfl
  | succ n ih =>
    rw [List.replicate_succ, List.cons_append, List.cons_append, ← ih]
    rfl

/-- A field is isolated exactly when no tag of its name is left in front of it. The field itself
holds no list of entries. -/
theorem isolated_iff {field : String × (CheatTable → Text)} (hfield : field ∈ tableFields)
    (frame : Frame) {children : Nodes} (hwf : WellFormed children.pieces)
    (hlist : .opening "CheatEntries" ∉ children.own field.1) :
    Isolated field frame children ↔ Clear field.1 children := by
  obtain ⟨hlistName, htable, hplain⟩ := tableFields_names field hfield
  have hafter : .opening field.1 ∉ frame.after := fun h ↦
    (frame.not_mem htable).1 (List.mem_append_right _ h)
  constructor
  · intro hisolated
    by_contra hleft
    -- a longer text in the tags in front of the field shows in what is read
    set size := (xmlUnescape (ownText field.1 children)).length + 1 with hsize
    set filled := children.refill field.1 (fun _ ↦ List.replicate size 'x') with hfilled
    have hfill : '<' ∉ List.replicate size 'x' := fun h ↦
      absurd (List.eq_of_mem_replicate h) (by decide)
    have hwfFilled : WellFormed filled.pieces := Nodes.wellFormed_refill (fun _ ↦ hfill) hwf
    have hsame : SameTable field.1 children filled := (Nodes.masked_refill _ _ _).symm
    obtain ⟨loaded, hloaded, hvalue⟩ := hisolated filled hwfFilled hsame
    obtain ⟨loaded', hloaded', hread⟩ := loadFromString_field hfield frame hwfFilled
    obtain rfl := Option.some.inj (hloaded.symm.trans hloaded')
    have hmem : .opening field.1 ∈ without "CheatEntries" (filled.front field.1).pieces := by
      by_contra hfree
      exact hleft (hsame.clear_iff.mpr hfree)
    obtain ⟨rest, hpieces, -⟩ := filled.pieces_eq field.1
    obtain ⟨more, hwithout⟩ := without_append ((filled.front field.1).closed "CheatEntries")
      List.not_mem_nil (filled.own field.1 ++ rest)
    rw [List.nil_append, List.nil_append] at hwithout
    obtain ⟨before, first, behind, hsplit, htext, hclosing⟩ :=
      exists_content_of_without hlistName hmem (more ++ frame.after)
    have hfirst : first = List.replicate size 'x' := by
      rw [hfilled, Nodes.front_refill, Nodes.pieces_mapText] at htext
      obtain ⟨origin, -, horigin⟩ := List.mem_map.mp htext
      cases origin with
      | text chunk => exact (Piece.text.inj horigin).symm
      | _ => exact absurd horigin (by simp [Piece.mapText])
    obtain ⟨inner, later, -, -, hclose⟩ := split_append_of_mem hclosing
    have hcontent : content field.1 (without "CheatEntries" filled.pieces ++ frame.after) =
        some (.text first :: inner) := by
      have hself := hclose []
      rw [List.append_nil] at hself
      rw [hpieces, hwithout, List.append_assoc, content, hsplit]
      dsimp only
      rw [split, if_neg (by simp), hself]
      rfl
    rw [hvalue, hcontent, hfirst] at hread
    have hlength := congrArg List.length hread
    simp only [Option.map_some, Option.getD_some, render_cons, Piece.render, xmlUnescape_replicate,
      List.length_append, List.length_replicate] at hlength
    omega
  · intro hclear others hothers hsame
    obtain ⟨loaded, hloaded, hread⟩ := loadFromString_field hfield frame hothers
    refine ⟨loaded, hloaded, ?_⟩
    have hown := hsame.own_eq
    rw [hread, content_of_clear (hsame.clear_iff.mp hclear) (by rwa [hown]) hafter, hown, ownText,
      getTag_render hplain]
    intro piece hpiece
    obtain ⟨rest, hpieces, -⟩ := children.pieces_eq field.1
    exact hwf piece (by rw [hpieces]; simp [hpiece])

/-- A table with a script of its own behind its list, in which an entry has a script, too. -/
def scriptedChildren : Nodes :=
  .element "CheatEntries" [] ['
']
    (.element "CheatEntry" [] ['
'] (.element "LuaScript" [] "beep()".toList .nil .nil) .nil)
    (.element "LuaScript" [] "print(1)".toList .nil .nil)

/-- The root of a table, as it is written. -/
def tableFrame : Frame where
  prolog := [.mark "?xml version=1.0?".toList, .text ['
']]
  attributes := "CheatEngineTableVersion=42".toList
  epilog := [.text ['
']]
  untagged := by simp [Piece.IsTag]
  wellFormed := by decide

theorem isolated_scriptedChildren :
    Isolated ("LuaScript", (·.luaScript)) tableFrame scriptedChildren :=
  have hfield : (("LuaScript", (·.luaScript)) : String × (CheatTable → Text)) ∈ tableFields := by
    simp [tableFields]
  (isolated_iff hfield tableFrame (by decide) (by decide)).mpr (by decide)

/-- A group with a list of its own, and behind it an entry with a script; the table has none. -/
def nestedChildren : Nodes :=
  .element "CheatEntries" [] ['
']
    (.element "CheatEntry" [] ['
']
      (.element "GroupHeader" [] ['1'] .nil
        (.element "CheatEntries" [] ['
'] (.element "CheatEntry" [] ['
'] .nil .nil) .nil))
      (.element "CheatEntry" [] ['
'] (.element "LuaScript" [] "beep()".toList .nil .nil) .nil))
    .nil

/-- The script of an entry behind a nested list is loaded as the script of the table. -/
theorem nestedChildren_leaks_script :
    nestedChildren.own "LuaScript" = [] ∧
      (loadFromString (tableFrame.text nestedChildren)).map (·.luaScript) = some "beep()".toList ∧
      ¬Isolated ("LuaScript", (·.luaScript)) tableFrame nestedChildren := by
  have hloaded : (loadFromString (tableFrame.text nestedChildren)).map (·.luaScript) =
      some "beep()".toList := by decide +kernel
  refine ⟨rfl, hloaded, fun hisolated ↦ ?_⟩
  obtain ⟨loaded, hload, hvalue⟩ := hisolated nestedChildren (by decide) rfl
  rw [hload] at hloaded
  exact absurd (hvalue.symm.trans (Option.some.inj hloaded)) (by decide)

end Cecore.Table
