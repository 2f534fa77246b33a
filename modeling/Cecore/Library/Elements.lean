import Cecore.Library.Markup

/-!
# Nested elements

Markup as elements in elements, written out as pieces. `without` cuts the range between the first
opening and the first closing tag of a name out of the pieces; what a tag search finds in the rest
is told by the elements in front of the one that is looked for.
-/

set_option autoImplicit false
set_option relaxedAutoImplicit false

namespace Cecore.Library.Markup

/-! ### Elements -/

/-- Of two different pieces one is in front. -/
theorem order_of_ne {first second : Piece} (hne : first ≠ second)
    {front back front' back' : List Piece}
    (h : front ++ first :: back = front' ++ second :: back') :
    (∃ mid, front' = front ++ first :: mid ∧ back = mid ++ second :: back') ∨
      ∃ mid, front = front' ++ second :: mid ∧ back' = mid ++ first :: back := by
  rcases List.append_eq_append_iff.mp h with ⟨mid, hfront, hback⟩ | ⟨mid, hfront, hback⟩
  · cases mid with
    | nil => exact absurd (List.cons.inj hback).1 hne
    | cons piece mid =>
      obtain ⟨rfl, rfl⟩ := List.cons.inj hback
      exact Or.inl ⟨mid, hfront, rfl⟩
  · cases mid with
    | nil => exact absurd (List.cons.inj hback).1 (Ne.symm hne)
    | cons piece mid =>
      obtain ⟨rfl, rfl⟩ := List.cons.inj hback
      exact Or.inr ⟨mid, hfront, rfl⟩

/-- Texts, single tags and elements next to each other. An element has a text in front of its
children. -/
inductive Nodes
  | nil
  | text (chunk : List Char) (rest : Nodes)
  | tag (body : List Char) (rest : Nodes)
  | element (name : String) (attributes first : List Char) (children rest : Nodes)
  deriving DecidableEq

/-- The tag in front of an element. -/
def headTag (name : String) (attributes : List Char) : Piece :=
  if attributes = [] then .opening name else .mark (name.toList ++ ' ' :: attributes)

theorem headTag_eq_opening {name other : String} {attributes : List Char}
    (h : headTag name attributes = .opening other) : name = other ∧ attributes = [] := by
  unfold headTag at h
  split_ifs at h with hattributes
  exact ⟨Piece.opening.inj h, hattributes⟩

namespace Nodes

/-- Nodes written as pieces. -/
def pieces : Nodes → List Piece
  | nil => []
  | text chunk rest => .text chunk :: rest.pieces
  | tag body rest => .mark body :: rest.pieces
  | element name attributes first children rest =>
    headTag name attributes :: .text first :: (children.pieces ++ .closing name :: rest.pieces)

/-- An opening tag has a text and nodes behind it, and then its closing tag. -/
theorem exists_content {name : String} {nodes : Nodes} {front back : List Piece}
    (h : nodes.pieces = front ++ .opening name :: back) :
    ∃ first, ∃ children : Nodes, ∃ more,
      back = .text first :: (children.pieces ++ .closing name :: more) := by
  induction nodes generalizing front back with
  | nil => exact absurd h (by simp [pieces])
  | text chunk rest ih =>
    cases front with
    | nil => exact absurd (List.cons.inj h).1 (by simp)
    | cons piece front => exact ih (List.cons.inj h).2
  | tag body rest ih =>
    cases front with
    | nil => exact absurd (List.cons.inj h).1 (by simp)
    | cons piece front => exact ih (List.cons.inj h).2
  | element other attributes first children rest ihChildren ihRest =>
    cases front with
    | nil =>
      obtain ⟨hhead, rfl⟩ := List.cons.inj h
      obtain ⟨rfl, -⟩ := headTag_eq_opening hhead
      exact ⟨first, children, rest.pieces, rfl⟩
    | cons piece front =>
      replace h := (List.cons.inj h).2
      cases front with
      | nil => exact absurd (List.cons.inj h).1 (by simp)
      | cons piece front =>
        rcases order_of_ne (by simp) (List.cons.inj h).2 with ⟨mid, -, hmid⟩ | ⟨mid, hmid, rfl⟩
        · exact ihRest hmid
        · obtain ⟨first, content, more, rfl⟩ := ihChildren hmid
          exact ⟨first, content, more ++ .closing other :: rest.pieces, by simp⟩

theorem closing_mem_of_opening_mem {name : String} {nodes : Nodes}
    (h : .opening name ∈ nodes.pieces) : .closing name ∈ nodes.pieces := by
  obtain ⟨front, back, hpieces⟩ := List.append_of_mem h
  obtain ⟨first, children, more, rfl⟩ := exists_content hpieces
  rw [hpieces]
  simp

end Nodes

/-! ### Other texts -/

/-- The piece with another text. -/
def Piece.mapText (f : List Char → List Char) : Piece → Piece
  | text chunk => text (f chunk)
  | piece => piece

theorem Piece.mapText_eq_iff {f : List Char → List Char} {piece tag : Piece} (h : tag.IsTag) :
    piece.mapText f = tag ↔ piece = tag := by
  cases piece with
  | text chunk =>
    cases tag with
    | text other => cases h
    | _ => simp [mapText]
  | _ => rfl

theorem mem_map_mapText {f : List Char → List Char} {tag : Piece} (h : tag.IsTag)
    {pieces : List Piece} : tag ∈ pieces.map (Piece.mapText f) ↔ tag ∈ pieces := by
  simp [Piece.mapText_eq_iff h]

theorem split_map_mapText (f : List Char → List Char) {tag : Piece} (h : tag.IsTag)
    (pieces : List Piece) :
    split tag (pieces.map (Piece.mapText f)) = (split tag pieces).map fun parts ↦
      (parts.1.map (Piece.mapText f), parts.2.map (Piece.mapText f)) := by
  induction pieces with
  | nil => rfl
  | cons piece pieces ih =>
    rw [List.map_cons, split, split]
    by_cases hpiece : piece = tag
    · rw [if_pos hpiece, if_pos ((Piece.mapText_eq_iff h).mpr hpiece)]
      rfl
    · rw [if_neg hpiece, if_neg (mt (Piece.mapText_eq_iff h).mp hpiece), ih, Option.map_map,
        Option.map_map]
      rfl

/-- Nodes with other texts. -/
def Nodes.mapText (f : List Char → List Char) : Nodes → Nodes
  | nil => nil
  | text chunk rest => text (f chunk) (rest.mapText f)
  | tag body rest => tag body (rest.mapText f)
  | element name attributes first children rest =>
    element name attributes (f first) (children.mapText f) (rest.mapText f)

theorem Nodes.pieces_mapText (f : List Char → List Char) (nodes : Nodes) :
    (nodes.mapText f).pieces = nodes.pieces.map (Piece.mapText f) := by
  induction nodes with
  | nil => rfl
  | text chunk rest ih =>
    rw [mapText, pieces, ih]
    rfl
  | tag body rest ih =>
    rw [mapText, pieces, ih]
    rfl
  | element name attributes first children rest ihChildren ihRest =>
    have hhead : (headTag name attributes).mapText f = headTag name attributes := by
      unfold headTag
      split_ifs <;> rfl
    rw [mapText, pieces, ihChildren, ihRest, pieces, List.map_cons, hhead]
    simp [Piece.mapText]

theorem Nodes.mapText_mapText (f g : List Char → List Char) (nodes : Nodes) :
    (nodes.mapText g).mapText f = nodes.mapText (f ∘ g) := by
  induction nodes with
  | nil => rfl
  | text chunk rest ih => simp [mapText, ih]
  | tag body rest ih => simp [mapText, ih]
  | element name attributes first children rest ihChildren ihRest =>
    simp [mapText, ihChildren, ihRest]

/-! ### The first child of a name -/

namespace Nodes

/-- The nodes in front of the first element with the tag `<name>`, all where there is none. -/
def front (name : String) : Nodes → Nodes
  | nil => nil
  | text chunk rest => text chunk (rest.front name)
  | tag body rest => tag body (rest.front name)
  | element other attributes first children rest =>
    if other = name ∧ attributes = [] then nil
    else element other attributes first children (rest.front name)

/-- The first element with the tag `<name>`. -/
def own (name : String) : Nodes → List Piece
  | nil => []
  | text _ rest => rest.own name
  | tag _ rest => rest.own name
  | element other attributes first children rest =>
    if other = name ∧ attributes = [] then
      .opening name :: .text first :: (children.pieces ++ [.closing name])
    else rest.own name

theorem pieces_eq (name : String) (nodes : Nodes) :
    ∃ rest, nodes.pieces = (nodes.front name).pieces ++ (nodes.own name ++ rest) ∧
      (nodes.own name = [] → rest = []) := by
  induction nodes with
  | nil => exact ⟨[], rfl, fun _ ↦ rfl⟩
  | text chunk rest ih =>
    obtain ⟨behind, hpieces, hnone⟩ := ih
    exact ⟨behind, by rw [pieces, hpieces]; rfl, hnone⟩
  | tag body rest ih =>
    obtain ⟨behind, hpieces, hnone⟩ := ih
    exact ⟨behind, by rw [pieces, hpieces]; rfl, hnone⟩
  | element other attributes first children rest _ ih =>
    obtain ⟨behind, hpieces, hnone⟩ := ih
    unfold front own
    split_ifs with hown
    · obtain ⟨rfl, rfl⟩ := hown
      exact ⟨rest.pieces, by simp [pieces, headTag], fun h ↦ absurd h (by simp)⟩
    · exact ⟨behind, by simp [pieces, hpieces], hnone⟩

/-- The first element with the tag `<name>` begins and ends with its tags. -/
theorem own_eq (name : String) (nodes : Nodes) :
    nodes.own name = [] ∨ ∃ inner, nodes.own name = .opening name :: (inner ++ [.closing name]) := by
  induction nodes with
  | nil => exact Or.inl rfl
  | text chunk rest ih => exact ih
  | tag body rest ih => exact ih
  | element other attributes first children rest _ ih =>
    unfold own
    split_ifs with hown
    · exact Or.inr ⟨.text first :: children.pieces, rfl⟩
    · exact ih

/-- The nodes with no text but that of the elements with the tag `<name>`. -/
def masked (name : String) : Nodes → Nodes
  | nil => nil
  | text _ rest => text [] (rest.masked name)
  | tag body rest => tag body (rest.masked name)
  | element other attributes first children rest =>
    if other = name ∧ attributes = [] then
      element other attributes first children (rest.masked name)
    else element other attributes [] (children.mapText fun _ ↦ []) (rest.masked name)

theorem front_masked (name : String) (nodes : Nodes) :
    (nodes.masked name).front name = (nodes.front name).mapText fun _ ↦ [] := by
  induction nodes with
  | nil => rfl
  | text chunk rest ih => rw [masked, front, ih, front, mapText]
  | tag body rest ih => rw [masked, front, ih, front, mapText]
  | element other attributes first children rest _ ih =>
    unfold masked
    split_ifs with hown
    · simp [front, hown, mapText]
    · simp [front, hown, mapText, ih]

theorem own_masked (name : String) (nodes : Nodes) : (nodes.masked name).own name = nodes.own name := by
  induction nodes with
  | nil => rfl
  | text chunk rest ih => exact ih
  | tag body rest ih => exact ih
  | element other attributes first children rest _ ih =>
    unfold masked
    split_ifs with hown
    · simp [own, hown]
    · simp [own, hown, ih]

/-- The nodes with other texts in front of the first element with the tag `<name>`. -/
def refill (name : String) (f : List Char → List Char) : Nodes → Nodes
  | nil => nil
  | text chunk rest => text (f chunk) (rest.refill name f)
  | tag body rest => tag body (rest.refill name f)
  | element other attributes first children rest =>
    if other = name ∧ attributes = [] then element other attributes first children rest
    else element other attributes (f first) (children.mapText f) (rest.refill name f)

theorem masked_refill (name : String) (f : List Char → List Char) (nodes : Nodes) :
    (nodes.refill name f).masked name = nodes.masked name := by
  induction nodes with
  | nil => rfl
  | text chunk rest ih => rw [refill, masked, ih, masked]
  | tag body rest ih => rw [refill, masked, ih, masked]
  | element other attributes first children rest _ ih =>
    unfold refill
    split_ifs with hown
    · rfl
    · simp only [masked, if_neg hown, ih, mapText_mapText]
      rfl

theorem front_refill (name : String) (f : List Char → List Char) (nodes : Nodes) :
    (nodes.refill name f).front name = (nodes.front name).mapText f := by
  induction nodes with
  | nil => rfl
  | text chunk rest ih => rw [refill, front, ih, front, mapText]
  | tag body rest ih => rw [refill, front, ih, front, mapText]
  | element other attributes first children rest _ ih =>
    unfold refill
    split_ifs with hown
    · simp [front, hown, mapText]
    · simp [front, hown, mapText, ih]

theorem wellFormed_refill {name : String} {f : List Char → List Char} (hf : ∀ chunk, '<' ∉ f chunk)
    {nodes : Nodes} (h : WellFormed nodes.pieces) : WellFormed (nodes.refill name f).pieces := by
  have hmap : ∀ {pieces : List Piece}, WellFormed pieces →
      WellFormed (pieces.map (Piece.mapText f)) := by
    intro pieces hpieces piece hpiece
    obtain ⟨origin, horigin, rfl⟩ := List.mem_map.mp hpiece
    cases origin with
    | text chunk => exact hf chunk
    | _ => exact hpieces _ horigin
  induction nodes with
  | nil => exact h
  | text chunk rest ih =>
    exact List.forall_mem_cons.mpr ⟨hf chunk, ih (List.forall_mem_cons.mp h).2⟩
  | tag body rest ih =>
    obtain ⟨hbody, hrest⟩ := List.forall_mem_cons.mp h
    exact List.forall_mem_cons.mpr ⟨hbody, ih hrest⟩
  | element other attributes first children rest _ ih =>
    unfold refill
    split_ifs with hown
    · exact h
    · obtain ⟨hhead, hbody⟩ := List.forall_mem_cons.mp h
      obtain ⟨-, hbody⟩ := List.forall_mem_cons.mp hbody
      obtain ⟨hchildren, hbehind⟩ := List.forall_mem_append.mp hbody
      obtain ⟨hclosing, hrest⟩ := List.forall_mem_cons.mp hbehind
      rw [pieces, pieces_mapText]
      exact List.forall_mem_cons.mpr ⟨hhead, List.forall_mem_cons.mpr ⟨hf first,
        List.forall_mem_append.mpr ⟨hmap hchildren, List.forall_mem_cons.mpr ⟨hclosing, ih hrest⟩⟩⟩⟩

end Nodes

/-! ### Cutting out a list -/

/-- The pieces without what is between the first opening and the first closing tag of a name. -/
def without (name : String) (pieces : List Piece) : List Piece :=
  match split (.opening name) pieces, split (.closing name) pieces with
  | some (before, _), some (_, after) => before ++ after
  | _, _ => pieces

theorem without_of_not_mem {name : String} {pieces : List Piece} (h : .opening name ∉ pieces) :
    without name pieces = pieces := by
  rw [without, split_eq_none_iff.mpr h]

theorem without_map_mapText (name : String) (f : List Char → List Char) (pieces : List Piece) :
    without name (pieces.map (Piece.mapText f)) = (without name pieces).map (Piece.mapText f) := by
  rw [without, without, split_map_mapText f (isTag_opening name),
    split_map_mapText f (isTag_closing name)]
  cases split (.opening name) pieces with
  | none => rfl
  | some first =>
    cases split (.closing name) pieces with
    | none => rfl
    | some second => exact List.map_append.symm

/-- Where an opening tag is in the pieces, a closing one is, too. -/
def Closed (name : String) (pieces : List Piece) : Prop :=
  .opening name ∈ pieces → .closing name ∈ pieces

theorem Nodes.closed (name : String) (nodes : Nodes) : Closed name nodes.pieces :=
  closing_mem_of_opening_mem

theorem split_append_of_mem {tag : Piece} {front : List Piece} (h : tag ∈ front) :
    ∃ before after, front = before ++ tag :: after ∧ tag ∉ before ∧
      ∀ rest, split tag (front ++ rest) = some (before, after ++ rest) := by
  obtain ⟨⟨before, after⟩, hsplit⟩ :=
    Option.ne_none_iff_exists'.mp (mt split_eq_none_iff.mp (not_not.mpr h))
  obtain ⟨hfront, hfree⟩ := split_eq_some hsplit
  refine ⟨before, after, hfront, hfree, fun rest ↦ ?_⟩
  rw [hfront, List.append_assoc, List.cons_append, split_append_cons hfree]

/-- What is left where a list is opened, whatever is around. -/
theorem exists_without {name : String} {pieces : List Piece} (hclosed : Closed name pieces)
    (hopen : .opening name ∈ pieces) :
    ∃ before inner outer after, pieces = before ++ .opening name :: inner ∧
      pieces = outer ++ .closing name :: after ∧ .closing name ∉ outer ∧
      ∀ front rest, .opening name ∉ front → .closing name ∉ front →
        without name (front ++ (pieces ++ rest)) = front ++ (before ++ (after ++ rest)) := by
  obtain ⟨before, inner, hbefore, -, hopening⟩ := split_append_of_mem hopen
  obtain ⟨outer, after, hafter, hfree, hclosing⟩ := split_append_of_mem (hclosed hopen)
  refine ⟨before, inner, outer, after, hbefore, hafter, hfree, fun front rest hopens hcloses ↦ ?_⟩
  rw [without, split_append_of_not_mem hopens, split_append_of_not_mem hcloses, hopening, hclosing]
  simp

/-- Pieces around that have no tag of the list stay as they are. -/
theorem without_frame {name : String} {before pieces after : List Piece}
    (hclosed : Closed name pieces) (hopening : .opening name ∉ before ++ after)
    (hclosing : .closing name ∉ before) :
    without name (before ++ (pieces ++ after)) = before ++ (without name pieces ++ after) := by
  rw [List.mem_append, not_or] at hopening
  by_cases hopen : .opening name ∈ pieces
  · obtain ⟨front, -, -, back, -, -, -, haround⟩ := exists_without hclosed hopen
    have hself := haround [] [] List.not_mem_nil List.not_mem_nil
    rw [List.nil_append, List.append_nil, List.append_nil, List.nil_append] at hself
    rw [haround before after hopening.1 hclosing, hself, List.append_assoc]
  · rw [without_of_not_mem hopen, without_of_not_mem]
    simp only [List.mem_append, not_or]
    exact ⟨hopening.1, hopen, hopening.2⟩

/-- What is behind pieces that have no list of their own cannot cut anything out of them. -/
theorem without_append {name : String} {front own : List Piece} (hfront : Closed name front)
    (hown : .opening name ∉ own) (rest : List Piece) :
    ∃ more, without name (front ++ (own ++ rest)) = without name front ++ (own ++ more) := by
  by_cases hopen : .opening name ∈ front
  · obtain ⟨before, -, -, after, -, -, -, haround⟩ := exists_without hfront hopen
    have hself := haround [] [] List.not_mem_nil List.not_mem_nil
    rw [List.nil_append, List.append_nil, List.append_nil, List.nil_append] at hself
    have hwhole := haround [] (own ++ rest) List.not_mem_nil List.not_mem_nil
    rw [List.nil_append, List.nil_append] at hwhole
    exact ⟨rest, by rw [hwhole, hself, List.append_assoc]⟩
  · rw [without_of_not_mem hopen, without, split_append_of_not_mem hopen,
      split_append_of_not_mem hown]
    cases split (.opening name) rest with
    | none => exact ⟨rest, rfl⟩
    | some first =>
      cases split (.closing name) (front ++ (own ++ rest)) with
      | none => exact ⟨rest, rfl⟩
      | some second => exact ⟨first.1 ++ second.2, by simp⟩

/-- An element that is opened in front of a list is closed there, or behind the end of the first
list. -/
theorem closing_mem_of_opening_list {list name : String} (hname : name ≠ list) {nodes : Nodes}
    {before tail inner outer after : List Piece}
    (hpieces : nodes.pieces = before ++ .opening name :: (tail ++ .opening list :: inner))
    (hafter : nodes.pieces = outer ++ .closing list :: after) (hfree : .closing list ∉ outer) :
    ∃ first later, tail = .text first :: later ∧ .closing name ∈ later ++ after := by
  obtain ⟨first, children, more, hcontent⟩ := Nodes.exists_content hpieces
  cases tail with
  | nil => exact absurd (List.cons.inj hcontent).1 (by simp)
  | cons piece later =>
    rw [List.cons_append] at hcontent
    obtain ⟨hpiece, hbehind⟩ := List.cons.inj hcontent
    have hkinds : Piece.opening list ≠ .closing name := Piece.noConfusion
    refine ⟨first, later, by rw [hpiece], List.mem_append.mpr ?_⟩
    rcases order_of_ne hkinds hbehind with ⟨mid, hmid, -⟩ | ⟨mid, hmid, -⟩
    · have hinside : .closing list ∈ children.pieces := children.closed list (by simp [hmid])
      have hends : outer ++ .closing list :: after =
          (before ++ .opening name :: .text first :: children.pieces) ++ .closing name :: more := by
        rw [← hafter, hpieces, List.cons_append, hbehind, hpiece]
        simp
      rcases order_of_ne (by simpa using Ne.symm hname) hends with ⟨late, -, hlate⟩ |
        ⟨late, hlate, -⟩
      · exact Or.inr (by simp [hlate])
      · exact absurd (by simp [hlate, hinside]) hfree
    · exact Or.inl (by simp [hmid])

/-- A tag that is left in nodes has its text, and its closing tag, behind it. -/
theorem exists_content_of_without {list name : String} (hname : name ≠ list) {nodes : Nodes}
    (hmem : .opening name ∈ without list nodes.pieces) (rest : List Piece) :
    ∃ before first behind, split (.opening name) (without list nodes.pieces ++ rest) =
      some (before, .text first :: behind) ∧ .text first ∈ nodes.pieces ∧
      .closing name ∈ behind := by
  obtain ⟨before, behind, hleft, -, hsplit⟩ := split_append_of_mem hmem
  suffices ∃ first later, behind = .text first :: later ∧ .text first ∈ nodes.pieces ∧
      .closing name ∈ later by
    obtain ⟨first, later, rfl, htext, hclosing⟩ := this
    exact ⟨before, first, later ++ rest, hsplit rest, htext, List.mem_append_left _ hclosing⟩
  have hwhole : ∀ front, nodes.pieces = front ++ .opening name :: behind →
      ∃ first later, behind = .text first :: later ∧ .text first ∈ nodes.pieces ∧
        .closing name ∈ later := by
    intro front hpieces
    obtain ⟨first, children, more, rfl⟩ := Nodes.exists_content hpieces
    exact ⟨first, _, rfl, by simp [hpieces], by simp⟩
  by_cases hopen : .opening list ∈ nodes.pieces
  · obtain ⟨kept, inner, outer, after, hkept, hafter, hfree, haround⟩ :=
      exists_without (nodes.closed list) hopen
    have hself := haround [] [] List.not_mem_nil List.not_mem_nil
    rw [List.nil_append, List.append_nil, List.append_nil, List.nil_append, hleft] at hself
    rcases List.append_eq_append_iff.mp hself with ⟨tail, hfront, htail⟩ | ⟨tail, -, htail⟩
    · cases tail with
      | nil =>
        rw [List.nil_append] at htail
        exact hwhole (outer ++ [.closing list]) (by rw [hafter, ← htail]; simp)
      | cons piece tail =>
        obtain ⟨rfl, rfl⟩ := List.cons.inj htail
        have hpieces : nodes.pieces = before ++ .opening name :: (tail ++ .opening list :: inner) := by
          rw [hkept, hfront, List.append_assoc]
          rfl
        obtain ⟨first, later, rfl, hclosing⟩ :=
          closing_mem_of_opening_list hname hpieces hafter hfree
        exact ⟨first, later ++ after, rfl, by simp [hpieces], hclosing⟩
    · exact hwhole (outer ++ .closing list :: tail) (by rw [hafter, htail]; simp)
  · rw [without_of_not_mem hopen] at hleft
    exact hwhole _ hleft

end Cecore.Library.Markup
