import Cecore.Library.Characters
import Mathlib.Data.List.Infix
import Mathlib.Data.List.TakeDrop
import Mathlib.Data.Option.Basic

/-!
# Searching markup for tags

Text is searched for the first occurrence of a pattern (`cut`). Markup is a list of pieces, tags and
text between them; where no text has a `<`, the first occurrence of a tag in the written markup is
the first piece that is this tag (`cut_render`).
-/

set_option autoImplicit false
set_option relaxedAutoImplicit false

namespace Cecore.Library.Markup

/-! ### The first occurrence of a pattern -/

/-- The text cut at the first occurrence of a pattern: what is in front of it and what is behind. -/
def cut (pattern : List Char) : List Char → Option (List Char × List Char)
  | [] => if pattern = [] then some ([], []) else none
  | c :: rest =>
    if pattern.isPrefixOf (c :: rest) then some ([], (c :: rest).drop pattern.length)
    else (cut pattern rest).map fun parts ↦ (c :: parts.1, parts.2)

/-- A text in front of a result. -/
def under (front : List Char) (parts : List Char × List Char) : List Char × List Char :=
  (front ++ parts.1, parts.2)

theorem cut_pattern_append (pattern rest : List Char) :
    cut pattern (pattern ++ rest) = some ([], rest) := by
  cases hp : pattern ++ rest with
  | nil =>
    obtain ⟨rfl, rfl⟩ := List.append_eq_nil_iff.mp hp
    rfl
  | cons c tail =>
    have hstarts : pattern.isPrefixOf (c :: tail) = true := by
      rw [← hp, List.isPrefixOf_iff_prefix]
      exact List.prefix_append _ _
    rw [cut, if_pos hstarts, ← hp, List.drop_left]

theorem cut_cons_of_not_start {pattern : List Char} {c : Char} {rest : List Char}
    (h : ¬pattern <+: c :: rest) :
    cut pattern (c :: rest) = (cut pattern rest).map (under [c]) := by
  rw [cut, if_neg (by rwa [List.isPrefixOf_iff_prefix])]
  rfl

theorem map_under_under (first second : List Char) (found : Option (List Char × List Char)) :
    (found.map (under second)).map (under first) = found.map (under (first ++ second)) := by
  rw [Option.map_map]
  congr 1
  funext parts
  simp [under]

/-- A text without the first character of the pattern is passed over. -/
theorem cut_append_of_not_mem {bracket : Char} {body text : List Char} (h : bracket ∉ text)
    (rest : List Char) :
    cut (bracket :: body) (text ++ rest) = (cut (bracket :: body) rest).map (under text) := by
  induction text with
  | nil =>
    simp only [List.nil_append]
    cases cut (bracket :: body) rest <;> rfl
  | cons c text ih =>
    obtain ⟨hc, htext⟩ := List.ne_and_not_mem_of_not_mem_cons h
    have hno : ¬bracket :: body <+: c :: (text ++ rest) := fun hstarts ↦
      hc (List.cons_prefix_cons.mp hstarts).1
    rw [List.cons_append, cut_cons_of_not_start hno, ih htext, map_under_under]
    rfl

/-- A text that ends with the first occurrence has the pattern in it, and the other way round. -/
theorem cut_eq_none_iff {pattern text : List Char} : cut pattern text = none ↔ ¬pattern <:+: text := by
  induction text with
  | nil =>
    rw [cut, List.infix_nil]
    split_ifs with h <;> simp [h]
  | cons c rest ih =>
    rw [List.infix_cons_iff]
    by_cases hstarts : pattern <+: c :: rest
    · rw [cut, if_pos (List.isPrefixOf_iff_prefix.mpr hstarts)]
      simp [hstarts]
    · rw [cut_cons_of_not_start hstarts, Option.map_eq_none_iff, ih]
      simp [hstarts]

theorem cut_length {pattern text before after : List Char}
    (h : cut pattern text = some (before, after)) :
    before.length + pattern.length + after.length = text.length := by
  induction text generalizing before with
  | nil =>
    rw [cut] at h
    split_ifs at h with hnil
    cases h
    rw [hnil]
    rfl
  | cons c rest ih =>
    by_cases hstarts : pattern <+: c :: rest
    · obtain ⟨tail, htail⟩ := hstarts
      rw [← htail, cut_pattern_append] at h
      cases h
      rw [← htail, List.length_append]
      simp
    · rw [cut_cons_of_not_start hstarts] at h
      obtain ⟨parts, hparts, heq⟩ := Option.map_eq_some_iff.mp h
      cases heq
      have := ih hparts
      simp only [List.length_append, List.length_cons, List.length_nil]
      omega

/-! ### Pieces of markup -/

/-- A tag, or the text between two tags. A mark is a tag that neither opens nor closes an element.
-/
inductive Piece
  | opening (name : String)
  | closing (name : String)
  | mark (body : List Char)
  | text (chunk : List Char)
  deriving DecidableEq

/-- What stands between the angle brackets of a tag. -/
def Piece.body : Piece → List Char
  | opening name => name.toList
  | closing name => '/' :: name.toList
  | mark body => body
  | text _ => []

def Piece.render : Piece → List Char
  | text chunk => chunk
  | piece => '<' :: (piece.body ++ ['>'])

/-- Pieces written one behind the other. -/
def render (pieces : List Piece) : List Char := pieces.flatMap Piece.render

theorem render_nil : render [] = [] := rfl

theorem render_cons (piece : Piece) (pieces : List Piece) :
    render (piece :: pieces) = piece.render ++ render pieces := rfl

theorem render_append (first second : List Piece) :
    render (first ++ second) = render first ++ render second :=
  List.flatMap_append

/-- A name has no angle bracket, no slash and no blank. -/
def PlainName (name : String) : Prop :=
  ∀ c ∈ name.toList, c ≠ '<' ∧ c ≠ '>' ∧ c ≠ '/' ∧ c ≠ ' '

instance (name : String) : Decidable (PlainName name) := inferInstanceAs (Decidable (∀ _ ∈ _, _))

/-- Names are plain, marks have a blank or a slash that no name has, and no text has a `<`. -/
def Piece.WellFormed : Piece → Prop
  | opening name => PlainName name
  | closing name => PlainName name
  | mark body => '<' ∉ body ∧ '>' ∉ body ∧ (' ' ∈ body ∨ '/' ∈ body.tail)
  | text chunk => '<' ∉ chunk

instance : (piece : Piece) → Decidable piece.WellFormed
  | .opening name => inferInstanceAs (Decidable (PlainName name))
  | .closing name => inferInstanceAs (Decidable (PlainName name))
  | .mark body => inferInstanceAs (Decidable ('<' ∉ body ∧ '>' ∉ body ∧ (' ' ∈ body ∨ '/' ∈ body.tail)))
  | .text chunk => inferInstanceAs (Decidable ('<' ∉ chunk))

abbrev WellFormed (pieces : List Piece) : Prop := ∀ piece ∈ pieces, piece.WellFormed

/-- Openings and closings, the tags that are searched for. -/
def Piece.IsTag : Piece → Prop
  | opening _ => True
  | closing _ => True
  | _ => False

theorem isTag_opening (name : String) : (Piece.opening name).IsTag := trivial

theorem isTag_closing (name : String) : (Piece.closing name).IsTag := trivial

theorem Piece.IsTag.render_eq {piece : Piece} (h : piece.IsTag) :
    piece.render = '<' :: (piece.body ++ ['>']) := by
  cases piece <;> first | rfl | cases h

/-- A tag has no angle bracket between its own. -/
theorem Piece.WellFormed.body_plain {piece : Piece} (h : piece.WellFormed) :
    '<' ∉ piece.body ∧ '>' ∉ piece.body := by
  cases piece with
  | opening name => exact ⟨fun hc ↦ (h _ hc).1 rfl, fun hc ↦ (h _ hc).2.1 rfl⟩
  | closing name =>
    refine ⟨fun hc ↦ ?_, fun hc ↦ ?_⟩
    · rcases List.mem_cons.mp hc with hslash | hname
      · exact absurd hslash (by decide)
      · exact (h _ hname).1 rfl
    · rcases List.mem_cons.mp hc with hslash | hname
      · exact absurd hslash (by decide)
      · exact (h _ hname).2.1 rfl
  | mark body => exact ⟨h.1, h.2.1⟩
  | text chunk => exact ⟨List.not_mem_nil, List.not_mem_nil⟩

theorem PlainName.head_ne {name : String} (h : PlainName name) {rest : List Char} :
    name.toList ≠ '/' :: rest := by
  intro heq
  exact (h '/' (heq ▸ List.mem_cons_self)).2.2.1 rfl

/-- Different tags have different bodies. -/
theorem Piece.body_ne {first second : Piece} (htag : first.IsTag) (hfirst : first.WellFormed)
    (hsecond : second.WellFormed) (hne : second ≠ first) (htext : ∀ chunk, second ≠ text chunk) :
    first.body ≠ second.body := by
  intro heq
  have hname : ∀ name : String, PlainName name → ' ' ∉ name.toList ∧ '/' ∉ name.toList :=
    fun name hplain ↦ ⟨fun hc ↦ (hplain _ hc).2.2.2 rfl, fun hc ↦ (hplain _ hc).2.2.1 rfl⟩
  have hblank : ¬(' ' ∈ first.body ∨ '/' ∈ first.body.tail) := by
    cases first with
    | opening name =>
      obtain ⟨hspace, hslash⟩ := hname name hfirst
      exact fun hc ↦ hc.elim hspace fun htail ↦ hslash (List.mem_of_mem_tail htail)
    | closing name =>
      obtain ⟨hspace, hslash⟩ := hname name hfirst
      rintro (hc | hc)
      · rcases List.mem_cons.mp hc with hc | hc
        · exact absurd hc (by decide)
        · exact hspace hc
      · exact hslash hc
    | mark body => cases htag
    | text chunk => cases htag
  cases second with
  | opening name =>
    cases first with
    | opening other => exact hne (congrArg opening (String.toList_inj.mp heq).symm)
    | closing other => exact hsecond.head_ne heq.symm
    | mark body => cases htag
    | text chunk => cases htag
  | closing name =>
    cases first with
    | opening other => exact hfirst.head_ne heq
    | closing other => exact hne (congrArg closing (String.toList_inj.mp (List.cons.inj heq).2).symm)
    | mark body => cases htag
    | text chunk => cases htag
  | mark body => exact hblank (heq ▸ hsecond.2.2)
  | text chunk => exact htext chunk rfl

/-! ### Searching pieces -/

/-- The pieces cut at the first one that is `tag`. -/
def split (tag : Piece) : List Piece → Option (List Piece × List Piece)
  | [] => none
  | piece :: rest =>
    if piece = tag then some ([], rest)
    else (split tag rest).map fun parts ↦ (piece :: parts.1, parts.2)

/-- A tag is passed over by a pattern that does not begin at its bracket. -/
theorem cut_append_of_tag {pattern body rest : List Char} (hopen : '<' ∉ body)
    (hno : ¬pattern <+: body ++ '>' :: rest) :
    cut ('<' :: pattern) ('<' :: (body ++ ['>']) ++ rest) =
      (cut ('<' :: pattern) rest).map (under ('<' :: (body ++ ['>']))) := by
  have hshape : '<' :: (body ++ ['>']) ++ rest = '<' :: (body ++ ['>'] ++ rest) := rfl
  have hskip : ¬('<' :: pattern <+: '<' :: (body ++ ['>'] ++ rest)) := by
    intro hstarts
    refine hno ?_
    rw [← List.append_cons] at *
    exact (List.cons_prefix_cons.mp hstarts).2
  have hinner : '<' ∉ body ++ ['>'] := by
    rw [List.mem_append, not_or]
    exact ⟨hopen, by decide⟩
  rw [hshape, cut_cons_of_not_start hskip, cut_append_of_not_mem hinner, map_under_under]
  rfl

/-- What is up to the first `>` on both sides is the same. -/
theorem eq_of_bracketed {first second rest : List Char} (hfirst : '>' ∉ first)
    (hsecond : '>' ∉ second) (h : first ++ ['>'] <+: second ++ '>' :: rest) : first = second := by
  induction first generalizing second with
  | nil =>
    cases second with
    | nil => rfl
    | cons c second =>
      have hc : '>' = c := (List.cons_prefix_cons.mp h).1
      exact absurd (hc ▸ List.mem_cons_self) hsecond
  | cons c first ih =>
    obtain ⟨hc, hfirst⟩ := List.ne_and_not_mem_of_not_mem_cons hfirst
    cases second with
    | nil => exact absurd (List.cons_prefix_cons.mp h).1.symm hc
    | cons d second =>
      obtain ⟨rfl, htail⟩ := List.cons_prefix_cons.mp h
      rw [ih hfirst (List.ne_and_not_mem_of_not_mem_cons hsecond).2 htail]

/-- A piece that is not the tag is passed over. -/
theorem cut_append_of_ne {tag piece : Piece} (htag : tag.IsTag) (hplain : tag.WellFormed)
    (hpiece : piece.WellFormed) (hne : piece ≠ tag) (rest : List Char) :
    cut tag.render (piece.render ++ rest) = (cut tag.render rest).map (under piece.render) := by
  rw [htag.render_eq]
  by_cases htext : ∃ chunk, piece = .text chunk
  · obtain ⟨chunk, rfl⟩ := htext
    exact cut_append_of_not_mem hpiece rest
  · have hrender : piece.render = '<' :: (piece.body ++ ['>']) := by
      cases piece with
      | text chunk => exact absurd ⟨chunk, rfl⟩ htext
      | _ => rfl
    rw [hrender]
    refine cut_append_of_tag hpiece.body_plain.1 fun hstarts ↦ ?_
    exact Piece.body_ne htag hplain hpiece hne (fun chunk heq ↦ htext ⟨chunk, heq⟩)
      (eq_of_bracketed hplain.body_plain.2 hpiece.body_plain.2 hstarts)

/-- The parts that pieces were cut into, written out. -/
def renderParts (parts : List Piece × List Piece) : List Char × List Char :=
  (render parts.1, render parts.2)

/-- The first occurrence of a tag in written markup is the first piece that is this tag, and where
there is none, it is in the text behind. -/
theorem cut_render_append {tag : Piece} (htag : tag.IsTag) (hplain : tag.WellFormed)
    {pieces : List Piece} (h : WellFormed pieces) (tail : List Char) :
    cut tag.render (render pieces ++ tail) =
      match split tag pieces with
      | some (before, after) => some (render before, render after ++ tail)
      | none => (cut tag.render tail).map (under (render pieces)) := by
  induction pieces with
  | nil =>
    rw [render_nil, List.nil_append, split]
    cases cut tag.render tail <;> rfl
  | cons piece pieces ih =>
    obtain ⟨hpiece, hpieces⟩ := List.forall_mem_cons.mp h
    rw [render_cons, split, List.append_assoc]
    split_ifs with heq
    · rw [heq, cut_pattern_append]
      rfl
    · rw [cut_append_of_ne htag hplain hpiece heq, ih hpieces]
      cases split tag pieces with
      | some parts =>
        obtain ⟨before, after⟩ := parts
        rfl
      | none =>
        dsimp only [Option.map_none]
        rw [map_under_under]

/-- The first occurrence of a tag in written markup is the first piece that is this tag. -/
theorem cut_render {tag : Piece} (htag : tag.IsTag) (hplain : tag.WellFormed) {pieces : List Piece}
    (h : WellFormed pieces) :
    cut tag.render (render pieces) = (split tag pieces).map renderParts := by
  have hnil : cut tag.render [] = none := by
    rw [htag.render_eq]
    rfl
  have hcut := cut_render_append htag hplain h []
  rw [List.append_nil, hnil] at hcut
  rw [hcut]
  cases split tag pieces with
  | some parts =>
    dsimp only
    rw [List.append_nil]
    rfl
  | none => rfl

theorem split_eq_none_iff {tag : Piece} {pieces : List Piece} :
    split tag pieces = none ↔ tag ∉ pieces := by
  induction pieces with
  | nil => simp [split]
  | cons piece pieces ih =>
    rw [split]
    split_ifs with heq
    · simp [heq]
    · rw [Option.map_eq_none_iff, ih, List.mem_cons, not_or]
      exact ⟨fun hrest ↦ ⟨Ne.symm heq, hrest⟩, And.right⟩

theorem split_append_of_not_mem {tag : Piece} {front : List Piece} (h : tag ∉ front)
    (rest : List Piece) :
    split tag (front ++ rest) = (split tag rest).map fun parts ↦ (front ++ parts.1, parts.2) := by
  induction front with
  | nil =>
    simp only [List.nil_append]
    cases split tag rest <;> rfl
  | cons piece front ih =>
    obtain ⟨hne, hfront⟩ := List.ne_and_not_mem_of_not_mem_cons h
    rw [List.cons_append, split, if_neg (Ne.symm hne), ih hfront, Option.map_map]
    rfl

theorem split_append_cons {tag : Piece} {front : List Piece} (h : tag ∉ front) (rest : List Piece) :
    split tag (front ++ tag :: rest) = some (front, rest) := by
  rw [split_append_of_not_mem h, split, if_pos rfl]
  simp

theorem split_eq_some {tag : Piece} {pieces before after : List Piece}
    (h : split tag pieces = some (before, after)) : pieces = before ++ tag :: after ∧ tag ∉ before := by
  induction pieces generalizing before with
  | nil => cases h
  | cons piece pieces ih =>
    rw [split] at h
    split_ifs at h with heq
    · cases h
      exact ⟨by rw [heq]; rfl, List.not_mem_nil⟩
    · obtain ⟨parts, hparts, hsame⟩ := Option.map_eq_some_iff.mp h
      cases hsame
      obtain ⟨hpieces, hfree⟩ := ih hparts
      exact ⟨by rw [hpieces]; rfl, List.not_mem_cons_of_ne_of_not_mem (Ne.symm heq) hfree⟩

/-! ### Searching for the beginning of a tag -/

/-- A tag that does not begin with `start` is passed over, and so is text. -/
theorem cut_append_of_start {start : List Char} (hstart : '>' ∉ start) {piece : Piece}
    (hpiece : piece.WellFormed) (hno : ¬start <+: piece.body) (rest : List Char) :
    cut ('<' :: start) (piece.render ++ rest) =
      (cut ('<' :: start) rest).map (under piece.render) := by
  by_cases htext : ∃ chunk, piece = .text chunk
  · obtain ⟨chunk, rfl⟩ := htext
    exact cut_append_of_not_mem hpiece rest
  · have hrender : piece.render = '<' :: (piece.body ++ ['>']) := by
      cases piece with
      | text chunk => exact absurd ⟨chunk, rfl⟩ htext
      | _ => rfl
    rw [hrender]
    refine cut_append_of_tag hpiece.body_plain.1 fun hstarts ↦ hno ?_
    rcases List.prefix_or_prefix_of_prefix hstarts (List.prefix_append _ _) with hshort | ⟨more, rfl⟩
    · exact hshort
    · have hmore := (List.prefix_append_right_inj _).mp hstarts
      cases more with
      | nil => rw [List.append_nil]
      | cons c more =>
        have hc : c = '>' := (List.cons_prefix_cons.mp hmore).1
        exact absurd (by simp [hc]) hstart

/-- A tag that begins in another way than all pieces is looked for behind them. -/
theorem cut_append_of_starts {start : List Char} (hstart : '>' ∉ start) {pieces : List Piece}
    (hwf : WellFormed pieces) (hno : ∀ piece ∈ pieces, ¬start <+: piece.body) (rest : List Char) :
    cut ('<' :: start) (render pieces ++ rest) =
      (cut ('<' :: start) rest).map (under (render pieces)) := by
  induction pieces with
  | nil =>
    rw [render_nil, List.nil_append]
    cases cut ('<' :: start) rest <;> rfl
  | cons piece pieces ih =>
    obtain ⟨hpiece, hpieces⟩ := List.forall_mem_cons.mp hwf
    obtain ⟨hnoPiece, hnoPieces⟩ := List.forall_mem_cons.mp hno
    rw [render_cons, List.append_assoc, cut_append_of_start hstart hpiece hnoPiece,
      ih hpieces hnoPieces, map_under_under]

/-! ### The partner of a tag -/

/-- The pieces cut at the closing tag that ends an element of this name, with `depth` more of them
open; searching starts behind its opening tag. -/
def partner (name : String) : (depth : ℕ) → List Piece → Option (List Piece × List Piece)
  | _, [] => none
  | depth, piece :: rest =>
    let next (depth : ℕ) := (partner name depth rest).map fun parts ↦ (piece :: parts.1, parts.2)
    if piece = .closing name then (if depth = 0 then some ([], rest) else next (depth - 1))
    else if piece = .opening name then next (depth + 1)
    else next depth

/-- Pieces in which every element of this name that is opened is closed. -/
def Balanced (name : String) (pieces : List Piece) : Prop :=
  ∀ depth rest, partner name depth (pieces ++ rest) =
    (partner name depth rest).map fun parts ↦ (pieces ++ parts.1, parts.2)

theorem Balanced.partner_append {name : String} {pieces : List Piece} (h : Balanced name pieces)
    (rest : List Piece) :
    partner name 0 (pieces ++ .closing name :: rest) = some (pieces, rest) := by
  rw [h, partner]
  simp

theorem balanced_nil (name : String) : Balanced name [] := by
  intro depth rest
  simp only [List.nil_append]
  cases partner name depth rest <;> rfl

theorem Balanced.append {name : String} {first second : List Piece} (hfirst : Balanced name first)
    (hsecond : Balanced name second) : Balanced name (first ++ second) := by
  intro depth rest
  rw [List.append_assoc, hfirst, hsecond, Option.map_map]
  congr 1
  funext parts
  simp

/-- Pieces without tags of this name. -/
theorem balanced_of_free {name : String} {pieces : List Piece} (hopening : .opening name ∉ pieces)
    (hclosing : .closing name ∉ pieces) : Balanced name pieces := by
  induction pieces with
  | nil => exact balanced_nil name
  | cons piece pieces ih =>
    obtain ⟨hneOpening, hopening⟩ := List.ne_and_not_mem_of_not_mem_cons hopening
    obtain ⟨hneClosing, hclosing⟩ := List.ne_and_not_mem_of_not_mem_cons hclosing
    intro depth rest
    rw [List.cons_append, partner, if_neg (Ne.symm hneClosing), if_neg (Ne.symm hneOpening)]
    dsimp only
    rw [ih hopening hclosing, Option.map_map]
    rfl

/-- An element is balanced where its content is. -/
theorem Balanced.element {name : String} {pieces : List Piece} (h : Balanced name pieces) :
    Balanced name (.opening name :: (pieces ++ [.closing name])) := by
  intro depth rest
  have hne : Piece.opening name ≠ .closing name := Piece.noConfusion
  have hshape : Piece.opening name :: (pieces ++ [.closing name]) ++ rest =
      .opening name :: (pieces ++ .closing name :: rest) := by simp
  rw [hshape, partner, if_neg hne, if_pos rfl]
  dsimp only
  rw [h, partner, if_pos rfl, if_neg (Nat.succ_ne_zero depth)]
  dsimp only
  rw [Nat.add_sub_cancel, Option.map_map, Option.map_map]
  congr 1
  funext parts
  simp

theorem closing_mem_of_partner {name : String} {depth : ℕ} {pieces inner rest : List Piece}
    (h : partner name depth pieces = some (inner, rest)) : .closing name ∈ pieces := by
  by_contra hfree
  induction pieces generalizing depth inner rest with
  | nil => cases h
  | cons piece pieces ih =>
    obtain ⟨hne, hfree⟩ := List.ne_and_not_mem_of_not_mem_cons hfree
    rw [partner, if_neg (Ne.symm hne)] at h
    dsimp only at h
    split_ifs at h
    all_goals
      obtain ⟨⟨inner, rest⟩, hparts, -⟩ := Option.map_eq_some_iff.mp h
      exact ih hparts hfree

/-- How the search for a partner goes on behind the first closing tag, where no opening tag is in
front of it. -/
theorem partner_closing {name : String} {front back : List Piece} (hopening : .opening name ∉ front)
    (hclosing : .closing name ∉ front) (depth : ℕ) :
    partner name depth (front ++ .closing name :: back) =
      if depth = 0 then some (front, back)
      else (partner name (depth - 1) back).map fun parts ↦
        (front ++ .closing name :: parts.1, parts.2) := by
  rw [balanced_of_free hopening hclosing, partner, if_pos rfl]
  split_ifs
  · simp
  · dsimp only
    rw [Option.map_map]
    rfl

/-- How it goes on behind an opening tag. -/
theorem partner_opening {name : String} {front back : List Piece} (hopening : .opening name ∉ front)
    (hclosing : .closing name ∉ front) (depth : ℕ) :
    partner name depth (front ++ .opening name :: back) =
      (partner name (depth + 1) back).map fun parts ↦
        (front ++ .opening name :: parts.1, parts.2) := by
  have hne : Piece.opening name ≠ .closing name := Piece.noConfusion
  rw [balanced_of_free hopening hclosing, partner, if_neg hne, if_pos rfl]
  dsimp only
  rw [Option.map_map]
  rfl

end Cecore.Library.Markup
