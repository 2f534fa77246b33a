import Cecore.Table.XmlLoad

/-!
# Tags in written markup

What `getTag` and `findMatchingClose` find in the text of well-formed pieces, told by the pieces.
-/

set_option autoImplicit false
set_option relaxedAutoImplicit false

namespace Cecore.Table

open Library.Markup

/-- The first occurrence of an opening tag. -/
theorem cut_openTag {name : String} (hname : PlainName name) {pieces : List Piece}
    (h : WellFormed pieces) :
    cut (openTag name) (render pieces) = (split (.opening name) pieces).map renderParts :=
  cut_render (isTag_opening name) hname h

theorem cut_closeTag {name : String} (hname : PlainName name) {pieces : List Piece}
    (h : WellFormed pieces) :
    cut (closeTag name) (render pieces) = (split (.closing name) pieces).map renderParts :=
  cut_render (isTag_closing name) hname h

theorem wellFormed_of_split {tag : Piece} {pieces before after : List Piece} (h : WellFormed pieces)
    (hsplit : split tag pieces = some (before, after)) : WellFormed before ∧ WellFormed after := by
  rw [(split_eq_some hsplit).1] at h
  obtain ⟨hbefore, hafter⟩ := List.forall_mem_append.mp h
  exact ⟨hbefore, (List.forall_mem_cons.mp hafter).2⟩

/-- The pieces between the first opening tag of a name and the next closing tag. -/
def content (name : String) (pieces : List Piece) : Option (List Piece) :=
  match split (.opening name) pieces with
  | none => none
  | some (_, rest) => (split (.closing name) rest).map (·.1)

/-- `getTag` finds the content of the first element of the name. -/
theorem getTag_render {name : String} (hname : PlainName name) {pieces : List Piece}
    (h : WellFormed pieces) :
    getTag (render pieces) name = ((content name pieces).map render).getD [] := by
  rw [getTag, cut_openTag hname h, content]
  cases hopen : split (.opening name) pieces with
  | none => rfl
  | some parts =>
    obtain ⟨before, after⟩ := parts
    dsimp only [Option.map_some, renderParts]
    rw [cut_closeTag hname (wellFormed_of_split h hopen).2]
    cases split (.closing name) after with
    | none => rfl
    | some parts => rfl

/-! ### Blocks -/

theorem cut_length_lt {tag : String} {xml before after : Text}
    (h : cut (openTag tag) xml = some (before, after)) : after.length < xml.length := by
  have := cut_length h
  simp only [openTag, List.length_cons, List.length_append, List.length_nil] at this
  omega

/-- Any number of turns that suffices gives the same blocks. -/
theorem tagBlocks_eq {tag : String} {xml : Text} {first second : ℕ} (hfirst : xml.length ≤ first)
    (hsecond : xml.length ≤ second) : tagBlocks tag first xml = tagBlocks tag second xml := by
  induction first generalizing xml second with
  | zero =>
    obtain rfl := List.length_eq_zero_iff.mp (Nat.le_zero.mp hfirst)
    cases second with
    | zero => rfl
    | succ second => rfl
  | succ first ih =>
    cases second with
    | zero =>
      obtain rfl := List.length_eq_zero_iff.mp (Nat.le_zero.mp hsecond)
      rfl
    | succ second =>
      rw [tagBlocks, tagBlocks]
      cases hopen : cut (openTag tag) xml with
      | none => rfl
      | some parts =>
        dsimp only
        cases hclose : cut (closeTag tag) parts.2 with
        | none => rfl
        | some inside =>
          dsimp only
          have hless := cut_length_lt hopen
          have hmore := cut_length hclose
          rw [ih (by omega) (by omega : inside.2.length ≤ second)]

/-- The first block is the first element, and the others are behind it. -/
theorem getTagBlocks_element {name : String} (hname : PlainName name) {front inner after : List Piece}
    (hwf : WellFormed (front ++ .opening name :: (inner ++ .closing name :: after)))
    (hfront : Piece.opening name ∉ front) (hinner : Piece.closing name ∉ inner) :
    getTagBlocks (render (front ++ .opening name :: (inner ++ .closing name :: after))) name =
      (openTag name ++ render inner ++ closeTag name) :: getTagBlocks (render after) name := by
  have hrest : WellFormed (inner ++ .closing name :: after) :=
    (List.forall_mem_cons.mp (List.forall_mem_append.mp hwf).2).2
  set whole := render (front ++ .opening name :: (inner ++ .closing name :: after)) with hwhole
  have hopen : cut (openTag name) whole =
      some (render front, render (inner ++ .closing name :: after)) := by
    rw [hwhole, cut_openTag hname hwf, split_append_cons hfront]
    rfl
  have hless : (render after).length + 1 ≤ whole.length := by
    have := cut_length_lt hopen
    rw [render_append, List.length_append, render_cons, List.length_append] at this
    omega
  obtain ⟨turns, hturns⟩ := Nat.exists_eq_add_of_le' (Nat.le_trans (Nat.le_add_left _ _) hless)
  rw [getTagBlocks, hturns, tagBlocks, hopen]
  dsimp only
  rw [cut_closeTag hname hrest, split_append_cons hinner]
  dsimp only [Option.map_some, renderParts]
  rw [getTagBlocks, tagBlocks_eq (by omega : (render after).length ≤ turns) le_rfl]

theorem getTagBlocks_of_not_mem {name : String} (hname : PlainName name) {pieces : List Piece}
    (hwf : WellFormed pieces) (h : Piece.opening name ∉ pieces) :
    getTagBlocks (render pieces) name = [] := by
  rw [getTagBlocks]
  cases (render pieces).length with
  | zero => rfl
  | succ turns =>
    rw [tagBlocks, cut_openTag hname hwf, split_eq_none_iff.mpr h]
    rfl

/-! ### The partner of an opening tag -/

theorem render_length_lt {front back : List Piece} {piece : Piece} (h : piece.IsTag) :
    (render back).length < (render (front ++ piece :: back)).length := by
  rw [render_append, render_cons, h.render_eq]
  simp only [List.length_append, List.length_cons, List.length_nil]
  omega

/-- `findMatchingClose` finds the closing tag that belongs to an opening tag, whatever text follows
it. -/
theorem matchingClose_render {name : String} (hname : PlainName name) (tail : Text)
    {pieces inner rest : List Piece} (h : WellFormed pieces) {depth : ℕ}
    (hpartner : partner name depth pieces = some (inner, rest)) {turns : ℕ}
    (hturns : (render pieces ++ tail).length < turns) :
    matchingClose name turns depth (render pieces ++ tail) =
      some (render inner, render rest ++ tail) := by
  induction turns generalizing pieces depth inner rest with
  | zero => cases hturns
  | succ turns ih =>
    obtain ⟨⟨before, after⟩, hclose⟩ := Option.ne_none_iff_exists'.mp fun hnone ↦
      split_eq_none_iff.mp hnone (closing_mem_of_partner hpartner)
    obtain ⟨hpieces, hclosing⟩ := split_eq_some hclose
    obtain ⟨hwfBefore, hwfAfter⟩ := wellFormed_of_split h hclose
    have hcutClose : cut (closeTag name) (render pieces ++ tail) =
        some (render before, render after ++ tail) := by
      have hcut := cut_render_append (isTag_closing name) hname h tail
      rwa [hclose] at hcut
    have hcutOpen := cut_render_append (isTag_opening name) hname h tail
    change cut (openTag name) _ = _ at hcutOpen
    have hshorter : ∀ {front back : List Piece} {piece : Piece}, piece.IsTag →
        pieces = front ++ piece :: back → (render back ++ tail).length < turns := by
      rintro front back piece htag rfl
      have := @render_length_lt front back _ htag
      rw [List.length_append] at hturns ⊢
      omega
    rw [matchingClose, hcutClose]
    dsimp only
    cases hopen : split (.opening name) before with
    | some parts =>
      -- an element of the name is opened in front of the first closing tag
      obtain ⟨front, more⟩ := parts
      obtain ⟨hbefore, hfree⟩ := split_eq_some hopen
      have hshape : pieces = front ++ .opening name :: (more ++ .closing name :: after) := by
        rw [hpieces, hbefore]
        simp
      have hsplit : split (.opening name) pieces = some (front, more ++ .closing name :: after) := by
        rw [hshape]
        exact split_append_cons hfree _
      have hfreeClosing : .closing name ∉ front := fun hmem ↦
        hclosing (hbefore ▸ List.mem_append_left _ hmem)
      rw [hshape, partner_opening hfree hfreeClosing] at hpartner
      obtain ⟨⟨inner', rest'⟩, hinner, heq⟩ := Option.map_eq_some_iff.mp hpartner
      cases heq
      rw [hsplit] at hcutOpen
      dsimp only at hcutOpen
      have hless : (render front).length < (render before).length := by
        rw [hbefore, render_append, List.length_append, render_cons]
        simp [Piece.render]
      rw [hcutOpen]
      dsimp only
      rw [if_pos hless, ih (wellFormed_of_split h hsplit).2 hinner
        (hshorter (isTag_opening name) hshape)]
      simp [under, render_append, render_cons, openTag, Piece.render, Piece.body]
    | none =>
      have hfree := split_eq_none_iff.mp hopen
      rw [hpieces, partner_closing hfree hclosing] at hpartner
      have hcloses : (if depth = 0 then some (render before, render after ++ tail)
          else (matchingClose name turns (depth - 1) (render after ++ tail)).map
            (under (render before ++ closeTag name))) = some (render inner, render rest ++ tail) := by
        split_ifs at hpartner ⊢ with hdepth
        · cases hpartner
          rfl
        · obtain ⟨⟨inner', rest'⟩, hinner, heq⟩ := Option.map_eq_some_iff.mp hpartner
          cases heq
          rw [ih hwfAfter hinner (hshorter (isTag_closing name) hpieces)]
          simp [under, render_append, render_cons, closeTag, Piece.render, Piece.body]
      rw [hcloses]
      have hlater : ∀ beforeOpen afterOpen,
          cut (openTag name) (render pieces ++ tail) = some (beforeOpen, afterOpen) →
            ¬beforeOpen.length < (render before).length := by
        intro beforeOpen afterOpen hfound
        rw [hcutOpen, hpieces, split_append_of_not_mem hfree] at hfound
        cases hrest : split (.opening name) (.closing name :: after) with
        | some parts =>
          rw [hrest] at hfound
          cases hfound
          rw [render_append, List.length_append]
          omega
        | none =>
          rw [hrest] at hfound
          obtain ⟨found, -, heq⟩ := Option.map_eq_some_iff.mp hfound
          cases heq
          simp only [render_append, List.length_append]
          omega
      cases hfound : cut (openTag name) (render pieces ++ tail) with
      | none => rfl
      | some parts =>
        dsimp only
        rw [if_neg (hlater parts.1 parts.2 hfound)]

theorem findMatchingClose_render {name : String} (hname : PlainName name) (tail : Text)
    {pieces inner rest : List Piece} (h : WellFormed pieces)
    (hpartner : partner name 0 pieces = some (inner, rest)) :
    findMatchingClose name (render pieces ++ tail) = some (render inner, render rest ++ tail) :=
  matchingClose_render hname tail h hpartner (Nat.lt_succ_self _)

/-- The same where no text follows. -/
theorem findMatchingClose_render_nil {name : String} (hname : PlainName name)
    {pieces inner rest : List Piece} (h : WellFormed pieces)
    (hpartner : partner name 0 pieces = some (inner, rest)) :
    findMatchingClose name (render pieces) = some (render inner, render rest) := by
  have hfound := findMatchingClose_render hname [] h hpartner
  rwa [List.append_nil, List.append_nil] at hfound

end Cecore.Table
