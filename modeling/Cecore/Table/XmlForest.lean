import Cecore.Library.Forest
import Cecore.Table.XmlPieces

/-!
# The hierarchy of a saved table

The writer makes a depth-first search through the entries, so what it writes is a forest in which
every entry is once (`entriesPieces_eq`). The reader goes through the text of a forest and finds its
entries in pre-order, each with the id of the entry around it as its parent (`parseEntries_forest`).
-/

set_option autoImplicit false
set_option relaxedAutoImplicit false

namespace Cecore.Table

open Library Library.Markup

/-! ### What is written is a forest -/

/-- The `i`th entry. -/
def entryAt (entries : List CheatEntry) (i : ℕ) : CheatEntry := entries.getD i {}

/-- A forest of entries, written. -/
def forestPieces (entries : List CheatEntry) : Forest ℕ → List Piece
  | .nil => []
  | .cons i children others =>
    entryPieces (entryAt entries i) (!(childIndices entries i).isEmpty)
      (forestPieces entries children) ++ forestPieces entries others

theorem forestPieces_append (entries : List CheatEntry) (first second : Forest ℕ) :
    forestPieces entries (first.append second) =
      forestPieces entries first ++ forestPieces entries second := by
  induction first with
  | nil => rfl
  | cons i children others _ ih => simp [Forest.append, forestPieces, ih]

/-- What a search has found, written. -/
def writtenOf (entries : List CheatEntry) (found : Forest ℕ × List ℕ) : List Piece × List ℕ :=
  (forestPieces entries found.1, found.2)

theorem writeEntries_eq {entries : List CheatEntry}
    {writeEntry : ℕ → List ℕ → Option (List Piece × List ℕ)}
    {visit : ℕ → List ℕ → Option (Forest ℕ × List ℕ)}
    (h : ∀ i done, writeEntry i done = (visit i done).map (writtenOf entries)) (is done : List ℕ) :
    writeEntries writeEntry is done = (searchAll visit is done).map (writtenOf entries) := by
  induction is generalizing done with
  | nil => rfl
  | cons i rest ih =>
    rw [writeEntries, searchAll, h]
    cases visit i done with
    | none => rfl
    | some found =>
      obtain ⟨tree, seen⟩ := found
      dsimp only [Option.map_some, writtenOf]
      rw [ih, Option.map_map, Option.map_map]
      congr 1
      funext found
      simp [writtenOf, forestPieces_append]

theorem writeEntry_of_done {entries : List CheatEntry} {i : ℕ} {done : List ℕ} (h : i ∈ done)
    (depth : ℕ) : writeEntry entries (depth + 1) i done = some ([], done) := by
  rw [writeEntry]
  exact if_pos h

theorem writeEntry_of_not_done {entries : List CheatEntry} {i : ℕ} {done : List ℕ} (h : i ∉ done)
    (depth : ℕ) : writeEntry entries (depth + 1) i done =
      (writeEntries (writeEntry entries depth) (childIndices entries i) (i :: done)).map
        fun written ↦
          (entryPieces (entryAt entries i) (!(childIndices entries i).isEmpty) written.1,
            written.2) := by
  rw [writeEntry]
  exact if_neg h

/-- `writeEntry` writes the forest of a search through the children. -/
theorem writeEntry_eq (entries : List CheatEntry) (depth i : ℕ) (done : List ℕ) :
    writeEntry entries depth i done =
      (visit (childIndices entries) depth i done).map (writtenOf entries) := by
  induction depth generalizing i done with
  | zero => rfl
  | succ depth ih =>
    by_cases hdone : i ∈ done
    · rw [writeEntry_of_done hdone, visit_of_mem hdone]
      rfl
    · rw [writeEntry_of_not_done hdone, visit_of_not_mem hdone, writeEntries_eq ih, Option.map_map,
        Option.map_map]
      refine congrFun (congrArg Option.map (funext fun found ↦ ?_)) _
      simp [writtenOf, forestPieces]

/-! ### Parents and children -/

theorem mem_childIndices {entries : List CheatEntry} {i p : ℕ} :
    i ∈ childIndices entries p ↔ i < entries.length ∧ parentIndex entries i = some p := by
  simp [childIndices]

theorem mem_rootIndices {entries : List CheatEntry} {i : ℕ} :
    i ∈ rootIndices entries ↔ i < entries.length ∧ parentIndex entries i = none := by
  simp [rootIndices]

/-- The parent of an entry is another entry, the first with the parent id. -/
theorem parentIndex_eq_some {entries : List CheatEntry} {i p : ℕ}
    (h : parentIndex entries i = some p) :
    p ≠ i ∧ p < entries.length ∧ i < entries.length ∧
      (entryAt entries p).id = (entryAt entries i).parentId := by
  unfold parentIndex at h
  cases hi : entries[i]? with
  | none =>
    rw [hi] at h
    cases h
  | some e =>
    rw [hi] at h
    dsimp only at h
    split_ifs at h
    obtain ⟨hfound, hne⟩ := Option.filter_eq_some_iff.mp h
    unfold idToIndex at hfound
    split_ifs at hfound
    obtain ⟨hp, hid, -⟩ := List.findIdx?_eq_some_iff_getElem.mp hfound
    have hlt : i < entries.length := (List.getElem?_eq_some_iff.mp hi).1
    refine ⟨of_decide_eq_true hne, hp, hlt, ?_⟩
    have he : entryAt entries i = e := by rw [entryAt, List.getD_eq_getElem?_getD, hi]; rfl
    have hpAt : entryAt entries p = entries[p] := by
      rw [entryAt, List.getD_eq_getElem?_getD, List.getElem?_eq_getElem hp]
      rfl
    rw [he, hpAt]
    exact of_decide_eq_true hid

/-! ### Saving ends -/

/-- Saving ends, and what it writes is a forest that has every entry once. -/
theorem entriesPieces_eq (entries : List CheatEntry) :
    ∃ forest seen, searchAll (visit (childIndices entries) (entries.length + 1))
        (rootIndices entries ++ List.range entries.length) [] = some (forest, seen) ∧
      entriesPieces entries = some (forestPieces entries forest) ∧
      forest.labels.Perm (List.range entries.length) := by
  have hnext : ∀ p, ∀ i ∈ childIndices entries p, i ∈ List.range entries.length := fun p i hi ↦
    List.mem_range.mpr (mem_childIndices.mp hi).1
  have hstart : ∀ i ∈ rootIndices entries ++ List.range entries.length,
      i ∈ List.range entries.length := by
    intro i hi
    rcases List.mem_append.mp hi with hi | hi
    · exact List.mem_range.mpr (mem_rootIndices.mp hi).1
    · exact hi
  have hdepth : (unseen (List.range entries.length) []).length < entries.length + 1 :=
    Nat.lt_succ_of_le ((List.length_filter_le _ _).trans_eq List.length_range)
  obtain ⟨forest, seen, hsearch⟩ := searchAll_isSome hnext hstart hdepth
  have hvisited := searchAll_spec hsearch
  refine ⟨forest, seen, hsearch, ?_, ?_⟩
  · rw [entriesPieces, writeEntries_eq (writeEntry_eq entries _), hsearch]
    rfl
  · refine (List.perm_ext_iff_of_nodup hvisited.nodup List.nodup_range).mpr fun i ↦ ⟨fun hi ↦ ?_,
      fun hi ↦ ?_⟩
    · rcases hvisited.follows.root_or_next hi with hroot | ⟨p, -, hp⟩
      · exact hstart i (hvisited.roots i hroot)
      · exact hnext p i hp
    · rcases (hvisited.mem_iff i).mp (hvisited.covered i (List.mem_append_right _ hi)) with hl | hl
      · exact hl
      · cases hl

/-! ### Reading a forest -/

/-- The pieces of an entry's own text: all of it, or what is in front of its list. -/
def ownPieces (e : CheatEntry) (hasChildren : Bool) : List Piece :=
  [.opening "CheatEntry", .text ['\n']] ++ entryFields e ++
    if hasChildren then [.text (spaces 6)] else [.text (spaces 4), .closing "CheatEntry"]

/-- The entries that are read from a forest. -/
def loadedForest (entries : List CheatEntry) : ℤ → Forest ℕ → List CheatEntry
  | _, .nil => []
  | parentId, .cons i children others =>
    let e := readEntry
      (render (ownPieces (entryAt entries i) (!(childIndices entries i).isEmpty))) parentId
    e :: (loadedForest entries e.id children ++ loadedForest entries parentId others)

/-- The texts that the entries of a forest write as they are spoil no tag. -/
def SafeForest (entries : List CheatEntry) (forest : Forest ℕ) : Prop :=
  ∀ i ∈ forest.labels, (entryAt entries i).Safe

theorem SafeForest.cons {entries : List CheatEntry} {i : ℕ} {children others : Forest ℕ}
    (h : SafeForest entries (.cons i children others)) :
    (entryAt entries i).Safe ∧ SafeForest entries children ∧ SafeForest entries others :=
  ⟨h i List.mem_cons_self,
    fun j hj ↦ h j (List.mem_cons_of_mem _ (List.mem_append_left _ hj)),
    fun j hj ↦ h j (List.mem_cons_of_mem _ (List.mem_append_right _ hj))⟩

/-- What is between the tags of an entry. -/
def entryInner (e : CheatEntry) (hasChildren : Bool) (children : List Piece) : List Piece :=
  .text ['\n'] :: (entryFields e ++ (if hasChildren then block 6 "CheatEntries" children else []) ++
    [.text (spaces 4)])

theorem entryPieces_eq (e : CheatEntry) (hasChildren : Bool) (children : List Piece) :
    entryPieces e hasChildren children =
      .text (spaces 4) :: .opening "CheatEntry" :: (entryInner e hasChildren children ++
        [.closing "CheatEntry", .text ['\n']]) := by
  simp [entryPieces, block, tagLine, entryInner]

theorem wellFormed_entryPieces {e : CheatEntry} (h : e.Safe) (hasChildren : Bool)
    {children : List Piece} (hchildren : WellFormed children) :
    WellFormed (entryPieces e hasChildren children) := by
  refine wellFormed_block (by decide) (wellFormed_append (wellFormed_entryFields h) ?_)
  cases hasChildren
  · exact List.forall_mem_nil _
  · exact wellFormed_block (by decide) hchildren

theorem wellFormed_forestPieces {entries : List CheatEntry} {forest : Forest ℕ}
    (h : SafeForest entries forest) : WellFormed (forestPieces entries forest) := by
  induction forest with
  | nil => exact List.forall_mem_nil _
  | cons i children others ihChildren ihOthers =>
    obtain ⟨hi, hchildren, hothers⟩ := h.cons
    exact wellFormed_append (wellFormed_entryPieces hi _ (ihChildren hchildren)) (ihOthers hothers)

theorem Free.balanced {name : String} {pieces : List Piece} (h : Free name pieces) :
    Balanced name pieces :=
  balanced_of_free h.1 h.2

theorem balanced_block {name other : String} (hne : name ≠ other) (indent : ℕ) {lines : List Piece}
    (h : Balanced name lines) : Balanced name (block indent other lines) := by
  refine ((Free.balanced ?_).append h).append (Free.balanced ?_)
  · simp [Free, tagLine, hne]
  · simp [Free, tagLine, hne]

theorem balanced_block_same {name : String} (indent : ℕ) {lines : List Piece}
    (h : Balanced name lines) : Balanced name (block indent name lines) := by
  have htext : ∀ chunk, Balanced name [.text chunk] := fun chunk ↦
    balanced_of_free (by simp) (by simp)
  have hshape : block indent name lines = [.text (spaces indent)] ++
      (.opening name :: ((([.text ['\n']] ++ lines) ++ [.text (spaces indent)]) ++ [.closing name])) ++
        [.text ['\n']] := by
    simp [block, tagLine]
  rw [hshape]
  exact ((htext _).append ((((htext _).append h).append (htext _)).element)).append (htext _)

theorem balanced_entryPieces {name : String} (hname : name = "CheatEntry" ∨ name = "CheatEntries")
    (e : CheatEntry) (hasChildren : Bool) {children : List Piece} (h : Balanced name children) :
    Balanced name (entryPieces e hasChildren children) := by
  have hfields : Balanced name (entryFields e) := by
    rcases hname with rfl | rfl
    · exact (free_entryFields (by decide) e).balanced
    · exact (free_entryFields (by decide) e).balanced
  have hlist : Balanced name (if hasChildren then block 6 "CheatEntries" children else []) := by
    cases hasChildren
    · exact balanced_nil name
    · rcases hname with rfl | rfl
      · exact balanced_block (by decide) 6 h
      · exact balanced_block_same 6 h
  rcases hname with rfl | rfl
  · exact balanced_block_same 4 (hfields.append hlist)
  · exact balanced_block (by decide) 4 (hfields.append hlist)

theorem balanced_forestPieces {name : String} (hname : name = "CheatEntry" ∨ name = "CheatEntries")
    (entries : List CheatEntry) (forest : Forest ℕ) : Balanced name (forestPieces entries forest) := by
  induction forest with
  | nil => exact balanced_nil name
  | cons i children others ihChildren ihOthers =>
    exact (balanced_entryPieces hname _ _ ihChildren).append ihOthers

theorem balanced_text (name : String) (chunk : Text) : Balanced name [.text chunk] :=
  balanced_of_free (by simp) (by simp)

theorem balanced_entryInner (e : CheatEntry) (hasChildren : Bool) {children : List Piece}
    (h : Balanced "CheatEntry" children) :
    Balanced "CheatEntry" (entryInner e hasChildren children) := by
  have hfields := (@free_entryFields "CheatEntry" (by decide) e).balanced
  have hlist : Balanced "CheatEntry"
      (if hasChildren then block 6 "CheatEntries" children else []) := by
    cases hasChildren
    · exact balanced_nil _
    · exact balanced_block (by decide) 6 h
  have hinner : entryInner e hasChildren children =
      [.text ['\n']] ++ ((entryFields e ++ (if hasChildren then block 6 "CheatEntries" children else [])) ++
        [.text (spaces 4)]) := by
    rw [entryInner, List.singleton_append]
  rw [hinner]
  exact (balanced_text _ ['\n']).append ((hfields.append hlist).append (balanced_text _ (spaces 4)))

theorem wellFormed_entryInner {e : CheatEntry} (h : e.Safe) (hasChildren : Bool)
    {children : List Piece} (hchildren : WellFormed children) :
    WellFormed (entryInner e hasChildren children) := by
  have hwhole := wellFormed_entryPieces h hasChildren hchildren
  rw [entryPieces_eq] at hwhole
  exact (List.forall_mem_append.mp
    (List.forall_mem_cons.mp (List.forall_mem_cons.mp hwhole).2).2).1

theorem wellFormed_ownPieces {e : CheatEntry} (h : e.Safe) (hasChildren : Bool) :
    WellFormed (ownPieces e hasChildren) := by
  refine wellFormed_append (wellFormed_append ?_ (wellFormed_entryFields h)) ?_
  · decide
  · cases hasChildren <;> decide

/-- What is between the tags of an entry's list. -/
def listInner (children : List Piece) : List Piece :=
  [.text ['\n']] ++ children ++ [.text (spaces 6)]

/-- The text of an entry's list. -/
def childListText (hasChildren : Bool) (children : List Piece) : Text :=
  if hasChildren then render (listInner children) else []

/-- An entry's text is cut into its own text and the text of its list. -/
theorem splitEntry_render {e : CheatEntry} (h : e.Safe) (hasChildren : Bool) {children : List Piece}
    (hchildren : WellFormed children) (hbalanced : Balanced "CheatEntries" children) :
    splitEntry (openTag "CheatEntry" ++ render (entryInner e hasChildren children) ++
        closeTag "CheatEntry") =
      (render (ownPieces e hasChildren), childListText hasChildren children) := by
  have hwf := wellFormed_entryInner h hasChildren hchildren
  have hfree : ∀ tail : List Piece, Piece.opening "CheatEntries" ∉ tail →
      Piece.opening "CheatEntries" ∉
        [.opening "CheatEntry", .text ['\n']] ++ entryFields e ++ tail := by
    intro tail htail hmem
    rcases List.mem_append.mp hmem with hmem | hmem
    · rcases List.mem_append.mp hmem with hmem | hmem
      · simp at hmem
      · exact (free_entryFields (by decide) e).1 hmem
    · exact htail hmem
  have hplain : PlainName "CheatEntries" := by decide
  cases hasChildren with
  | false =>
    have hshape : openTag "CheatEntry" ++ render (entryInner e false children) ++
        closeTag "CheatEntry" = render (ownPieces e false) := by
      simp [entryInner, ownPieces, render, Piece.render, Piece.body, openTag, closeTag]
    have hnone : split (.opening "CheatEntries") (ownPieces e false) = none :=
      split_eq_none_iff.mpr (hfree _ (by simp))
    rw [hshape, splitEntry, cut_openTag hplain (wellFormed_ownPieces h false), hnone]
    rfl
  | true =>
    have hshape : openTag "CheatEntry" ++ render (entryInner e true children) ++
        closeTag "CheatEntry" = render (ownPieces e true ++ .opening "CheatEntries" ::
          (listInner children ++ .closing "CheatEntries" ::
            [.text ['\n'], .text (spaces 4), .closing "CheatEntry"])) := by
      simp [entryInner, ownPieces, listInner, block, tagLine, render, Piece.render, Piece.body,
        openTag, closeTag]
    have hlist : WellFormed (listInner children ++ .closing "CheatEntries" ::
        [.text ['\n'], .text (spaces 4), .closing "CheatEntry"]) :=
      wellFormed_append (wellFormed_append (wellFormed_append (by decide) hchildren) (by decide))
        (by decide)
    have hwhole := wellFormed_append (wellFormed_ownPieces h true)
      (List.forall_mem_cons.mpr ⟨(by decide : (Piece.opening "CheatEntries").WellFormed), hlist⟩)
    have hfreeOwn : Piece.opening "CheatEntries" ∉ ownPieces e true := hfree _ (by simp)
    have hpartner := (((balanced_text "CheatEntries" ['\n']).append hbalanced).append
      (balanced_text _ (spaces 6))).partner_append
        [.text ['\n'], .text (spaces 4), .closing "CheatEntry"]
    rw [hshape, splitEntry, cut_openTag hplain hwhole, split_append_cons hfreeOwn]
    dsimp only [Option.map_some, renderParts]
    rw [findMatchingClose_render_nil hplain hlist hpartner]
    rfl

/-- A text in front of a forest and one behind it. -/
def between (front : Text) (pieces : List Piece) (back : Text) : List Piece :=
  .text front :: (pieces ++ [.text back])

theorem wellFormed_between {front back : Text} (hfront : '<' ∉ front) (hback : '<' ∉ back)
    {pieces : List Piece} (h : WellFormed pieces) : WellFormed (between front pieces back) :=
  List.forall_mem_cons.mpr ⟨hfront, wellFormed_append h (List.forall_mem_singleton.mpr hback)⟩

/-- A turn of the loop reads the first entry of a forest. -/
theorem parseEntries_cons {entries : List CheatEntry} {i : ℕ} {children others : Forest ℕ}
    (hsafe : SafeForest entries (.cons i children others)) {front back : Text} (hfront : '<' ∉ front)
    (hback : '<' ∉ back) (turns : ℕ) (parentId : ℤ) :
    parseEntries (turns + 1)
        (render (between front (forestPieces entries (.cons i children others)) back)) parentId =
      let hasChildren := !(childIndices entries i).isEmpty
      let e := readEntry (render (ownPieces (entryAt entries i) hasChildren)) parentId
      e :: ((if hasChildren then
          parseEntries turns (render (listInner (forestPieces entries children))) e.id else []) ++
        parseEntries turns (render (between ['\n'] (forestPieces entries others) back)) parentId) := by
  obtain ⟨hi, hchildren, hothers⟩ := hsafe.cons
  have hplain : PlainName "CheatEntry" := by decide
  set hasChildren := !(childIndices entries i).isEmpty with hhas
  set inner := entryInner (entryAt entries i) hasChildren (forestPieces entries children) with hinner
  set after := between ['\n'] (forestPieces entries others) back with hafter
  have hwfChildren := wellFormed_forestPieces hchildren
  have hshape : between front (forestPieces entries (.cons i children others)) back =
      [.text front, .text (spaces 4)] ++ .opening "CheatEntry" ::
        (inner ++ .closing "CheatEntry" :: after) := by
    simp only [between, forestPieces, entryPieces_eq, hafter, hinner, hhas]
    simp
  have hrest : WellFormed (inner ++ .closing "CheatEntry" :: after) :=
    wellFormed_append (wellFormed_entryInner hi _ hwfChildren) (List.forall_mem_cons.mpr
      ⟨hplain, wellFormed_between (by decide) hback (wellFormed_forestPieces hothers)⟩)
  have hwhole : WellFormed ([.text front, .text (spaces 4)] ++ .opening "CheatEntry" ::
      (inner ++ .closing "CheatEntry" :: after)) :=
    wellFormed_append (List.forall_mem_cons.mpr ⟨hfront, by decide⟩)
      (List.forall_mem_cons.mpr ⟨hplain, hrest⟩)
  have hpartner : partner "CheatEntry" 0 (inner ++ .closing "CheatEntry" :: after) =
      some (inner, after) :=
    (balanced_entryInner _ _ (balanced_forestPieces (Or.inl rfl) entries children)).partner_append _
  have hsplit := splitEntry_render hi hasChildren hwfChildren
    (balanced_forestPieces (Or.inr rfl) entries children)
  rw [hshape, parseEntries, cut_openTag hplain hwhole, split_append_cons (by simp)]
  dsimp only [Option.map_some, renderParts]
  rw [findMatchingClose_render_nil hplain hrest hpartner]
  dsimp only
  rw [hsplit]
  dsimp only
  cases hasChildren with
  | false => rfl
  | true =>
    have hnonempty : childListText true (forestPieces entries children) ≠ [] := by
      simp [childListText, listInner, render, Piece.render]
    rw [if_neg hnonempty]
    rfl

/-- The text of an entry's list, and the text behind the entry, are shorter than the text of the
forest. -/
theorem length_parts (entries : List CheatEntry) (i : ℕ) (children others : Forest ℕ)
    (front back : Text) :
    ((childIndices entries i).isEmpty = false →
      (render (between ['\n'] (forestPieces entries children) (spaces 6))).length + 1 <
        (render (between front (forestPieces entries (.cons i children others)) back)).length) ∧
    (render (between ['\n'] (forestPieces entries others) back)).length + 1 <
      (render (between front (forestPieces entries (.cons i children others)) back)).length := by
  constructor
  · intro hhas
    simp only [between, forestPieces, entryPieces, block, tagLine, hhas, Bool.not_false, if_true,
      render, List.flatMap_append, List.flatMap_cons, List.flatMap_nil, List.length_append,
      Piece.render, List.length_cons, List.length_nil]
    omega
  · simp only [between, forestPieces, entryPieces, block, tagLine, render, List.flatMap_append,
      List.flatMap_cons, List.flatMap_nil, List.length_append, Piece.render, List.length_cons,
      List.length_nil]
    omega

/-- The reader finds the entries of a forest in pre-order, under their parents. -/
theorem parseEntries_forest {entries : List CheatEntry} {forest : Forest ℕ}
    (hsafe : SafeForest entries forest) (hfollows : forest.Follows (childIndices entries))
    {front back : Text} (hfront : '<' ∉ front) (hback : '<' ∉ back) {turns : ℕ}
    (hturns : (render (between front (forestPieces entries forest) back)).length < turns)
    (parentId : ℤ) :
    parseEntries turns (render (between front (forestPieces entries forest) back)) parentId =
      loadedForest entries parentId forest := by
  induction forest generalizing front back turns parentId with
  | nil =>
    obtain ⟨turns, rfl⟩ := Nat.exists_eq_succ_of_ne_zero (Nat.ne_zero_of_lt hturns)
    have hnone : split (.opening "CheatEntry") (between front [] back) = none :=
      split_eq_none_iff.mpr (by simp [between])
    rw [forestPieces, parseEntries,
      cut_openTag (by decide) (wellFormed_between hfront hback (List.forall_mem_nil _)), hnone]
    rfl
  | cons i children others ihChildren ihOthers =>
    obtain ⟨turns, rfl⟩ := Nat.exists_eq_succ_of_ne_zero (Nat.ne_zero_of_lt hturns)
    obtain ⟨-, hchildren, hothers⟩ := hsafe.cons
    obtain ⟨hroots, hfollowsChildren, hfollowsOthers⟩ := hfollows
    obtain ⟨hlist, hafter⟩ := length_parts entries i children others front back
    rw [parseEntries_cons hsafe hfront hback, loadedForest]
    dsimp only
    rw [ihOthers hothers hfollowsOthers (by decide) hback (by omega)]
    cases hhas : (childIndices entries i).isEmpty with
    | true =>
      have hnil : children = .nil := by
        cases children with
        | nil => rfl
        | cons child _ _ =>
          have hchild := hroots child List.mem_cons_self
          rw [List.isEmpty_iff.mp hhas] at hchild
          cases hchild
      rw [hnil]
      rfl
    | false =>
      rw [hhas] at hlist
      have hless := hlist rfl
      have hshort : (render (between ['\n'] (forestPieces entries children) (spaces 6))).length <
          turns := by omega
      have hread := ihChildren hchildren hfollowsChildren (by decide) (by decide) hshort
      simp only [Bool.not_false, if_true]
      rw [← hread]
      rfl

end Cecore.Table
