import Cecore.Table.XmlFields
import Cecore.Table.XmlReading

/-!
# The hierarchy of a table, saved and loaded

Saving ends for any parents and writes every entry once. Where the parents make the entries a
forest, loading gives the entries in its pre-order, each with its own parent
(`save_load_hierarchy`).
-/

set_option autoImplicit false
set_option relaxedAutoImplicit false

namespace Cecore.Table

open Library Library.Markup

/-! ### The outermost list -/

/-- The text of a table with a forest of entries. -/
def documentText (t : CheatTable) (forest : Forest ℕ) : Text :=
  render (headPieces t ++ block 2 "CheatEntries" (forestPieces t.entries forest) ++ tailPieces t)

/-- What is between the tags of the outermost list. -/
def outerList (t : CheatTable) (forest : Forest ℕ) : List Piece :=
  between ['\n'] (forestPieces t.entries forest) (spaces 2)

theorem wellFormed_outerList {t : CheatTable} {forest : Forest ℕ}
    (hsafe : SafeForest t.entries forest) :
    WellFormed (outerList t forest ++ .closing "CheatEntries" :: [.text ['\n']]) :=
  wellFormed_append (wellFormed_between (by decide) (by decide) (wellFormed_forestPieces hsafe))
    (by decide)

/-- The first `<CheatEntries>` is the tag of the outermost list, whatever the forms are. -/
theorem cut_documentText {t : CheatTable} {forest : Forest ℕ}
    (hsafe : SafeForest t.entries forest) :
    cut (openTag "CheatEntries") (documentText t forest) =
      some (render (headPieces t ++ [.text (spaces 2)]),
        render (outerList t forest ++ .closing "CheatEntries" :: [.text ['\n']]) ++
          render (tailPieces t)) := by
  have hplain : PlainName "CheatEntries" := by decide
  have hshape : documentText t forest = render ((headPieces t ++ [.text (spaces 2)]) ++
      .opening "CheatEntries" ::
        (outerList t forest ++ .closing "CheatEntries" :: [.text ['\n']])) ++
          render (tailPieces t) := by
    rw [documentText, render_append]
    simp [outerList, between, block, tagLine]
  have hwhole := wellFormed_append (wellFormed_append (wellFormed_headPieces t)
    (by decide : WellFormed [.text (spaces 2)])) (List.forall_mem_cons.mpr
      ⟨(by decide : (Piece.opening "CheatEntries").WellFormed), wellFormed_outerList hsafe⟩)
  have hfree : Piece.opening "CheatEntries" ∉ headPieces t ++ [.text (spaces 2)] := by
    rw [List.mem_append, not_or]
    exact ⟨(free_headPieces t).1, by simp⟩
  have hfound := cut_render_append (isTag_opening "CheatEntries") hplain hwhole
    (render (tailPieces t))
  rw [split_append_cons hfree] at hfound
  rw [hshape]
  exact hfound

/-- The reader finds the entries of the outermost list. -/
theorem entriesOfXml_documentText {t : CheatTable} {forest : Forest ℕ}
    (hsafe : SafeForest t.entries forest) (hfollows : forest.Follows (childIndices t.entries)) :
    entriesOfXml (documentText t forest) = loadedForest t.entries (-1) forest := by
  have hpartner : partner "CheatEntries" 0
      (outerList t forest ++ .closing "CheatEntries" :: [.text ['\n']]) =
        some (outerList t forest, [.text ['\n']]) :=
    (((balanced_text "CheatEntries" ['\n']).append
      ((balanced_forestPieces (Or.inr rfl) t.entries forest).append
        (balanced_text _ (spaces 2))))).partner_append _
  rw [entriesOfXml, cut_documentText hsafe]
  dsimp only
  rw [findMatchingClose_render (by decide) (render (tailPieces t)) (wellFormed_outerList hsafe)
    hpartner]
  dsimp only
  exact parseEntries_forest hsafe hfollows (by decide) (by decide) (Nat.lt_succ_self _) (-1)

/-- A text with a list of entries is taken for a table. -/
theorem loadFromString_of_list {xml : Text} {parts : Text × Text}
    (hlist : cut (openTag "CheatEntries") xml = some parts) :
    ∃ loaded, loadFromString xml = some loaded ∧ loaded.entries = entriesOfXml xml := by
  unfold loadFromString
  rw [if_neg (by rw [hlist]; exact fun h ↦ absurd h.2 Bool.false_ne_true)]
  exact ⟨_, rfl, rfl⟩

theorem loadFromString_documentText {t : CheatTable} {forest : Forest ℕ}
    (hsafe : SafeForest t.entries forest) (hfollows : forest.Follows (childIndices t.entries)) :
    ∃ loaded, loadFromString (documentText t forest) = some loaded ∧
      loaded.entries = loadedForest t.entries (-1) forest := by
  obtain ⟨loaded, hload, hentries⟩ := loadFromString_of_list (cut_documentText hsafe)
  exact ⟨loaded, hload, hentries.trans (entriesOfXml_documentText hsafe hfollows)⟩

/-! ### Ids and parents -/

/-- The id that is read of an entry is its own, and its parent is the one that it is read under. -/
theorem readEntry_ownPieces {e : CheatEntry} (h : e.Safe) (hasChildren : Bool) (parentId : ℤ) :
    (readEntry (render (ownPieces e hasChildren)) parentId).id = e.id ∧
      (readEntry (render (ownPieces e hasChildren)) parentId).parentId = parentId := by
  refine ⟨?_, readEntry_parentId _ _⟩
  have hnumber : atoi (printInt e.id) = e.id := by
    have hread := readInteger_printInt e.id (stops_nil 10)
    rw [List.append_nil] at hread
    rw [atoi, hread]
    dsimp only
    split_ifs with hnegative
    · have := of_decide_eq_true hnegative
      omega
    · have := of_decide_eq_false (Bool.eq_false_iff.mpr hnegative)
      omega
  rw [readEntry_id, getTag_own (by decide) (by decide) h, textOf_id, if_neg (printInt_ne_nil _), hnumber]

/-! ### Forests of entries -/

/-- The parents make the entries a forest: the ids are distinct and not zero, a parent is an entry
or there is none, and no entry is above itself. -/
structure IsForest (entries : List CheatEntry) : Prop where
  ids_nodup : (entries.map (·.id)).Nodup
  ids_ne_zero : ∀ e ∈ entries, e.id ≠ 0
  parent_mem : ∀ e ∈ entries, e.parentId = -1 ∨ ∃ p ∈ entries, p.id = e.parentId
  wellFounded : WellFounded fun p e : CheatEntry ↦
    p ∈ entries ∧ e ∈ entries ∧ e.parentId ≠ -1 ∧ e.parentId = p.id

/-- The entries without a parent, in order. -/
def rootsOf (entries : List CheatEntry) : List ℕ :=
  (List.range entries.length).filter fun i ↦ decide ((entryAt entries i).parentId = -1)

/-- The children of an entry, in order. -/
def childrenOf (entries : List CheatEntry) (p : ℕ) : List ℕ :=
  (List.range entries.length).filter fun i ↦ decide
    ((entryAt entries i).parentId ≠ -1 ∧ (entryAt entries i).parentId = (entryAt entries p).id)

theorem entryAt_eq {entries : List CheatEntry} {i : ℕ} (h : i < entries.length) :
    entryAt entries i = entries[i] := by
  rw [entryAt, List.getD_eq_getElem?_getD, List.getElem?_eq_getElem h]
  rfl

theorem entryAt_mem {entries : List CheatEntry} {i : ℕ} (h : i < entries.length) :
    entryAt entries i ∈ entries := by
  rw [entryAt_eq h]
  exact List.getElem_mem h

theorem exists_entryAt {entries : List CheatEntry} {e : CheatEntry} (h : e ∈ entries) :
    ∃ i < entries.length, entryAt entries i = e := by
  obtain ⟨i, hi, heq⟩ := List.mem_iff_getElem.mp h
  exact ⟨i, hi, (entryAt_eq hi).trans heq⟩

section Forest

variable {entries : List CheatEntry}

theorem IsForest.id_injective (h : IsForest entries) {i j : ℕ} (hi : i < entries.length)
    (hj : j < entries.length) (hid : (entryAt entries i).id = (entryAt entries j).id) : i = j := by
  rw [entryAt_eq hi, entryAt_eq hj] at hid
  have hiMap : i < (entries.map (·.id)).length := by rwa [List.length_map]
  have hjMap : j < (entries.map (·.id)).length := by rwa [List.length_map]
  have hids : (entries.map (·.id))[i] = (entries.map (·.id))[j] := by
    rw [List.getElem_map, List.getElem_map]
    exact hid
  exact (List.Nodup.getElem_inj_iff h.ids_nodup).mp hids

/-- Where the parents make a forest, an entry is written under the entry that has its parent's id.
-/
theorem IsForest.parentIndex_iff (h : IsForest entries) {i p : ℕ} :
    parentIndex entries i = some p ↔ i < entries.length ∧ p < entries.length ∧
      (entryAt entries i).parentId ≠ -1 ∧
      (entryAt entries i).parentId = (entryAt entries p).id := by
  constructor
  · intro hparent
    obtain ⟨-, hp, hi, hid⟩ := parentIndex_eq_some hparent
    refine ⟨hi, hp, fun hroot ↦ ?_, hid.symm⟩
    rw [parentIndex, List.getElem?_eq_getElem hi] at hparent
    dsimp only at hparent
    rw [← entryAt_eq hi, if_pos hroot] at hparent
    cases hparent
  · rintro ⟨hi, hp, hchild, hid⟩
    have hne : p ≠ i := by
      rintro rfl
      exact (h.wellFounded.irrefl.irrefl _) ⟨entryAt_mem hp, entryAt_mem hp, hchild, hid⟩
    have hnonzero : (entryAt entries i).parentId ≠ 0 := by
      rw [hid]
      exact h.ids_ne_zero _ (entryAt_mem hp)
    have hindex : idToIndex entries (entryAt entries i).parentId = some p := by
      rw [idToIndex, if_neg hnonzero, List.findIdx?_eq_some_iff_getElem]
      refine ⟨hp, decide_eq_true (by rw [hid, entryAt_eq hp]), fun j hj hfound ↦ ?_⟩
      have hjn : j < entries.length := hj.trans hp
      have hsame : (entryAt entries j).id = (entryAt entries p).id := by
        rw [entryAt_eq hjn, ← hid]
        exact of_decide_eq_true hfound
      exact absurd (h.id_injective hjn hp hsame) hj.ne
    rw [parentIndex, List.getElem?_eq_getElem hi]
    dsimp only
    rw [← entryAt_eq hi, if_neg hchild, hindex]
    simp [hne]

theorem IsForest.childIndices_eq (h : IsForest entries) :
    childIndices entries = childrenOf entries := by
  funext p
  refine List.filter_congr fun i hi ↦ ?_
  have hi' := List.mem_range.mp hi
  rw [decide_eq_decide, h.parentIndex_iff]
  refine ⟨fun hparent ↦ hparent.2.2, fun hchild ↦ ⟨hi', ?_, hchild⟩⟩
  by_contra hp
  -- behind the last entry there is only the default, with the id that no entry has
  have hzero : (entryAt entries p).id = 0 := by
    rw [entryAt, List.getD_eq_default _ _ (Nat.le_of_not_lt hp)]
  rcases h.parent_mem _ (entryAt_mem hi') with hroot | ⟨q, hq, hid⟩
  · exact hchild.1 hroot
  · exact h.ids_ne_zero q hq (hid.trans (hchild.2.trans hzero))

theorem IsForest.rootIndices_eq (h : IsForest entries) : rootIndices entries = rootsOf entries := by
  refine List.filter_congr fun i hi ↦ ?_
  have hi' := List.mem_range.mp hi
  rw [decide_eq_decide]
  constructor
  · intro hnone
    rcases h.parent_mem _ (entryAt_mem hi') with hroot | ⟨q, hq, hid⟩
    · exact hroot
    · obtain ⟨p, hp, rfl⟩ := exists_entryAt hq
      by_contra hchild
      rw [h.parentIndex_iff.mpr ⟨hi', hp, hchild, hid.symm⟩] at hnone
      cases hnone
  · intro hroot
    cases hparent : parentIndex entries i with
    | none => rfl
    | some p => exact absurd hroot (h.parentIndex_iff.mp hparent).2.2.1

theorem IsForest.wellFounded_parentIndex (h : IsForest entries) :
    WellFounded fun p i : ℕ ↦ parentIndex entries i = some p := by
  refine Subrelation.wf (r := InvImage _ (entryAt entries)) ?_ (InvImage.wf _ h.wellFounded)
  intro p i hparent
  obtain ⟨hi, hp, hchild, hid⟩ := h.parentIndex_iff.mp hparent
  exact ⟨entryAt_mem hp, entryAt_mem hi, hchild, hid⟩

/-- A forest of entries is written as its unfolding. -/
theorem IsForest.entriesPieces_eq (h : IsForest entries) :
    ∃ forest, entriesPieces entries = some (forestPieces entries forest) ∧
      Forest.Unfolds (childrenOf entries) (rootsOf entries) forest ∧
      forest.Follows (childIndices entries) ∧
      forest.labels.Perm (List.range entries.length) := by
  obtain ⟨forest, seen, hsearch, hpieces, hperm⟩ := Table.entriesPieces_eq entries
  have hvisited := searchAll_spec hsearch
  obtain ⟨first, middle, second, hroots, hsweep, heq⟩ := searchAll_append hsearch
  have hfirst := searchAll_spec hroots
  have hunfolds : Forest.Unfolds (childIndices entries) (rootIndices entries) first := by
    have hparent : ∀ p, ∀ i ∈ childIndices entries p, parentIndex entries i = some p :=
      fun p i hi ↦ (mem_childIndices.mp hi).2
    refine searchAll_unfolds hparent ?_ ?_ hroots (List.nodup_range.filter _)
      (fun i _ ↦ List.not_mem_nil) ?_ ?_
    · exact fun p hp ↦ (parentIndex_eq_some (mem_childIndices.mp hp).2).1 rfl
    · exact fun p ↦ List.nodup_range.filter _
    · intro i hi p hp
      rw [(mem_rootIndices.mp hi).2] at hp
      cases hp
    · exact fun i hi ↦ absurd hi List.not_mem_nil
  have hall : ∀ i ∈ List.range entries.length, i ∈ first.labels := fun i hi ↦
    hfirst.mem_of_wellFounded h.wellFounded_parentIndex
      (fun j hj hnone ↦ mem_rootIndices.mpr ⟨List.mem_range.mp hj, hnone⟩)
      (fun j hj p hp ↦ ⟨List.mem_range.mpr (parentIndex_eq_some hp).2.1,
        mem_childIndices.mpr ⟨List.mem_range.mp hj, hp⟩⟩) hi
  -- the sweep finds nothing that the roots do not lead to
  rw [searchAll_of_seen fun i hi ↦ (hfirst.mem_iff i).mpr (Or.inl (hall i hi))] at hsweep
  cases hsweep
  rw [Forest.append_nil] at heq
  rw [h.childIndices_eq, h.rootIndices_eq, ← heq] at hunfolds
  exact ⟨forest, hpieces, hunfolds, hvisited.follows, hperm⟩

/-- The entry that is read of the `i`th one. -/
def loadedEntry (entries : List CheatEntry) (i : ℕ) : CheatEntry :=
  readEntry (render (ownPieces (entryAt entries i) (!(childIndices entries i).isEmpty)))
    (entryAt entries i).parentId

/-- Every entry of the unfolding of a forest is read under its own parent. -/
theorem loadedForest_eq (hsafe : ∀ e ∈ entries, e.Safe) {roots : List ℕ} {forest : Forest ℕ}
    (hunfolds : Forest.Unfolds (childrenOf entries) roots forest)
    (hlabels : ∀ i ∈ forest.labels, i < entries.length) {parentId : ℤ}
    (hroots : ∀ i ∈ roots, (entryAt entries i).parentId = parentId) :
    loadedForest entries parentId forest = forest.labels.map (loadedEntry entries) := by
  induction hunfolds generalizing parentId with
  | nil => rfl
  | @cons root others children rest hchildren hrest ihChildren ihRest =>
    have hroot := hlabels root List.mem_cons_self
    have hid := (readEntry_ownPieces (hsafe _ (entryAt_mem hroot))
      (!(childIndices entries root).isEmpty) parentId).1
    rw [loadedForest, Forest.labels, List.map_cons, List.map_append, loadedEntry,
      hroots root List.mem_cons_self, hid,
        ihChildren (fun i hi ↦ hlabels i (List.mem_cons_of_mem _ (List.mem_append_left _ hi)))
        fun i hi ↦ (of_decide_eq_true (List.mem_filter.mp hi).2).2,
      ihRest (fun i hi ↦ hlabels i (List.mem_cons_of_mem _ (List.mem_append_right _ hi)))
        fun i hi ↦ hroots i (List.mem_cons_of_mem _ hi)]

theorem loadedEntry_id_parentId (hsafe : ∀ e ∈ entries, e.Safe) {i : ℕ} (hi : i < entries.length) :
    (loadedEntry entries i).id = (entryAt entries i).id ∧
      (loadedEntry entries i).parentId = (entryAt entries i).parentId :=
  readEntry_ownPieces (hsafe _ (entryAt_mem hi)) _ _

/-- Where parents have smaller ids than their children, no entry is above itself. -/
theorem wellFounded_of_lt (h : ∀ p ∈ entries, ∀ e ∈ entries, e.parentId ≠ -1 → e.parentId = p.id →
    p.id.toNat < e.id.toNat) : WellFounded fun p e : CheatEntry ↦
      p ∈ entries ∧ e ∈ entries ∧ e.parentId ≠ -1 ∧ e.parentId = p.id :=
  Subrelation.wf (fun {p e} hparent ↦ h p hparent.1 e hparent.2.1 hparent.2.2.1 hparent.2.2.2)
    (measure fun e : CheatEntry ↦ e.id.toNat).wf

end Forest

/-! ### Saved and loaded -/

/-- Saving and loading keep the hierarchy: the entries come in pre-order of their forest, each with
its parent. -/
def KeepsHierarchy (t : CheatTable) : Prop :=
  ∃ xml loaded forest, save t = some xml ∧ loadFromString xml = some loaded ∧
    Forest.Unfolds (childrenOf t.entries) (rootsOf t.entries) forest ∧
    forest.labels.Perm (List.range t.entries.length) ∧
    loaded.entries.map (fun e ↦ (e.id, e.parentId)) =
      forest.labels.map fun i ↦ ((entryAt t.entries i).id, (entryAt t.entries i).parentId)

/-- A saved forest of entries and what is loaded from it. -/
theorem save_load_forest {t : CheatTable} (h : IsForest t.entries)
    (hsafe : ∀ e ∈ t.entries, e.Safe) :
    ∃ loaded forest, save t = some (documentText t forest) ∧
      loadFromString (documentText t forest) = some loaded ∧
      loaded.entries = forest.labels.map (loadedEntry t.entries) ∧
      Forest.Unfolds (childrenOf t.entries) (rootsOf t.entries) forest ∧
      forest.labels.Perm (List.range t.entries.length) := by
  obtain ⟨forest, hpieces, hunfolds, hfollows, hperm⟩ := h.entriesPieces_eq
  have hsafeForest : SafeForest t.entries forest := fun i hi ↦
    hsafe _ (entryAt_mem (List.mem_range.mp (hperm.mem_iff.mp hi)))
  obtain ⟨loaded, hload, hentries⟩ := loadFromString_documentText hsafeForest hfollows
  have hread := loadedForest_eq hsafe hunfolds
    (fun i hi ↦ List.mem_range.mp (hperm.mem_iff.mp hi))
    fun i hi ↦ of_decide_eq_true (List.mem_filter.mp hi).2
  refine ⟨loaded, forest, ?_, hload, hentries.trans hread, hunfolds, hperm⟩
  rw [save, hpieces]
  rfl

/-- Saving ends whatever the parents are and writes every entry once; a forest of entries whose
texts spoil no tag is loaded in pre-order with every parent. -/
theorem save_load_hierarchy (t : CheatTable) :
    (∃ forest, save t = some (documentText t forest) ∧
      forest.labels.Perm (List.range t.entries.length)) ∧
    (IsForest t.entries → (∀ e ∈ t.entries, e.Safe) → KeepsHierarchy t) := by
  constructor
  · obtain ⟨forest, -, -, hpieces, hperm⟩ := entriesPieces_eq t.entries
    refine ⟨forest, ?_, hperm⟩
    rw [save, hpieces]
    rfl
  · intro h hsafe
    obtain ⟨loaded, forest, hsave, hload, hentries, hunfolds, hperm⟩ := save_load_forest h hsafe
    refine ⟨_, loaded, forest, hsave, hload, hunfolds, hperm, ?_⟩
    rw [hentries, List.map_map]
    refine List.map_congr_left fun i hi ↦ ?_
    obtain ⟨hid, hparent⟩ :=
      loadedEntry_id_parentId hsafe (List.mem_range.mp (hperm.mem_iff.mp hi))
    rw [Function.comp_apply, hid, hparent]

/-- A group, an entry in it and an entry in that. -/
def familyTable : CheatTable where
  entries := [{ id := 3, parentId := 2 }, { id := 1, isGroup := true }, { id := 2, parentId := 1 }]

theorem isForest_familyTable : IsForest familyTable.entries where
  ids_nodup := by decide
  ids_ne_zero := by decide
  parent_mem := by decide
  wellFounded := wellFounded_of_lt (by decide)

theorem save_load_hierarchy_family : KeepsHierarchy familyTable :=
  (save_load_hierarchy familyTable).2 isForest_familyTable fun e he ↦ by
    have hplain : ∀ e ∈ familyTable.entries,
        e.addressString = [] ∧ e.color = [] ∧ e.optionsXml = [] := by decide
    obtain ⟨haddress, hcolor, hoptions⟩ := hplain e he
    exact ⟨by simp [haddress], by simp [hcolor], wellFormed_verbatim (by simp [hoptions])⟩

/-- An entry whose address text is a closing tag, and a child of it. -/
def taggedTable : CheatTable where
  entries := [{ id := 1, addressString := "</CheatEntry>".toList }, { id := 2, parentId := 1 }]

/-- The child is loaded without its parent. -/
theorem taggedTable_loses_parent : IsForest taggedTable.entries ∧ ¬KeepsHierarchy taggedTable := by
  refine ⟨⟨by decide, by decide, by decide, wellFounded_of_lt (by decide)⟩, ?_⟩
  rintro ⟨xml, loaded, forest, hsave, hload, -, hperm, hmap⟩
  have hread : ((save taggedTable).bind loadFromString).map
      (fun loaded ↦ loaded.entries.map fun e ↦ (e.id, e.parentId)) = some [(1, -1), (2, -1)] := by
    decide +kernel
  rw [hsave, Option.bind_some, hload, Option.map_some, hmap] at hread
  have hchild : (2, 1) ∈ forest.labels.map fun i ↦
      ((entryAt taggedTable.entries i).id, (entryAt taggedTable.entries i).parentId) :=
    List.mem_map.mpr ⟨1, hperm.mem_iff.mpr (by decide), by decide⟩
  rw [Option.some.inj hread] at hchild
  revert hchild
  decide

end Cecore.Table
