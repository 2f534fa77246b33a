import Cecore.Table.AddressList

/-!
# Collapsed groups and deleted groups

`hiddenByCollapse` and `expandGroupDeletion` of `core/address_list.hpp`. The first walks the rows
once, with a stack of the collapsed groups that are still open; the second marks the selected rows
and what is nested under them.
-/

set_option autoImplicit false
set_option relaxedAutoImplicit false

namespace Cecore.Table

/-- The rows from `i` on: `activeCollapsedIndents` has the depths of the collapsed groups that are
still open, the last one first. -/
def hiddenFrom (collapsed : List Bool) : (i : ℕ) → (activeCollapsedIndents rows : List ℤ) → List Bool
  | _, _, [] => []
  | i, activeCollapsedIndents, d :: rows =>
    let activeCollapsedIndents := activeCollapsedIndents.dropWhile fun depth ↦ decide (d ≤ depth)
    (!activeCollapsedIndents.isEmpty) ::
      hiddenFrom collapsed (i + 1)
        (if collapsed[i]? = some true then d :: activeCollapsedIndents else activeCollapsedIndents)
        rows

def hiddenByCollapse (indents : List ℤ) (collapsed : List Bool) : List Bool :=
  hiddenFrom collapsed 0 [] indents

/-- The marks with a selected row and its descendants. -/
def markGroup (indents : List ℤ) (mark : List Bool) (r : ℕ) : List Bool :=
  if indents.length ≤ r then mark
  else
    let sub := descendantRange indents r
    mark.mapIdx fun i marked ↦ marked || i == r || (decide (sub.1 ≤ i) && decide (i < sub.2))

def expandGroupDeletion (indents : List ℤ) (selected : List ℕ) : List ℕ :=
  let mark := selected.foldl (markGroup indents) (List.replicate indents.length false)
  (List.range mark.length).filter fun i ↦ mark[i]? == some true

/-! ### The stack -/

/-- A stack whose depths fall from its top on. -/
theorem mem_dropWhile_of_falling {stack : List ℤ} (hfalling : stack.Pairwise (· > ·)) (d e : ℤ) :
    e ∈ stack.dropWhile (fun depth ↦ decide (d ≤ depth)) ↔ e ∈ stack ∧ e < d := by
  induction stack with
  | nil => simp
  | cons top stack ih =>
    obtain ⟨htop, hrest⟩ := List.pairwise_cons.mp hfalling
    by_cases hd : d ≤ top
    · rw [List.dropWhile_cons_of_pos (by simpa using hd), ih hrest, List.mem_cons]
      constructor
      · rintro ⟨hmem, hlt⟩
        exact ⟨Or.inr hmem, hlt⟩
      · rintro ⟨rfl | hmem, hlt⟩
        · omega
        · exact ⟨hmem, hlt⟩
    · rw [List.dropWhile_cons_of_neg (by simpa using hd), List.mem_cons]
      constructor
      · rintro (rfl | hmem)
        · exact ⟨Or.inl rfl, by omega⟩
        · exact ⟨Or.inr hmem, (htop e hmem).trans (by omega)⟩
      · exact fun h ↦ h.1

/-- The collapsed row `row` is open in front of row `i`: all rows between are deeper. -/
def OpenAt (indents : List ℤ) (collapsed : List Bool) (i row : ℕ) (depth : ℤ) : Prop :=
  row < i ∧ collapsed[row]? = some true ∧ indents[row]? = some depth ∧
    ∀ k, row < k → k < i → ∃ d, indents[k]? = some d ∧ depth < d

/-- The stack in front of row `i` has the depths of the open collapsed rows, the deepest on top. -/
structure Stacked (indents : List ℤ) (collapsed : List Bool) (i : ℕ) (stack : List ℤ) : Prop where
  falling : stack.Pairwise (· > ·)
  mem : ∀ depth, depth ∈ stack ↔ ∃ row, OpenAt indents collapsed i row depth

theorem openAt_succ {indents : List ℤ} {collapsed : List Bool} {i row : ℕ} {d depth : ℤ}
    (hd : indents[i]? = some d) :
    OpenAt indents collapsed (i + 1) row depth ↔
      OpenAt indents collapsed i row depth ∧ depth < d ∨
        row = i ∧ collapsed[i]? = some true ∧ depth = d := by
  constructor
  · rintro ⟨hrow, hcollapsed, hdepth, hbetween⟩
    rcases Nat.lt_succ_iff_lt_or_eq.mp hrow with hlt | rfl
    · obtain ⟨d', hd', hdeeper⟩ := hbetween i hlt (Nat.lt_succ_self i)
      rw [hd] at hd'
      cases hd'
      exact Or.inl ⟨⟨hlt, hcollapsed, hdepth, fun k hk hki ↦ hbetween k hk (by omega)⟩, hdeeper⟩
    · rw [hd] at hdepth
      cases hdepth
      exact Or.inr ⟨rfl, hcollapsed, rfl⟩
  · rintro (⟨⟨hrow, hcollapsed, hdepth, hbetween⟩, hdeeper⟩ | ⟨rfl, hcollapsed, rfl⟩)
    · refine ⟨Nat.lt_succ_of_lt hrow, hcollapsed, hdepth, fun k hk hki ↦ ?_⟩
      rcases Nat.lt_succ_iff_lt_or_eq.mp hki with hlt | rfl
      · exact hbetween k hk hlt
      · exact ⟨d, hd, hdeeper⟩
    · exact ⟨Nat.lt_succ_self row, hcollapsed, hd, fun k hk hki ↦ by omega⟩

theorem Stacked.step {indents : List ℤ} {collapsed : List Bool} {i : ℕ} {stack : List ℤ} {d : ℤ}
    (h : Stacked indents collapsed i stack) (hd : indents[i]? = some d) :
    Stacked indents collapsed (i + 1)
      (if collapsed[i]? = some true then
        d :: stack.dropWhile fun depth ↦ decide (d ≤ depth)
      else stack.dropWhile fun depth ↦ decide (d ≤ depth)) := by
  have hpopped := mem_dropWhile_of_falling h.falling d
  have hfalling := h.falling.sublist (List.dropWhile_sublist fun depth ↦ decide (d ≤ depth))
  have hopen : ∀ depth, (∃ row, OpenAt indents collapsed (i + 1) row depth) ↔
      (depth ∈ stack ∧ depth < d) ∨ collapsed[i]? = some true ∧ depth = d := by
    intro depth
    simp only [openAt_succ hd, h.mem depth]
    constructor
    · rintro ⟨row, ⟨hrow, hlt⟩ | ⟨-, hcollapsed, rfl⟩⟩
      · exact Or.inl ⟨⟨row, hrow⟩, hlt⟩
      · exact Or.inr ⟨hcollapsed, rfl⟩
    · rintro (⟨⟨row, hrow⟩, hlt⟩ | ⟨hcollapsed, rfl⟩)
      · exact ⟨row, Or.inl ⟨hrow, hlt⟩⟩
      · exact ⟨i, Or.inr ⟨rfl, hcollapsed, rfl⟩⟩
  split_ifs with hcollapsed
  · refine ⟨List.pairwise_cons.mpr ⟨fun e he ↦ ((hpopped e).mp he).2, hfalling⟩, fun depth ↦ ?_⟩
    rw [List.mem_cons, hpopped, hopen]
    constructor
    · rintro (rfl | hmem)
      · exact Or.inr ⟨hcollapsed, rfl⟩
      · exact Or.inl hmem
    · rintro (hmem | ⟨-, rfl⟩)
      · exact Or.inr hmem
      · exact Or.inl rfl
  · refine ⟨hfalling, fun depth ↦ ?_⟩
    rw [hpopped, hopen]
    exact ⟨Or.inl, fun hor ↦ hor.resolve_right fun hboth ↦ hcollapsed hboth.1⟩

/-- A row is under a group that is open in front of it. -/
theorem Stacked.nonempty_iff {indents : List ℤ} {collapsed : List Bool} {i : ℕ} {stack : List ℤ}
    {d : ℤ} (h : Stacked indents collapsed i stack) (hd : indents[i]? = some d) :
    (!(stack.dropWhile fun depth ↦ decide (d ≤ depth)).isEmpty) = true ↔
      ∃ row, collapsed[row]? = some true ∧ InRange (descendantRange indents row) i := by
  have hpopped := mem_dropWhile_of_falling h.falling d
  have hsome : (!(stack.dropWhile fun depth ↦ decide (d ≤ depth)).isEmpty) = true ↔
      ∃ depth, depth ∈ stack.dropWhile fun depth ↦ decide (d ≤ depth) := by
    cases stack.dropWhile fun depth ↦ decide (d ≤ depth) <;> simp
  rw [hsome]
  constructor
  · rintro ⟨depth, hmem⟩
    obtain ⟨hstack, hlt⟩ := (hpopped depth).mp hmem
    obtain ⟨row, hrow, hcollapsed, hdepth, hbetween⟩ := (h.mem depth).mp hstack
    refine ⟨row, hcollapsed, (inRange_descendantRange hdepth).mpr ⟨hrow, fun k hk hki ↦ ?_⟩⟩
    rcases Nat.lt_or_eq_of_le hki with hki | rfl
    · exact hbetween k hk hki
    · exact ⟨d, hd, hlt⟩
  · rintro ⟨row, hcollapsed, hrange⟩
    cases hdepth : indents[row]? with
    | none =>
      rw [descendantRange, hdepth, InRange] at hrange
      dsimp only at hrange
      omega
    | some depth =>
      obtain ⟨hrow, hbetween⟩ := (inRange_descendantRange hdepth).mp hrange
      obtain ⟨d', hd', hlt⟩ := hbetween i hrow le_rfl
      rw [hd] at hd'
      cases hd'
      have hopen : OpenAt indents collapsed i row depth :=
        ⟨hrow, hcollapsed, hdepth, fun k hk hki ↦ hbetween k hk hki.le⟩
      exact ⟨depth, (hpopped depth).mpr ⟨(h.mem depth).mpr ⟨row, hopen⟩, hlt⟩⟩

/-- By induction on the rows that are left, with the stack of the rows before. -/
theorem hiddenFrom_spec {indents : List ℤ} {collapsed : List Bool} {i : ℕ} {stack rows : List ℤ}
    (h : Stacked indents collapsed i stack) (hrows : indents.drop i = rows) :
    (hiddenFrom collapsed i stack rows).length = rows.length ∧
      ∀ j, (hiddenFrom collapsed i stack rows)[j]? = some true ↔
        j < rows.length ∧ ∃ row, collapsed[row]? = some true ∧
          InRange (descendantRange indents row) (i + j) := by
  induction rows generalizing i stack with
  | nil => exact ⟨rfl, fun j ↦ iff_of_false nofun fun hlt ↦ absurd hlt.1 (Nat.not_lt_zero j)⟩
  | cons d rows ih =>
    have hd : indents[i]? = some d := by
      rw [← Nat.add_zero i, ← List.getElem?_drop, hrows]
      rfl
    have hrest : indents.drop (i + 1) = rows := by
      rw [← List.drop_drop, hrows]
      rfl
    obtain ⟨hlength, hhidden⟩ := ih (h.step hd) hrest
    rw [hiddenFrom]
    refine ⟨congrArg (· + 1) hlength, fun j ↦ ?_⟩
    cases j with
    | zero =>
      rw [List.getElem?_cons_zero, Option.some.injEq, h.nonempty_iff hd, Nat.add_zero]
      exact ⟨fun hrow ↦ ⟨Nat.succ_pos _, hrow⟩, fun hrow ↦ hrow.2⟩
    | succ j =>
      rw [List.getElem?_cons_succ, hhidden, List.length_cons, Nat.succ_lt_succ_iff,
        Nat.add_assoc, Nat.add_comm 1]

/-! ### Deletion -/

theorem getElem?_markGroup {indents : List ℤ} {mark : List Bool} (r i : ℕ) :
    (markGroup indents mark r)[i]? = some true ↔
      mark[i]? = some true ∨ i < mark.length ∧ r < indents.length ∧
        (i = r ∨ InRange (descendantRange indents r) i) := by
  unfold markGroup
  split_ifs with hr
  · exact ⟨Or.inl, fun h ↦ h.resolve_right fun hall ↦ absurd hall.2.1 (by omega)⟩
  · have hlt : r < indents.length := by omega
    dsimp only
    rw [List.getElem?_mapIdx]
    cases hi : mark[i]? with
    | none =>
      have hout := List.getElem?_eq_none_iff.mp hi
      refine iff_of_false nofun ?_
      rintro (h | ⟨hin, -⟩)
      · cases h
      · omega
    | some marked =>
      have hin : i < mark.length := (List.getElem?_eq_some_iff.mp hi).1
      simp only [Option.map_some, Option.some.injEq, Bool.or_eq_true, Bool.and_eq_true,
        beq_iff_eq, decide_eq_true_eq, hin, hlt, true_and, InRange, or_assoc]

/-- A row is marked if it is selected or a descendant of a selected row. -/
theorem getElem?_foldl_markGroup {indents : List ℤ} {selected : List ℕ} {mark : List Bool}
    (hmark : mark.length = indents.length) (i : ℕ) :
    (selected.foldl (markGroup indents) mark).length = indents.length ∧
      ((selected.foldl (markGroup indents) mark)[i]? = some true ↔
        mark[i]? = some true ∨ i < indents.length ∧ ∃ r ∈ selected, r < indents.length ∧
          (i = r ∨ InRange (descendantRange indents r) i)) := by
  induction selected generalizing mark with
  | nil => simp [hmark]
  | cons r selected ih =>
    have hnext : (markGroup indents mark r).length = indents.length := by
      unfold markGroup
      split_ifs
      · exact hmark
      · rw [List.length_mapIdx, hmark]
    obtain ⟨hlength, hmarked⟩ := ih hnext
    refine ⟨hlength, ?_⟩
    rw [List.foldl_cons, hmarked, getElem?_markGroup, hmark, List.exists_mem_cons_iff, or_assoc,
      ← and_or_left]

theorem mem_expandGroupDeletion {indents : List ℤ} {selected : List ℕ} {i : ℕ} :
    i ∈ expandGroupDeletion indents selected ↔
      i < indents.length ∧ ∃ r ∈ selected, r < indents.length ∧
        (i = r ∨ InRange (descendantRange indents r) i) := by
  obtain ⟨hlength, hmarked⟩ := @getElem?_foldl_markGroup indents selected
    (List.replicate indents.length false) List.length_replicate i
  have hnone : (List.replicate indents.length false)[i]? ≠ some true := by
    rw [List.getElem?_replicate]
    split_ifs <;> simp
  rw [expandGroupDeletion, List.mem_filter, List.mem_range, hlength, beq_iff_eq, hmarked]
  constructor
  · rintro ⟨hi, h⟩
    exact h.resolve_left hnone
  · exact fun h ↦ ⟨h.1, Or.inr h⟩

/-- The descendants of a row. -/
def Closed (indents : List ℤ) (rows : Set ℕ) : Prop :=
  ∀ r ∈ rows, ∀ i, InRange (descendantRange indents r) i → i ∈ rows

theorem inRange_lt {indents : List ℤ} {row i : ℕ} (h : InRange (descendantRange indents row) i) :
    i < indents.length := by
  cases hrow : indents[row]? with
  | none =>
    rw [descendantRange, hrow, InRange] at h
    dsimp only at h
    omega
  | some depth =>
    obtain ⟨hlt, hall⟩ := (inRange_descendantRange hrow).mp h
    obtain ⟨d, hd, -⟩ := hall i hlt le_rfl
    exact (List.getElem?_eq_some_iff.mp hd).1

/-- The descendants of a descendant are descendants. -/
theorem inRange_trans {indents : List ℤ} {row i j : ℕ}
    (hi : InRange (descendantRange indents row) i) (hj : InRange (descendantRange indents i) j) :
    InRange (descendantRange indents row) j := by
  cases hrow : indents[row]? with
  | none =>
    rw [descendantRange, hrow, InRange] at hi
    dsimp only at hi
    omega
  | some depth =>
    obtain ⟨hlt, hall⟩ := (inRange_descendantRange hrow).mp hi
    obtain ⟨middle, hmiddle, hdeeper⟩ := hall i hlt le_rfl
    obtain ⟨hij, hunder⟩ := (inRange_descendantRange hmiddle).mp hj
    refine (inRange_descendantRange hrow).mpr ⟨hlt.trans hij, fun k hk hkj ↦ ?_⟩
    rcases Nat.lt_or_ge i k with hik | hki
    · obtain ⟨d, hd, hlow⟩ := hunder k hik hkj
      exact ⟨d, hd, hdeeper.trans hlow⟩
    · exact hall k hk hki

/-- A row is hidden exactly if it is a descendant of a collapsed row. The deleted rows are the least
set that has the selected rows and the descendants of each of its rows, in order and once each. -/
theorem collapse_and_deletion_exact (indents : List ℤ) (collapsed : List Bool)
    (selected : List ℕ) :
    ((hiddenByCollapse indents collapsed).length = indents.length ∧
      ∀ i < indents.length, (hiddenByCollapse indents collapsed)[i]? = some true ↔
        ∃ row, collapsed[row]? = some true ∧ InRange (descendantRange indents row) i) ∧
    (expandGroupDeletion indents selected).Pairwise (· < ·) ∧
    (∀ r ∈ selected, r < indents.length → r ∈ expandGroupDeletion indents selected) ∧
    Closed indents {i | i ∈ expandGroupDeletion indents selected} ∧
    ∀ rows : Set ℕ, (∀ r ∈ selected, r < indents.length → r ∈ rows) → Closed indents rows →
      ∀ i ∈ expandGroupDeletion indents selected, i ∈ rows := by
  refine ⟨?_, List.pairwise_lt_range.filter _, fun r hr hlt ↦ ?_, fun r hr i hi ↦ ?_,
    fun rows hselected hclosed i hi ↦ ?_⟩
  · have hstart : Stacked indents collapsed 0 [] :=
      ⟨List.Pairwise.nil, fun depth ↦ iff_of_false List.not_mem_nil
        fun ⟨row, hrow, _⟩ ↦ absurd hrow (Nat.not_lt_zero row)⟩
    obtain ⟨hlength, hhidden⟩ := hiddenFrom_spec hstart (rfl : indents.drop 0 = indents)
    refine ⟨hlength, fun i hi ↦ (hhidden i).trans ?_⟩
    rw [Nat.zero_add]
    exact ⟨fun h ↦ h.2, fun h ↦ ⟨hi, h⟩⟩
  · exact mem_expandGroupDeletion.mpr ⟨hlt, r, hr, hlt, Or.inl rfl⟩
  · obtain ⟨hlt, s, hs, hslt, hor⟩ := mem_expandGroupDeletion.mp hr
    refine mem_expandGroupDeletion.mpr ⟨inRange_lt hi, s, hs, hslt, Or.inr ?_⟩
    rcases hor with rfl | hrange
    · exact hi
    · exact inRange_trans hrange hi
  · obtain ⟨hlt, r, hr, hrlt, hor⟩ := mem_expandGroupDeletion.mp hi
    rcases hor with rfl | hrange
    · exact hselected i hr hlt
    · exact hclosed r (hselected r hr hrlt) i hrange

example : hiddenByCollapse [0, 2, 1, 1, 0] [true, false, true, false, false] =
    [false, true, true, true, false] := by decide

end Cecore.Table
