import Cecore.Pointer.ScanWithMap

/-!
# The window of a pointer scan

The pointers that `scanWithMap` visits for an address: where the upper end of the window has not
wrapped around, those whose value differs from the address by an offset of the configured window
(`mem_pointersTo`).
-/

set_option autoImplicit false
set_option relaxedAutoImplicit false

namespace Cecore.Pointer

/-- In a sorted list, the elements of the front that satisfy a downward closed predicate are all
that do. -/
theorem lt_length_takeWhile_iff {α : Type} {p : α → Bool} {l : List α}
    (hdown : l.Pairwise fun first second ↦ p second → p first) {i : ℕ} (hi : i < l.length) :
    i < (l.takeWhile p).length ↔ p l[i] := by
  induction l generalizing i with
  | nil => cases hi
  | cons first rest ih =>
    obtain ⟨hfirst, hrest⟩ := List.pairwise_cons.mp hdown
    rw [List.takeWhile_cons]
    cases i with
    | zero =>
      rw [List.getElem_cons_zero]
      cases p first <;> simp
    | succ i =>
      have hlt : i < rest.length := Nat.lt_of_succ_lt_succ hi
      rw [List.getElem_cons_succ]
      split_ifs with hp
      · rw [List.length_cons, Nat.succ_lt_succ_iff]
        exact ih hrest hlt
      · refine iff_of_false (Nat.not_lt_zero _) fun hlater ↦ hp ?_
        exact hfirst _ (List.getElem_mem hlt) hlater

variable {map : PointerMap} {config : PointerScanConfig}

/-- The offsets that the settings allow between the value of a pointer and the address it leads to.
-/
def InWindow (config : PointerScanConfig) (off : ℤ) : Prop :=
  (if config.negativeOffsets then -config.maxOffset else 0) ≤ off ∧ off ≤ config.maxOffset

instance (off : ℤ) : Decidable (InWindow config off) := instDecidableAnd

theorem below_iff {bound i : ℕ} (hi : i < map.byTarget.length) :
    i < (map.byTarget.takeWhile fun e ↦ decide (e.pointsTo < bound)).length ↔
      map.byTarget[i].pointsTo < bound := by
  rw [lt_length_takeWhile_iff _ hi, decide_eq_true_iff]
  refine map.sortedByTarget.imp fun {first second} hle hlt ↦ ?_
  exact decide_eq_true (hle.trans_lt (of_decide_eq_true hlt))

theorem upTo_iff {bound i : ℕ} (hi : i < map.byTarget.length) :
    i < (map.byTarget.takeWhile fun e ↦ decide (e.pointsTo ≤ bound)).length ↔
      map.byTarget[i].pointsTo ≤ bound := by
  rw [lt_length_takeWhile_iff _ hi, decide_eq_true_iff]
  refine map.sortedByTarget.imp fun {first second} hle hlt ↦ ?_
  exact decide_eq_true (hle.trans (of_decide_eq_true hlt))

/-- A window that does not run past the end holds the pointers with a value from its lower to its
upper end. -/
theorem mem_window {address : ℕ} {entries : List Entry} (h : window map config address = some entries)
    {entry : Entry} : entry ∈ entries ↔ entry ∈ map.byTarget ∧
      searchMin config address ≤ entry.pointsTo ∧ entry.pointsTo ≤ searchMax config address := by
  unfold window at h
  dsimp only at h
  split_ifs at h with hle
  obtain rfl := Option.some.inj h
  have hupper := (List.takeWhile_prefix (l := map.byTarget) fun e ↦
    decide (e.pointsTo ≤ searchMax config address)).length_le
  rw [List.mem_drop_iff_getElem]
  constructor
  · rintro ⟨i, hi, rfl⟩
    rw [List.length_take] at hi
    have hlt : (map.byTarget.takeWhile fun e ↦
        decide (e.pointsTo < searchMin config address)).length + i < map.byTarget.length := by omega
    rw [List.getElem_take]
    refine ⟨List.getElem_mem _, not_lt.mp fun hbelow ↦ ?_, (upTo_iff _).mp (by omega)⟩
    have := (below_iff hlt).mpr hbelow
    omega
  · rintro ⟨hmem, hlow, hhigh⟩
    obtain ⟨i, hi, rfl⟩ := List.mem_iff_getElem.mp hmem
    have hlower : ¬i < (map.byTarget.takeWhile fun e ↦
        decide (e.pointsTo < searchMin config address)).length := fun hlt ↦
      absurd ((below_iff hi).mp hlt) (not_lt.mpr hlow)
    have hupper := (upTo_iff hi).mpr hhigh
    refine ⟨i - (map.byTarget.takeWhile fun e ↦
      decide (e.pointsTo < searchMin config address)).length, ?_, ?_⟩
    · rw [List.length_take]
      omega
    · rw [List.getElem_take]
      congr 1
      omega

/-- A window runs past the end exactly if a pointer lies between its upper end and its lower one. -/
theorem window_eq_none {address : ℕ} : window map config address = none ↔
    ∃ entry ∈ map.byTarget,
      searchMax config address < entry.pointsTo ∧ entry.pointsTo < searchMin config address := by
  unfold window
  dsimp only
  rw [ite_eq_right_iff]
  simp only [reduceCtorEq, imp_false, not_le]
  constructor
  · intro hlt
    have hlength := (List.takeWhile_prefix (l := map.byTarget) fun e ↦
      decide (e.pointsTo < searchMin config address)).length_le
    have hi := hlt.trans_le hlength
    refine ⟨_, List.getElem_mem hi, not_le.mp fun hle ↦ ?_, (below_iff hi).mp hlt⟩
    exact absurd ((upTo_iff hi).mpr hle) (lt_irrefl _)
  · rintro ⟨entry, hmem, hupper, hlower⟩
    obtain ⟨i, hi, rfl⟩ := List.mem_iff_getElem.mp hmem
    refine lt_of_le_of_lt (not_lt.mp fun hlt ↦ ?_) ((below_iff hi).mpr hlower)
    exact absurd ((upTo_iff hi).mp hlt) (not_le.mpr hupper)

/-- A window whose upper end has not wrapped around does not run past the end. -/
theorem searchMin_le_searchMax {address : ℕ}
    (hwrap : config.negativeOffsets = true → address + wordOf config.maxOffset < sizeModulus) :
    searchMin config address ≤ searchMax config address := by
  have hmin : searchMin config address ≤ address := by
    unfold searchMin
    split_ifs <;> omega
  refine hmin.trans ?_
  unfold searchMax
  split_ifs with hnegative
  · rw [Nat.mod_eq_of_lt (hwrap hnegative)]
    exact Nat.le_add_right _ _
  · rfl

theorem wordOf_maxOffset (hoffset : 0 ≤ config.maxOffset) :
    (wordOf config.maxOffset : ℤ) = config.maxOffset := by
  have hhigh := config.maxOffset_bounds.2
  rw [wordOf, Int.emod_eq_of_lt hoffset (hhigh.trans (by decide)), Int.toNat_of_nonneg hoffset]

/-- The offset of a pointer, as it is recorded, is exact where it lies in the window. -/
theorem int32Of_wordOf {n : ℤ} (hlow : -(2 ^ 31) ≤ n) (hhigh : n < 2 ^ 31) :
    int32Of (wordOf n) = n := by
  have hmod : (wordOf n : ℤ) = n % 2 ^ 64 := by
    rw [wordOf, Int.toNat_of_nonneg (Int.emod_nonneg n (by decide))]
    rfl
  unfold int32Of
  split_ifs with hsmall <;> push_cast at * <;> omega

/-- The pointers that are visited for an address have an offset of the window. -/
theorem inWindow_of_mem_pointersTo (hoffset : 0 ≤ config.maxOffset) {address : ℕ} {entry : Entry}
    (h : entry ∈ pointersTo map config address) :
    entry ∈ map.byTarget ∧ InWindow config ((address : ℤ) - entry.pointsTo) := by
  cases hwindow : window map config address with
  | none =>
    rw [pointersTo, hwindow] at h
    cases h
  | some entries =>
    rw [pointersTo, hwindow, Option.getD_some] at h
    obtain ⟨hmem, hlow, hhigh⟩ := (mem_window hwindow).mp h
    have hmax := wordOf_maxOffset hoffset
    refine ⟨hmem, ?_, ?_⟩
    · unfold searchMax at hhigh
      split_ifs at hhigh ⊢
      · have := Nat.mod_le (address + wordOf config.maxOffset) sizeModulus
        omega
      · omega
    · unfold searchMin at hlow
      split_ifs at hlow <;> omega

/-- They are all the pointers with an offset of the window, where its upper end has not wrapped
around. -/
theorem mem_pointersTo (hoffset : 0 ≤ config.maxOffset) {address : ℕ} {entry : Entry}
    (hwrap : config.negativeOffsets = true → address + wordOf config.maxOffset < sizeModulus) :
    entry ∈ pointersTo map config address ↔
      entry ∈ map.byTarget ∧ InWindow config ((address : ℤ) - entry.pointsTo) := by
  refine ⟨inWindow_of_mem_pointersTo hoffset, ?_⟩
  rintro ⟨hmem, hlow, hhigh⟩
  have hmax := wordOf_maxOffset hoffset
  cases hwindow : window map config address with
  | none =>
    obtain ⟨other, -, hupper, hlower⟩ := window_eq_none.mp hwindow
    have := searchMin_le_searchMax hwrap
    omega
  | some entries =>
    rw [pointersTo, hwindow, Option.getD_some]
    refine (mem_window hwindow).mpr ⟨hmem, ?_, ?_⟩
    · unfold searchMin
      split_ifs <;> omega
    · unfold searchMax
      split_ifs with hnegative
      · rw [if_pos hnegative] at hlow
        rw [Nat.mod_eq_of_lt (hwrap hnegative)]
        omega
      · rw [if_neg hnegative] at hlow
        omega

end Cecore.Pointer
