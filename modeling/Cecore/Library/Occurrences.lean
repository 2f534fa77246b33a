import Mathlib.Data.List.Basic
import Mathlib.Data.List.Infix
import Mathlib.Order.Bounds.Basic

/-!
# Where a pattern occurs in a text

A pattern has letters of its own, and `fits` says which letters of the text each of them admits.
`places` lists every place at which the pattern fits the text, and `countHits` is the search that
gives up at the second one.
-/

set_option autoImplicit false
set_option relaxedAutoImplicit false

namespace Cecore.Library.Occurrences

variable {π α : Type} (fits : π → α → Bool)

/-- The pattern fits the front of the text. -/
def fitsFront : List π → List α → Bool
  | [], _ => true
  | _ :: _, [] => false
  | letter :: pattern, a :: text => fits letter a && fitsFront pattern text

def places (pattern : List π) (text : List α) : List ℕ :=
  (List.range (text.length + 1 - pattern.length)).filter fun place ↦
    fitsFront fits pattern (text.drop place)

/-- How many hits there are, up to two, and the first of them. -/
def countHits (hit : ℕ → Bool) : (count first : ℕ) → List ℕ → ℕ × ℕ
  | count, first, [] => (count, first)
  | count, first, place :: rest =>
    if hit place then
      let first := if count = 0 then place else first
      if count + 1 > 1 then (count + 1, first) else countHits hit (count + 1) first rest
    else countHits hit count first rest

variable {fits}

theorem fitsFront_append (front back : List π) (text : List α) :
    fitsFront fits (front ++ back) text =
      (fitsFront fits front text && fitsFront fits back (text.drop front.length)) := by
  induction front generalizing text with
  | nil => simp [fitsFront]
  | cons letter front ih =>
    cases text with
    | nil => simp [fitsFront]
    | cons a text => simp [fitsFront, ih, Bool.and_assoc]

/-- A pattern that admits every letter fits wherever there is room for it. -/
theorem fitsFront_of_wild {pattern : List π} (hwild : ∀ letter ∈ pattern, ∀ a, fits letter a = true)
    {text : List α} (hroom : pattern.length ≤ text.length) : fitsFront fits pattern text = true := by
  induction pattern generalizing text with
  | nil => rfl
  | cons letter pattern ih =>
    cases text with
    | nil => simp at hroom
    | cons a text =>
      rw [fitsFront, hwild letter List.mem_cons_self a, Bool.true_and]
      exact ih (fun other hother ↦ hwild other (List.mem_cons_of_mem _ hother)) (by simpa using hroom)

theorem mem_places {pattern : List π} {text : List α} {place : ℕ} :
    place ∈ places fits pattern text ↔
      place + pattern.length ≤ text.length ∧ fitsFront fits pattern (text.drop place) = true := by
  simp only [places, List.mem_filter, List.mem_range]
  constructor
  · rintro ⟨hlt, hfits⟩
    exact ⟨by omega, hfits⟩
  · rintro ⟨hle, hfits⟩
    exact ⟨by omega, hfits⟩

theorem nodup_places (pattern : List π) (text : List α) : (places fits pattern text).Nodup :=
  List.nodup_range.filter _

/-- One place only, and which. -/
theorem places_eq_singleton_iff {pattern : List π} {text : List α} {place : ℕ} :
    places fits pattern text = [place] ↔
      place ∈ places fits pattern text ∧ ∀ other ∈ places fits pattern text, other = place := by
  constructor
  · intro h
    simp [h]
  · rintro ⟨hmem, hall⟩
    have hnodup := @nodup_places _ _ fits pattern text
    cases hplaces : places fits pattern text with
    | nil => simp [hplaces] at hmem
    | cons first rest =>
      rw [hplaces] at hall hnodup
      have hfirst : first = place := hall first List.mem_cons_self
      cases rest with
      | nil => rw [hfirst]
      | cons second rest =>
        have hsecond : second = place := hall second (by simp)
        simp [hfirst, hsecond] at hnodup

/-- Letters behind the pattern can only rule places out. -/
theorem places_append_subset (front back : List π) (text : List α) :
    places fits (front ++ back) text ⊆ places fits front text := by
  intro place hplace
  rw [mem_places, fitsFront_append, Bool.and_eq_true, List.length_append] at hplace
  exact mem_places.mpr ⟨by omega, hplace.2.1⟩

/-- Letters that admit everything rule out only what has no room for them. -/
theorem mem_places_append_wild {front back : List π} {text : List α} {place : ℕ}
    (hwild : ∀ letter ∈ back, ∀ a, fits letter a = true) :
    place ∈ places fits (front ++ back) text ↔
      place ∈ places fits front text ∧ place + (front ++ back).length ≤ text.length := by
  constructor
  · intro h
    exact ⟨places_append_subset front back text h, (mem_places.mp h).1⟩
  · rintro ⟨hfront, hroom⟩
    rw [mem_places, fitsFront_append, (mem_places.mp hfront).2, Bool.true_and]
    refine ⟨hroom, fitsFront_of_wild hwild ?_⟩
    rw [List.length_append] at hroom
    simp only [List.length_drop]
    omega

theorem countHits_one (hit : ℕ → Bool) (first : ℕ) (positions : List ℕ) :
    countHits hit 1 first positions = (min 2 ((positions.filter hit).length + 1), first) := by
  induction positions with
  | nil => rfl
  | cons place rest ih =>
    by_cases hplace : hit place
    · simp [countHits, hplace]
    · simp [countHits, hplace, ih]

theorem countHits_zero (hit : ℕ → Bool) (first : ℕ) (positions : List ℕ) :
    countHits hit 0 first positions =
      (min 2 (positions.filter hit).length, (positions.filter hit).headD first) := by
  induction positions with
  | nil => rfl
  | cons place rest ih =>
    by_cases hplace : hit place
    · simp [countHits, hplace, countHits_one]
    · simp [countHits, hplace, ih]

end Cecore.Library.Occurrences
