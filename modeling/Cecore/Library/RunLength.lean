import Mathlib.Data.List.Basic
import Mathlib.Data.Nat.Notation

/-!
# Texts with escapes and runs

A text over an alphabet with two marker letters: behind the one stands a letter in disguise, behind
the other the count of how often the last letter of the payload is repeated. `expand` says what a
list of items stands for, and `Expands` that a text is a way to write a payload.
-/

set_option autoImplicit false
set_option relaxedAutoImplicit false

namespace Cecore.Library.RunLength

variable {α : Type}

/-- The two markers, and what the letters behind them mean. -/
structure Markers (α : Type) where
  escape : α
  star : α
  reveal : α → α
  /-- How many letters a count adds, none for a letter that is no count. -/
  count : α → Option ℕ
  distinct : star ≠ escape

inductive Item (α : Type)
  | literal (letter : α)
  | escaped (disguise : α)
  | run (counter : α)
  deriving DecidableEq, Repr

variable (markers : Markers α)

def Item.letters : Item α → List α
  | .literal letter => [letter]
  | .escaped disguise => [markers.escape, disguise]
  | .run counter => [markers.star, counter]

/-- A marker does not stand for itself. -/
def Item.Legal : Item α → Prop
  | .literal letter => letter ≠ markers.escape ∧ letter ≠ markers.star
  | .escaped _ => True
  | .run _ => True

instance [DecidableEq α] (item : Item α) : Decidable (item.Legal markers) :=
  match item with
  | .literal letter =>
    inferInstanceAs (Decidable (letter ≠ markers.escape ∧ letter ≠ markers.star))
  | .escaped _ => isTrue trivial
  | .run _ => isTrue trivial

/-- The payload so far and what an item adds to it. -/
def Item.extend (sofar : List α) : Item α → Option (List α)
  | .literal letter => some (sofar ++ [letter])
  | .escaped disguise => some (sofar ++ [markers.reveal disguise])
  | .run counter =>
    match sofar.getLast?, markers.count counter with
    | some last, some times => some (sofar ++ List.replicate times last)
    | _, _ => none

def write (items : List (Item α)) : List α := items.flatMap (Item.letters markers)

def expand : List α → List (Item α) → Option (List α)
  | sofar, [] => some sofar
  | sofar, item :: items =>
    match item.extend markers sofar with
    | some extended => expand extended items
    | none => none

/-- The text writes the payload behind `sofar`. -/
def Expands (sofar text payload : List α) : Prop :=
  ∃ items : List (Item α), (∀ item ∈ items, item.Legal markers) ∧ text = write markers items ∧
    expand markers sofar items = some payload

variable {markers}

theorem Item.extend_length_le {sofar extended : List α} {item : Item α}
    (h : item.extend markers sofar = some extended) : sofar.length ≤ extended.length := by
  cases item with
  | literal letter =>
    cases h
    simp
  | escaped disguise =>
    cases h
    simp
  | run counter =>
    simp only [Item.extend] at h
    split at h
    · cases h
      simp
    · cases h

/-- A payload only grows. -/
theorem expand_length_le {items : List (Item α)} {sofar payload : List α}
    (h : expand markers sofar items = some payload) : sofar.length ≤ payload.length := by
  induction items generalizing sofar with
  | nil =>
    cases h
    exact Nat.le_refl _
  | cons item items ih =>
    rw [expand] at h
    split at h
    · next extended hextend => exact Nat.le_trans (Item.extend_length_le hextend) (ih h)
    · cases h

theorem expands_nil {sofar payload : List α} :
    Expands markers sofar [] payload ↔ payload = sofar := by
  constructor
  · rintro ⟨items, -, htext, hexpand⟩
    cases items with
    | nil =>
      cases hexpand
      rfl
    | cons item items => cases item <;> simp [write, Item.letters] at htext
  · rintro rfl
    exact ⟨[], by simp, rfl, rfl⟩

theorem expands_cons (item : Item α) {sofar extended text payload : List α}
    (hlegal : item.Legal markers) (hextend : item.extend markers sofar = some extended)
    (h : Expands markers extended text payload) :
    Expands markers sofar (item.letters markers ++ text) payload := by
  obtain ⟨items, hitems, rfl, hexpand⟩ := h
  refine ⟨item :: items, ?_, rfl, ?_⟩
  · intro other hother
    rcases List.mem_cons.mp hother with rfl | hother
    · exact hlegal
    · exact hitems other hother
  · rw [expand, hextend]
    exact hexpand

end Cecore.Library.RunLength
