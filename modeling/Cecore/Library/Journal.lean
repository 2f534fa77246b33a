import Mathlib.Data.List.Basic
import Mathlib.Data.Option.Basic

/-!
# Undo journals

A store maps addresses to cells. Before a range of cells is overwritten its contents are appended to
a journal; replaying the records from the last to the first brings every cell back. What a replay
leaves in a cell is the content in the earliest record that covers it (`earliest`), so a journal is
good for a cell when that content, or without one the present content, is the one to go back to
(`Recovers`). Recording before writing keeps a journal good (`Recovers.record`, `Recovers.write`),
and a replay through whatever writing operation ends in it (`Recovers.replay`).
-/

set_option autoImplicit false
set_option relaxedAutoImplicit false

namespace Cecore.Library.Journal

variable {β : Type}

/-- The cells of a store, where it has them. -/
abbrev Store (β : Type) := ℕ → Option β

/-- The cells `bytes`, from `address` up. -/
structure Record (β : Type) where
  address : ℕ
  cells : List β
  deriving DecidableEq

/-- The cell at `x`, if the record covers it. -/
def Record.at (r : Record β) (x : ℕ) : Option β :=
  if r.address ≤ x then r.cells[x - r.address]? else none

/-- The store with the cells of a record on top. -/
def overlay (store : Store β) (r : Record β) : Store β := fun x ↦ (r.at x).or (store x)

/-- The content of `x` in the first record that covers it. -/
def earliest (journal : List (Record β)) (x : ℕ) : Option β :=
  journal.findSome? fun r ↦ r.at x

/-- Going back through `journal` from a store that has `present` at `x` ends with `original`. -/
def Recovers (journal : List (Record β)) (x : ℕ) (present original : Option β) : Prop :=
  (earliest journal x).or present = original

@[simp] theorem earliest_nil (x : ℕ) : earliest ([] : List (Record β)) x = none := rfl

theorem earliest_append (first second : List (Record β)) (x : ℕ) :
    earliest (first ++ second) x = (earliest first x).or (earliest second x) :=
  List.findSome?_append

theorem earliest_cons (r : Record β) (journal : List (Record β)) (x : ℕ) :
    earliest (r :: journal) x = (r.at x).or (earliest journal x) := by
  rw [earliest, List.findSome?_cons]
  cases r.at x <;> rfl

/-- A record covers the addresses of its range. -/
theorem Record.isSome_at (r : Record β) (x : ℕ) :
    (r.at x).isSome ↔ r.address ≤ x ∧ x < r.address + r.cells.length := by
  unfold Record.at
  split_ifs with hle
  · rw [Option.isSome_iff_ne_none, ne_eq, List.getElem?_eq_none_iff]
    omega
  · simp [hle]

/-- A cell that some record covers is recovered whatever is in the store. -/
theorem Recovers.of_covered {journal : List (Record β)} {x : ℕ} {present original : Option β}
    (h : Recovers journal x present original) (hcover : ∃ r ∈ journal, (r.at x).isSome)
    (other : Option β) : Recovers journal x other original := by
  have hfound : (earliest journal x).isSome := by
    obtain ⟨r, hr, hat⟩ := hcover
    exact List.findSome?_isSome_iff.mpr ⟨r, hr, hat⟩
  obtain ⟨cell, hcell⟩ := Option.isSome_iff_exists.mp hfound
  unfold Recovers at h ⊢
  rw [hcell] at h ⊢
  exact h

/-- Recording the present content keeps a journal good. -/
theorem Recovers.record {journal : List (Record β)} {x : ℕ} {store : Store β} {original : Option β}
    (h : Recovers journal x (store x) original) (r : Record β)
    (hsame : ∀ cell, r.at x = some cell → store x = some cell) :
    Recovers (journal ++ [r]) x (store x) original := by
  unfold Recovers at h ⊢
  rw [earliest_append, Option.or_assoc, earliest_cons, earliest_nil, Option.or_none]
  cases hat : r.at x with
  | none => simpa using h
  | some cell =>
    rw [← hsame cell hat, Option.or_self]
    exact h

/-- Writing over a recorded range keeps a journal good. -/
theorem Recovers.write {journal : List (Record β)} {x : ℕ} {store : Store β} {original : Option β}
    (h : Recovers journal x (store x) original) {after : Store β}
    (hafter : after x = store x ∨ ∃ r ∈ journal, (r.at x).isSome) :
    Recovers journal x (after x) original := by
  rcases hafter with hsame | hcover
  · rw [hsame]
    exact h
  · exact h.of_covered hcover (after x)

/-- Replaying the journal from its last record recovers the cell, through any operation that puts
the cells of a record into the states it meets. -/
theorem Recovers.replay {σ : Type} {store : σ → Store β} {write : Record β → σ → σ}
    {journal : List (Record β)} {x : ℕ} {original : Option β} {s : σ}
    (h : Recovers journal x (store s x) original)
    (hwrite : ∀ first r last, journal = first ++ r :: last →
      store (write r (last.foldr write s)) x = (r.at x).or (store (last.foldr write s) x)) :
    store (journal.foldr write s) x = original := by
  have hreplay : ∀ last first, journal = first ++ last →
      store (last.foldr write s) x = (earliest last x).or (store s x) := by
    intro last
    induction last with
    | nil => intro _ _; rfl
    | cons r last ih =>
      intro first hsplit
      have hrest := ih (first ++ [r]) (by simp [hsplit])
      rw [List.foldr_cons, hwrite first r last hsplit, hrest, earliest_cons, Option.or_assoc]
  rw [hreplay journal [] rfl]
  exact h

end Cecore.Library.Journal
