import Mathlib.Data.List.Sort

/-!
# Chains of parents

The items from one on, each the parent of the one before, where parents are given by a function; and
what it means that a list is another one in a stable order.
-/

set_option autoImplicit false
set_option relaxedAutoImplicit false

namespace Cecore.Library

section

variable {α : Type}

/-- The item with its ancestors, the item first. There is none where the parents go in a circle. -/
inductive Ancestry (parent : α → Option α) : α → List α → Prop
  | root {a : α} (h : parent a = none) : Ancestry parent a [a]
  | child {a b : α} {chain : List α} (h : parent a = some b) (hrest : Ancestry parent b chain) :
      Ancestry parent a (a :: chain)

namespace Ancestry

variable {parent : α → Option α} {a : α} {chain : List α}

theorem unique (h : Ancestry parent a chain) {chain' : List α} (h' : Ancestry parent a chain') :
    chain = chain' := by
  induction h generalizing chain' with
  | root hroot =>
    cases h' with
    | root => rfl
    | child hparent => rw [hroot] at hparent; cases hparent
  | child hparent _ ih =>
    cases h' with
    | root hroot => rw [hroot] at hparent; cases hparent
    | child hparent' hrest =>
      rw [hparent] at hparent'
      cases hparent'
      rw [ih hrest]

/-- Each item of a chain has the rest of it as its own. -/
theorem of_mem (h : Ancestry parent a chain) {b : α} (hb : b ∈ chain) :
    ∃ rest, Ancestry parent b rest ∧ rest.length ≤ chain.length := by
  induction h with
  | root hroot =>
    rw [List.mem_singleton] at hb
    subst hb
    exact ⟨_, .root hroot, le_rfl⟩
  | child hparent hrest ih =>
    rcases List.mem_cons.mp hb with rfl | hb
    · exact ⟨_, .child hparent hrest, le_rfl⟩
    · obtain ⟨rest, hown, hle⟩ := ih hb
      exact ⟨rest, hown, hle.trans (Nat.le_succ _)⟩

/-- No item is its own ancestor. -/
theorem nodup (h : Ancestry parent a chain) : chain.Nodup := by
  induction h with
  | root => exact List.nodup_singleton _
  | @child a b chain hparent hrest ih =>
    refine List.nodup_cons.mpr ⟨fun hmem ↦ ?_, ih⟩
    obtain ⟨rest, hown, hle⟩ := hrest.of_mem hmem
    rw [← unique (.child hparent hrest) hown] at hle
    exact absurd hle (Nat.not_succ_le_self _)

end Ancestry

/-! ### Stable orders -/

variable {β : Type}

/-- The items of a list, ordered by a key; items of one key stay in order. -/
structure StablyOrdered [LinearOrder β] (key : α → β) (items result : List α) : Prop where
  perm : result.Perm items
  ordered : result.Pairwise fun a b ↦ key a ≤ key b
  stable : ∀ k, (result.filter fun a ↦ key a = k) = items.filter fun a ↦ key a = k

theorem stablyOrdered_mergeSort [LinearOrder β] (key : α → β) (items : List α) :
    StablyOrdered key items (items.mergeSort fun a b ↦ key a ≤ key b) := by
  have htrans : ∀ a b c : α, decide (key a ≤ key b) = true → decide (key b ≤ key c) = true →
      decide (key a ≤ key c) = true := by
    intro a b c hab hbc
    rw [decide_eq_true_eq] at hab hbc ⊢
    exact hab.trans hbc
  have htotal : ∀ a b : α, (decide (key a ≤ key b) || decide (key b ≤ key a)) = true := by
    intro a b
    rw [Bool.or_eq_true, decide_eq_true_eq, decide_eq_true_eq]
    exact le_total _ _
  have hperm := List.mergeSort_perm items fun a b ↦ decide (key a ≤ key b)
  refine ⟨hperm, ?_, fun k ↦ ?_⟩
  · exact (List.pairwise_mergeSort htrans htotal items).imp fun h ↦ of_decide_eq_true h
  · -- Items of one key are in order already, so that they stay a part of the list.
    have hsorted : (items.filter fun a ↦ key a = k).Pairwise
        fun a b ↦ decide (key a ≤ key b) = true := by
      refine List.pairwise_of_forall_mem_list fun a ha b hb ↦ ?_
      rw [List.mem_filter, decide_eq_true_eq] at ha hb
      rw [decide_eq_true_eq, ha.2, hb.2]
    have hsub := (List.sublist_mergeSort htrans htotal hsorted List.filter_sublist).filter
      fun a ↦ decide (key a = k)
    rw [List.filter_filter] at hsub
    simp only [Bool.and_self] at hsub
    refine (hsub.eq_of_length ?_).symm
    exact ((hperm.filter _).length_eq).symm

end

end Cecore.Library
