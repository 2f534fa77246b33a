import Mathlib.Data.List.Nodup
import Mathlib.Order.WellFounded

/-!
# Depth-first search

Search through a graph that enters each vertex once, with the forest of the calls it makes. The
forest has every vertex that was entered once (`searchAll_spec`), it is the unfolding of the graph
where every vertex has at most one predecessor (`searchAll_unfolds`), and it has all vertices where
none has infinitely many predecessors behind each other (`mem_of_wellFounded`).
-/

set_option autoImplicit false
set_option relaxedAutoImplicit false

namespace Cecore.Library

variable {α : Type}

/-- Trees next to each other: the first one, with its own subtrees, and the others. -/
inductive Forest (α : Type)
  | nil
  | cons (root : α) (children others : Forest α)

namespace Forest

/-- The vertices in pre-order. -/
def labels : Forest α → List α
  | nil => []
  | cons root children others => root :: (labels children ++ labels others)

/-- The roots of the trees. -/
def roots : Forest α → List α
  | nil => []
  | cons root _ others => root :: roots others

def append : Forest α → Forest α → Forest α
  | nil, second => second
  | cons root children others, second => cons root children (append others second)

theorem labels_append (first second : Forest α) :
    (first.append second).labels = first.labels ++ second.labels := by
  induction first with
  | nil => rfl
  | cons root children others _ ih => simp [append, labels, ih]

theorem roots_append (first second : Forest α) :
    (first.append second).roots = first.roots ++ second.roots := by
  induction first with
  | nil => rfl
  | cons root children others _ ih => simp [append, roots, ih]

theorem append_nil (forest : Forest α) : forest.append nil = forest := by
  induction forest with
  | nil => rfl
  | cons root children others _ ih => rw [append, ih]

theorem append_assoc (first second third : Forest α) :
    (first.append second).append third = first.append (second.append third) := by
  induction first with
  | nil => rfl
  | cons root children others _ ih => rw [append, append, append, ih]

/-- Every subtree's root is a successor of the vertex above it. -/
def Follows (next : α → List α) : Forest α → Prop
  | nil => True
  | cons root children others =>
    (∀ child ∈ children.roots, child ∈ next root) ∧ Follows next children ∧ Follows next others

theorem Follows.append {next : α → List α} {first second : Forest α} (hfirst : first.Follows next)
    (hsecond : second.Follows next) : (first.append second).Follows next := by
  induction first with
  | nil => exact hsecond
  | cons root children others _ ih => exact ⟨hfirst.1, hfirst.2.1, ih hfirst.2.2⟩

/-- A vertex of the forest is a root or a successor of another one. -/
theorem Follows.root_or_next {next : α → List α} {forest : Forest α} (h : forest.Follows next) {y : α}
    (hy : y ∈ forest.labels) : y ∈ forest.roots ∨ ∃ x ∈ forest.labels, y ∈ next x := by
  induction forest with
  | nil => cases hy
  | cons root children others ihChildren ihOthers =>
    obtain ⟨hroots, hchildren, hothers⟩ := h
    rcases List.mem_cons.mp hy with rfl | hy
    · exact Or.inl List.mem_cons_self
    · rcases List.mem_append.mp hy with hy | hy
      · refine Or.inr ?_
        rcases ihChildren hchildren hy with hroot | ⟨x, hx, hnext⟩
        · exact ⟨root, List.mem_cons_self, hroots y hroot⟩
        · exact ⟨x, List.mem_cons_of_mem _ (List.mem_append_left _ hx), hnext⟩
      · rcases ihOthers hothers hy with hroot | ⟨x, hx, hnext⟩
        · exact Or.inl (List.mem_cons_of_mem _ hroot)
        · exact Or.inr ⟨x, List.mem_cons_of_mem _ (List.mem_append_right _ hx), hnext⟩

/-- The forest is the unfolding of the graph from the given roots. -/
inductive Unfolds (next : α → List α) : List α → Forest α → Prop
  | nil : Unfolds next [] nil
  | cons {root : α} {others : List α} {children rest : Forest α} :
      Unfolds next (next root) children → Unfolds next others rest →
        Unfolds next (root :: others) (cons root children rest)

end Forest

open Forest

variable [DecidableEq α]

/-! ### The search -/

/-- Visit vertices one behind the other. -/
def searchAll (visit : α → List α → Option (Forest α × List α)) :
    List α → List α → Option (Forest α × List α)
  | [], seen => some (nil, seen)
  | x :: xs, seen =>
    match visit x seen with
    | none => none
    | some (tree, seen) =>
      (searchAll visit xs seen).map fun found ↦ (tree.append found.1, found.2)

omit [DecidableEq α] in
/-- A search that ends goes through the vertices in front first. -/
theorem searchAll_append {visit : α → List α → Option (Forest α × List α)} {xs ys seen seen' : List α}
    {forest : Forest α} (h : searchAll visit (xs ++ ys) seen = some (forest, seen')) :
    ∃ first middle second, searchAll visit xs seen = some (first, middle) ∧
      searchAll visit ys middle = some (second, seen') ∧ forest = first.append second := by
  induction xs generalizing seen forest with
  | nil => exact ⟨nil, seen, forest, rfl, h, rfl⟩
  | cons x xs ih =>
    rw [List.cons_append, searchAll] at h
    cases hx : visit x seen with
    | none =>
      rw [hx] at h
      cases h
    | some found =>
      obtain ⟨tree, next⟩ := found
      rw [hx] at h
      obtain ⟨⟨rest, last⟩, hrest, heq⟩ := Option.map_eq_some_iff.mp h
      cases heq
      obtain ⟨first, middle, second, hfirst, hsecond, rfl⟩ := ih hrest
      refine ⟨tree.append first, middle, second, ?_, hsecond, (append_assoc _ _ _).symm⟩
      rw [searchAll, hx]
      simp [hfirst]

/-- Visit a vertex, with its successors behind it, unless it has been visited; nothing when the
calls are nested too deep. -/
def visit (next : α → List α) : (depth : ℕ) → α → List α → Option (Forest α × List α)
  | 0, _, _ => none
  | depth + 1, x, seen =>
    if x ∈ seen then some (nil, seen)
    else (searchAll (visit next depth) (next x) (x :: seen)).map fun found ↦
      (cons x found.1 nil, found.2)

theorem visit_of_mem {next : α → List α} {x : α} {seen : List α} (h : x ∈ seen) (depth : ℕ) :
    visit next (depth + 1) x seen = some (nil, seen) := by
  rw [visit, if_pos h]

theorem visit_of_not_mem {next : α → List α} {x : α} {seen : List α} (h : x ∉ seen) (depth : ℕ) :
    visit next (depth + 1) x seen =
      (searchAll (visit next depth) (next x) (x :: seen)).map fun found ↦
        (cons x found.1 nil, found.2) := by
  rw [visit, if_neg h]

/-- Nothing new is found where everything has been seen. -/
theorem searchAll_of_seen {next : α → List α} {xs seen : List α} (h : ∀ x ∈ xs, x ∈ seen)
    (depth : ℕ) : searchAll (visit next (depth + 1)) xs seen = some (nil, seen) := by
  induction xs with
  | nil => rfl
  | cons x xs ih =>
    rw [searchAll, visit_of_mem (h x List.mem_cons_self)]
    dsimp only
    rw [ih fun y hy ↦ h y (List.mem_cons_of_mem _ hy)]
    rfl

/-- What a search that ended has done. -/
structure Visited (next : α → List α) (xs seen : List α) (forest : Forest α) (seen' : List α) :
    Prop where
  seen_eq : seen' = forest.labels.reverse ++ seen
  nodup : forest.labels.Nodup
  fresh : ∀ y ∈ forest.labels, y ∉ seen
  covered : ∀ x ∈ xs, x ∈ seen'
  closed : ∀ y ∈ forest.labels, ∀ z ∈ next y, z ∈ seen'
  follows : forest.Follows next
  roots : ∀ y ∈ forest.roots, y ∈ xs

omit [DecidableEq α] in
theorem Visited.mem_iff {next : α → List α} {xs seen seen' : List α} {forest : Forest α}
    (h : Visited next xs seen forest seen') (y : α) : y ∈ seen' ↔ y ∈ forest.labels ∨ y ∈ seen := by
  rw [h.seen_eq, List.mem_append, List.mem_reverse]

omit [DecidableEq α] in
theorem searchAll_visited {next : α → List α} {visit : α → List α → Option (Forest α × List α)}
    (hvisit : ∀ x seen forest seen', visit x seen = some (forest, seen') →
      Visited next [x] seen forest seen')
    {xs seen seen' : List α} {forest : Forest α}
    (h : searchAll visit xs seen = some (forest, seen')) : Visited next xs seen forest seen' := by
  induction xs generalizing seen forest with
  | nil =>
    cases h
    exact ⟨rfl, List.nodup_nil, by simp [labels], by simp, by simp [labels], trivial, by simp [roots]⟩
  | cons x xs ih =>
    rw [searchAll] at h
    cases hfirst : visit x seen with
    | none =>
      rw [hfirst] at h
      cases h
    | some found =>
      obtain ⟨tree, middle⟩ := found
      rw [hfirst] at h
      obtain ⟨⟨rest, last⟩, hrest, heq⟩ := Option.map_eq_some_iff.mp h
      cases heq
      have htree := hvisit x seen tree middle hfirst
      have hothers := ih hrest
      have hmono : ∀ y ∈ middle, y ∈ last := fun y hy ↦ (hothers.mem_iff y).mpr (Or.inr hy)
      refine ⟨?_, ?_, ?_, ?_, ?_, ?_, ?_⟩
      · rw [hothers.seen_eq, htree.seen_eq, labels_append, List.reverse_append, List.append_assoc]
      · rw [labels_append]
        refine List.Nodup.append htree.nodup hothers.nodup fun y hy hy' ↦ ?_
        exact hothers.fresh y hy' ((htree.mem_iff y).mpr (Or.inl hy))
      · intro y hy
        rw [labels_append] at hy
        rcases List.mem_append.mp hy with hy | hy
        · exact htree.fresh y hy
        · exact fun hseen ↦ hothers.fresh y hy ((htree.mem_iff y).mpr (Or.inr hseen))
      · intro y hy
        rcases List.mem_cons.mp hy with rfl | hy
        · exact hmono y (htree.covered y List.mem_cons_self)
        · exact hothers.covered y hy
      · intro y hy z hz
        rw [labels_append] at hy
        rcases List.mem_append.mp hy with hy | hy
        · exact hmono z (htree.closed y hy z hz)
        · exact hothers.closed y hy z hz
      · exact htree.follows.append hothers.follows
      · intro y hy
        rw [roots_append] at hy
        rcases List.mem_append.mp hy with hy | hy
        · exact List.mem_cons.mpr (Or.inl (List.mem_singleton.mp (htree.roots y hy)))
        · exact List.mem_cons_of_mem _ (hothers.roots y hy)

theorem visit_visited {next : α → List α} {depth : ℕ} {x : α} {seen seen' : List α}
    {forest : Forest α} (h : visit next depth x seen = some (forest, seen')) :
    Visited next [x] seen forest seen' := by
  induction depth generalizing x seen forest seen' with
  | zero => cases h
  | succ depth ih =>
    rw [visit] at h
    split_ifs at h with hseen
    · cases h
      refine ⟨rfl, List.nodup_nil, by simp [labels], ?_, by simp [labels], trivial, by simp [roots]⟩
      intro y hy
      rwa [List.mem_singleton.mp hy]
    · obtain ⟨⟨children, last⟩, hchildren, heq⟩ := Option.map_eq_some_iff.mp h
      cases heq
      have hsub := searchAll_visited (fun x seen forest seen' ↦ ih) hchildren
      have hlabels : (cons x children nil).labels = x :: children.labels := by simp [labels]
      refine ⟨?_, ?_, ?_, ?_, ?_, ⟨hsub.roots, hsub.follows, trivial⟩, ?_⟩
      · rw [hsub.seen_eq, hlabels, List.reverse_cons, List.append_assoc, List.singleton_append]
      · rw [hlabels, List.nodup_cons]
        exact ⟨fun hx ↦ hsub.fresh x hx List.mem_cons_self, hsub.nodup⟩
      · intro y hy
        rw [hlabels] at hy
        rcases List.mem_cons.mp hy with rfl | hy
        · exact hseen
        · exact fun hy' ↦ hsub.fresh y hy (List.mem_cons_of_mem _ hy')
      · intro y hy
        rw [List.mem_singleton.mp hy]
        exact (hsub.mem_iff x).mpr (Or.inr List.mem_cons_self)
      · intro y hy z hz
        rw [hlabels] at hy
        rcases List.mem_cons.mp hy with rfl | hy
        · exact hsub.covered z hz
        · exact hsub.closed y hy z hz
      · intro y hy
        simpa [roots] using hy

/-- What a search that ended has done. -/
theorem searchAll_spec {next : α → List α} {depth : ℕ} {xs seen seen' : List α} {forest : Forest α}
    (h : searchAll (visit next depth) xs seen = some (forest, seen')) :
    Visited next xs seen forest seen' :=
  searchAll_visited (fun _ _ _ _ ↦ visit_visited) h

/-! ### Enough depth -/

/-- The vertices that are still to be visited. -/
def unseen (vertices seen : List α) : List α := vertices.filter fun y ↦ decide (y ∉ seen)

theorem unseen_length_le {vertices seen seen' : List α} (h : ∀ y ∈ seen, y ∈ seen') :
    (unseen vertices seen').length ≤ (unseen vertices seen).length := by
  refine (List.monotone_filter_right vertices fun y hy ↦ ?_).length_le
  have hfresh : y ∉ seen' := of_decide_eq_true hy
  exact decide_eq_true fun hseen ↦ hfresh (h y hseen)

theorem unseen_length_lt {vertices seen : List α} {x : α} (hx : x ∈ vertices) (hfresh : x ∉ seen) :
    (unseen vertices (x :: seen)).length < (unseen vertices seen).length := by
  have hsub : (unseen vertices (x :: seen)).Sublist (unseen vertices seen) :=
    List.monotone_filter_right vertices fun y hy ↦
      decide_eq_true fun hseen ↦ of_decide_eq_true hy (List.mem_cons_of_mem _ hseen)
  have hmem : x ∈ unseen vertices seen := List.mem_filter.mpr ⟨hx, decide_eq_true hfresh⟩
  have hgone : x ∉ unseen vertices (x :: seen) := fun h ↦
    of_decide_eq_true (List.mem_filter.mp h).2 List.mem_cons_self
  refine lt_of_le_of_ne hsub.length_le fun hlength ↦ hgone ?_
  rw [hsub.eq_of_length hlength]
  exact hmem

/-- A search ends where more calls may be nested than there are vertices left. -/
theorem searchAll_isSome {next : α → List α} {vertices : List α}
    (hnext : ∀ x, ∀ y ∈ next x, y ∈ vertices) {depth : ℕ} {xs seen : List α}
    (hxs : ∀ x ∈ xs, x ∈ vertices) (hdepth : (unseen vertices seen).length < depth) :
    ∃ forest seen', searchAll (visit next depth) xs seen = some (forest, seen') := by
  induction depth generalizing xs seen with
  | zero => cases hdepth
  | succ depth ih =>
    induction xs generalizing seen with
    | nil => exact ⟨nil, seen, rfl⟩
    | cons x xs ihXs =>
      have hfirst : ∃ tree middle, visit next (depth + 1) x seen = some (tree, middle) := by
        rw [visit]
        split_ifs with hseen
        · exact ⟨nil, seen, rfl⟩
        · have hless := unseen_length_lt (hxs x List.mem_cons_self) hseen
          have hmarked : (unseen vertices (x :: seen)).length < depth := by omega
          obtain ⟨children, last, hchildren⟩ := ih (hnext x) hmarked
          exact ⟨cons x children nil, last, by rw [hchildren]; rfl⟩
      obtain ⟨tree, middle, htree⟩ := hfirst
      have hmono : ∀ y ∈ seen, y ∈ middle := fun y hy ↦
        ((visit_visited htree).mem_iff y).mpr (Or.inr hy)
      obtain ⟨rest, last, hrest⟩ := ihXs (fun y hy ↦ hxs y (List.mem_cons_of_mem _ hy))
        (lt_of_le_of_lt (unseen_length_le hmono) hdepth)
      exact ⟨tree.append rest, last, by rw [searchAll, htree]; simp [hrest]⟩

/-! ### Graphs in which vertices have one predecessor -/

variable {next : α → List α} {parent : α → Option α}

/-- A set of vertices that has the predecessor of each. -/
def UpClosed (parent : α → Option α) (seen : List α) : Prop :=
  ∀ y ∈ seen, ∀ x, parent y = some x → x ∈ seen

omit [DecidableEq α] in
/-- A new vertex has a new predecessor, unless the search began at it. -/
theorem Visited.root_or_parent (hparent : ∀ x, ∀ y ∈ next x, parent y = some x)
    {xs seen seen' : List α} {forest : Forest α} (h : Visited next xs seen forest seen') {y : α}
    (hy : y ∈ forest.labels) : y ∈ xs ∨ ∃ x ∈ forest.labels, parent y = some x := by
  rcases h.follows.root_or_next hy with hroot | ⟨x, hx, hnext⟩
  · exact Or.inl (h.roots y hroot)
  · exact Or.inr ⟨x, hx, hparent x y hnext⟩

omit [DecidableEq α] in
theorem Visited.upClosed (hparent : ∀ x, ∀ y ∈ next x, parent y = some x) {xs seen seen' : List α}
    {forest : Forest α} (h : Visited next xs seen forest seen') (hseen : UpClosed parent seen)
    (hxs : ∀ x ∈ xs, ∀ p, parent x = some p → p ∈ seen) : UpClosed parent seen' := by
  intro y hy p hp
  rw [h.mem_iff] at hy ⊢
  rcases hy with hy | hy
  · rcases h.root_or_parent hparent hy with hroot | ⟨x, hx, hyx⟩
    · exact Or.inr (hxs y hroot p hp)
    · rw [hyx] at hp
      exact Or.inl (Option.some.inj hp ▸ hx)
  · exact Or.inr (hseen y hy p hp)

/-- The search finds the unfolding: it never meets a vertex for the second time. -/
theorem searchAll_unfolds (hparent : ∀ x, ∀ y ∈ next x, parent y = some x)
    (hself : ∀ x, x ∉ next x) (hnodup : ∀ x, (next x).Nodup) {depth : ℕ} {xs seen seen' : List α}
    {forest : Forest α} (h : searchAll (visit next depth) xs seen = some (forest, seen'))
    (hxs : xs.Nodup) (hfresh : ∀ x ∈ xs, x ∉ seen)
    (habove : ∀ x ∈ xs, ∀ p, parent x = some p → p ∈ seen) (hseen : UpClosed parent seen) :
    Unfolds next xs forest := by
  induction depth generalizing xs seen seen' forest with
  | zero =>
    cases xs with
    | nil =>
      cases h
      exact .nil
    | cons x xs => cases h
  | succ depth ih =>
    induction xs generalizing seen forest with
    | nil =>
      cases h
      exact .nil
    | cons x xs ihXs =>
      have hx := hfresh x List.mem_cons_self
      obtain ⟨hxFresh, hxsNodup⟩ := List.nodup_cons.mp hxs
      rw [searchAll, visit, if_neg hx] at h
      cases hchildren : searchAll (visit next depth) (next x) (x :: seen) with
      | none =>
        rw [hchildren] at h
        cases h
      | some found =>
        obtain ⟨children, middle⟩ := found
        rw [hchildren] at h
        obtain ⟨⟨rest, last⟩, hrest, heq⟩ := Option.map_eq_some_iff.mp h
        cases heq
        have hsub := searchAll_spec hchildren
        have habove' : ∀ y ∈ next x, ∀ p, parent y = some p → p ∈ x :: seen := by
          intro y hy p hp
          rw [hparent x y hy] at hp
          exact Option.some.inj hp ▸ List.mem_cons_self
        have hseen' : UpClosed parent (x :: seen) := by
          intro y hy p hp
          rcases List.mem_cons.mp hy with rfl | hy
          · exact List.mem_cons_of_mem _ (habove y List.mem_cons_self p hp)
          · exact List.mem_cons_of_mem _ (hseen y hy p hp)
        have hinner : Unfolds next (next x) children := by
          refine ih hchildren (hnodup x) ?_ habove' hseen'
          intro y hy hyseen
          rcases List.mem_cons.mp hyseen with rfl | hyseen
          · exact hself y hy
          · exact hx (hseen y hyseen x (hparent x y hy))
        refine .cons hinner (ihXs hrest hxsNodup ?_ ?_ (hsub.upClosed hparent hseen' habove'))
        · intro y hy hymiddle
          have hyAbove := habove y (List.mem_cons_of_mem _ hy)
          rcases (hsub.mem_iff y).mp hymiddle with hlabel | hold
          · rcases hsub.root_or_parent hparent hlabel with hroot | ⟨z, hz, hyz⟩
            · exact hx (hyAbove x (hparent x y hroot))
            · exact hsub.fresh z hz (List.mem_cons_of_mem _ (hyAbove z hyz))
          · rcases List.mem_cons.mp hold with rfl | hold
            · exact hxFresh hy
            · exact hfresh y (List.mem_cons_of_mem _ hy) hold
        · intro y hy p hp
          exact (hsub.mem_iff p).mpr
            (Or.inr (List.mem_cons_of_mem _ (habove y (List.mem_cons_of_mem _ hy) p hp)))

omit [DecidableEq α] in
/-- A search from all vertices without a predecessor enters every vertex that has finitely many
predecessors behind each other. -/
theorem Visited.mem_of_wellFounded (hwf : WellFounded fun x y ↦ parent y = some x)
    {vertices xs seen' : List α} {forest : Forest α} (h : Visited next xs [] forest seen')
    (hroots : ∀ y ∈ vertices, parent y = none → y ∈ xs)
    (hparent : ∀ y ∈ vertices, ∀ x, parent y = some x → x ∈ vertices ∧ y ∈ next x) {y : α}
    (hy : y ∈ vertices) : y ∈ forest.labels := by
  induction y using hwf.induction with
  | _ y ih =>
    have hseen : y ∈ seen' := by
      cases hp : parent y with
      | none => exact h.covered y (hroots y hy hp)
      | some x =>
        obtain ⟨hx, hnext⟩ := hparent y hy x hp
        exact h.closed x (ih x hp hx) y hnext
    rcases (h.mem_iff y).mp hseen with hlabel | hold
    · exact hlabel
    · cases hold

end Cecore.Library
