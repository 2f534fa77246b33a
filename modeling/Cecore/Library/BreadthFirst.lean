import Cecore.Library.Forest

/-!
# Breadth-first search

A search takes items from the front of a queue and puts their children behind it, each key only
once. Every key that is some number of links away from the root is found, at no greater depth
(`exists_mem_search`), although children with a key seen before are dropped: the queue is ordered by
depth, so that the first item of a key is the one of least depth.
-/

set_option autoImplicit false
set_option relaxedAutoImplicit false

namespace Cecore.Library.BreadthFirst

variable {ι κ : Type} [DecidableEq κ]

/-! ### The search -/

/-- The items whose keys are new, each key once, and the keys that are known then. -/
def enqueue (key : ι → κ) : (items : List ι) → (visited : List κ) → List ι × List κ
  | [], visited => ([], visited)
  | item :: rest, visited =>
    if key item ∈ visited then enqueue key rest visited
    else
      let found := enqueue key rest (key item :: visited)
      (item :: found.1, found.2)

/-- The items in the order in which they are taken from the queue. -/
def search (key : ι → κ) (children : ι → List ι) :
    (turns : ℕ) → (queue : List ι) → (visited : List κ) → List ι
  | 0, _, _ => []
  | _ + 1, [], _ => []
  | turns + 1, item :: queue, visited =>
    let found := enqueue key (children item) visited
    item :: search key children turns (queue ++ found.1) found.2

variable {key : ι → κ} {children : ι → List ι}

theorem mem_of_mem_enqueue {items : List ι} {visited : List κ} {item : ι}
    (h : item ∈ (enqueue key items visited).1) : item ∈ items := by
  induction items generalizing visited with
  | nil => exact h
  | cons first rest ih =>
    rw [enqueue] at h
    split_ifs at h
    · exact List.mem_cons_of_mem _ (ih h)
    · rcases List.mem_cons.mp h with rfl | h
      · exact List.mem_cons_self
      · exact List.mem_cons_of_mem _ (ih h)

/-- The known keys are those of before and those of the new items. -/
theorem mem_visited_enqueue {items : List ι} {visited : List κ} {k : κ} :
    k ∈ (enqueue key items visited).2 ↔
      k ∈ visited ∨ ∃ item ∈ (enqueue key items visited).1, key item = k := by
  induction items generalizing visited with
  | nil => simp [enqueue]
  | cons first rest ih =>
    rw [enqueue]
    split_ifs
    · exact ih
    · rw [ih]
      simp only [List.mem_cons, exists_eq_or_imp]
      constructor
      · rintro ((rfl | h) | h)
        · exact Or.inr (Or.inl rfl)
        · exact Or.inl h
        · exact Or.inr (Or.inr h)
      · rintro (h | rfl | h)
        · exact Or.inl (Or.inr h)
        · exact Or.inl (Or.inl rfl)
        · exact Or.inr h

theorem key_mem_enqueue {items : List ι} (visited : List κ) {item : ι} (h : item ∈ items) :
    key item ∈ (enqueue key items visited).2 := by
  induction items generalizing visited with
  | nil => cases h
  | cons first rest ih =>
    rw [enqueue]
    split_ifs with hseen
    · rcases List.mem_cons.mp h with rfl | h
      · exact mem_visited_enqueue.mpr (Or.inl hseen)
      · exact ih _ h
    · rcases List.mem_cons.mp h with rfl | h
      · exact mem_visited_enqueue.mpr (Or.inl List.mem_cons_self)
      · exact ih _ h

/-- Every new item takes a key from those not known. -/
theorem length_enqueue {keys : List κ} {items : List ι} (h : ∀ item ∈ items, key item ∈ keys)
    (visited : List κ) :
    (enqueue key items visited).1.length + (unseen keys (enqueue key items visited).2).length ≤
      (unseen keys visited).length := by
  induction items generalizing visited with
  | nil => simp [enqueue]
  | cons first rest ih =>
    obtain ⟨hfirst, hrest⟩ := List.forall_mem_cons.mp h
    rw [enqueue]
    split_ifs with hseen
    · exact ih hrest visited
    · have hless := unseen_length_lt hfirst hseen
      have hothers := ih hrest (key first :: visited)
      dsimp only
      rw [List.length_cons]
      omega

/-! ### What is found -/

/-- What holds of the queue and is handed down to children holds of every item that is found. -/
theorem search_induct {P : ι → Prop} (hchildren : ∀ item, P item → ∀ child ∈ children item, P child)
    {turns : ℕ} {queue : List ι} {visited : List κ} (hqueue : ∀ item ∈ queue, P item) :
    ∀ item ∈ search key children turns queue visited, P item := by
  induction turns generalizing queue visited with
  | zero => exact List.forall_mem_nil _
  | succ turns ih =>
    cases queue with
    | nil => exact List.forall_mem_nil _
    | cons first queue =>
      obtain ⟨hfirst, hrest⟩ := List.forall_mem_cons.mp hqueue
      refine List.forall_mem_cons.mpr ⟨hfirst, ih (List.forall_mem_append.mpr ⟨hrest, ?_⟩)⟩
      exact fun child hchild ↦ hchildren first hfirst child (mem_of_mem_enqueue hchild)

section Turns

variable {keys : List κ} (hkeys : ∀ item, ∀ child ∈ children item, key child ∈ keys)
include hkeys

/-- The turns that are needed go down by one with each turn. -/
theorem turns_enqueue {turns : ℕ} {item : ι} {queue : List ι} {visited : List κ}
    (hturns : (item :: queue).length + (unseen keys visited).length ≤ turns + 1) :
    (queue ++ (enqueue key (children item) visited).1).length +
      (unseen keys (enqueue key (children item) visited).2).length ≤ turns := by
  have hless := length_enqueue (hkeys item) visited
  rw [List.length_cons] at hturns
  rw [List.length_append]
  omega

/-- With enough turns the whole queue is taken. -/
theorem mem_search_of_mem_queue {turns : ℕ} {queue : List ι} {visited : List κ}
    (hturns : queue.length + (unseen keys visited).length ≤ turns) {item : ι} (h : item ∈ queue) :
    item ∈ search key children turns queue visited := by
  induction turns generalizing queue visited with
  | zero =>
    have hnil : queue = [] := List.length_eq_zero_iff.mp (by omega)
    rw [hnil] at h
    cases h
  | succ turns ih =>
    cases queue with
    | nil => cases h
    | cons first queue =>
      rcases List.mem_cons.mp h with rfl | h
      · exact List.mem_cons_self
      · exact List.mem_cons_of_mem _
          (ih (turns_enqueue hkeys hturns) (List.mem_append_left _ h))

variable {depth : ι → ℕ} (hdepth : ∀ item, ∀ child ∈ children item, depth child = depth item + 1)
include hdepth

/-- A queue with the items taken before it: the keys are theirs, and no item is deeper than one that
follows, nor by more than one deeper than one of the queue. -/
structure Ordered (key : ι → κ) (depth : ι → ℕ) (done queue : List ι) (visited : List κ) : Prop where
  known : ∀ k ∈ visited, ∃ item ∈ done ++ queue, key item = k
  sorted : queue.Pairwise fun first second ↦ depth first ≤ depth second
  done_le : ∀ item ∈ done, ∀ later ∈ queue, depth item ≤ depth later
  near : ∀ item ∈ queue, ∀ later ∈ queue, depth later ≤ depth item + 1

omit hkeys in
theorem Ordered.next {done queue : List ι} {item : ι} {visited : List κ}
    (h : Ordered key depth done (item :: queue) visited) :
    Ordered key depth (done ++ [item]) (queue ++ (enqueue key (children item) visited).1)
      (enqueue key (children item) visited).2 where
  known := by
    intro k hk
    rcases mem_visited_enqueue.mp hk with hk | ⟨child, hchild, rfl⟩
    · obtain ⟨found, hfound, rfl⟩ := h.known k hk
      refine ⟨found, ?_, rfl⟩
      simp only [List.mem_append, List.mem_cons, List.not_mem_nil, or_false] at hfound ⊢
      rcases hfound with hfound | hfound | hfound
      · exact Or.inl (Or.inl hfound)
      · exact Or.inl (Or.inr hfound)
      · exact Or.inr (Or.inl hfound)
    · exact ⟨child, by simp [hchild], rfl⟩
  sorted := by
    obtain ⟨-, hqueue⟩ := List.pairwise_cons.mp h.sorted
    refine List.pairwise_append.mpr ⟨hqueue, ?_, fun first hfirst second hsecond ↦ ?_⟩
    · refine List.pairwise_of_forall_mem_list fun first hfirst second hsecond ↦ ?_
      rw [hdepth item _ (mem_of_mem_enqueue hfirst), hdepth item _ (mem_of_mem_enqueue hsecond)]
    · rw [hdepth item _ (mem_of_mem_enqueue hsecond)]
      exact h.near item List.mem_cons_self first (List.mem_cons_of_mem _ hfirst)
  done_le := by
    have hitem : ∀ earlier ∈ done ++ [item], depth earlier ≤ depth item := by
      intro earlier hearlier
      rcases List.mem_append.mp hearlier with hearlier | hearlier
      · exact h.done_le earlier hearlier item List.mem_cons_self
      · rw [List.mem_singleton.mp hearlier]
    intro earlier hearlier later hlater
    refine (hitem earlier hearlier).trans ?_
    rcases List.mem_append.mp hlater with hlater | hlater
    · exact (List.pairwise_cons.mp h.sorted).1 later hlater
    · rw [hdepth item _ (mem_of_mem_enqueue hlater)]
      exact Nat.le_succ _
  near := by
    have hlow : ∀ other ∈ queue ++ (enqueue key (children item) visited).1,
        depth item ≤ depth other := by
      intro other hother
      rcases List.mem_append.mp hother with hother | hother
      · exact (List.pairwise_cons.mp h.sorted).1 other hother
      · rw [hdepth item _ (mem_of_mem_enqueue hother)]
        exact Nat.le_succ _
    have hhigh : ∀ other ∈ queue ++ (enqueue key (children item) visited).1,
        depth other ≤ depth item + 1 := by
      intro other hother
      rcases List.mem_append.mp hother with hother | hother
      · exact h.near item List.mem_cons_self other (List.mem_cons_of_mem _ hother)
      · exact (hdepth item _ (mem_of_mem_enqueue hother)).le
    exact fun other hother later hlater ↦
      (hhigh later hlater).trans (Nat.succ_le_succ (hlow other hother))

/-- A child's key is found, one level below its parent or higher. -/
theorem exists_mem_search_of_child {turns : ℕ} {done queue : List ι} {visited : List κ}
    (hturns : queue.length + (unseen keys visited).length ≤ turns)
    (hordered : Ordered key depth done queue visited) {item child : ι}
    (hitem : item ∈ search key children turns queue visited) (hchild : child ∈ children item) :
    ∃ found ∈ done ++ search key children turns queue visited,
      key found = key child ∧ depth found ≤ depth item + 1 := by
  induction turns generalizing done queue visited with
  | zero => cases hitem
  | succ turns ih =>
    cases queue with
    | nil => cases hitem
    | cons first queue =>
      have hturns' := turns_enqueue hkeys hturns
      have hnext := hordered.next hdepth
      rw [search] at hitem ⊢
      rcases List.mem_cons.mp hitem with rfl | hitem
      · obtain ⟨found, hfound, hkey⟩ := hnext.known _ (key_mem_enqueue visited hchild)
        refine ⟨found, ?_, hkey, ?_⟩
        · simp only [List.mem_append, List.mem_cons, List.not_mem_nil, or_false] at hfound ⊢
          rcases hfound with (hfound | rfl) | hfound
          · exact Or.inl hfound
          · exact Or.inr (Or.inl rfl)
          · exact Or.inr (Or.inr (mem_search_of_mem_queue hkeys hturns' (List.mem_append.mpr hfound)))
        · simp only [List.mem_append, List.mem_cons, List.not_mem_nil, or_false] at hfound
          rcases hfound with (hfound | rfl) | hfound | hfound
          · exact (hordered.done_le found hfound item List.mem_cons_self).trans (Nat.le_succ _)
          · exact Nat.le_succ _
          · exact hordered.near item List.mem_cons_self found (List.mem_cons_of_mem _ hfound)
          · exact (hdepth item _ (mem_of_mem_enqueue hfound)).le
      · obtain ⟨found, hfound, hkey⟩ := ih hturns' hnext hitem
        refine ⟨found, ?_, hkey⟩
        simpa [or_assoc] using hfound

end Turns

/-! ### Distances -/

/-- `k` is `n` links away from the root. -/
inductive Away (link : κ → κ → Prop) (root : κ) : ℕ → κ → Prop
  | root : Away link root 0 root
  | step {n : ℕ} {k next : κ} : Away link root n k → link k next → Away link root (n + 1) next

/-- Every key less than `bound` links away is found at no greater depth, where an item above the
bound has a child for each link. -/
theorem exists_mem_search {keys : List κ}
    (hkeys : ∀ item, ∀ child ∈ children item, key child ∈ keys) {depth : ι → ℕ}
    (hdepth : ∀ item, ∀ child ∈ children item, depth child = depth item + 1) {link : κ → κ → Prop}
    {bound : ℕ} (hlink : ∀ item next, depth item + 1 < bound → link (key item) next →
      ∃ child ∈ children item, key child = next)
    {root : ι} (hroot : depth root = 0) {turns : ℕ}
    (hturns : 1 + (unseen keys [key root]).length ≤ turns) {n : ℕ} {k : κ}
    (haway : Away link (key root) n k) (hn : n = 0 ∨ n < bound) :
    ∃ item ∈ search key children turns [root] [key root], key item = k ∧ depth item ≤ n := by
  induction haway with
  | root =>
    exact ⟨root, mem_search_of_mem_queue hkeys hturns List.mem_cons_self, rfl, hroot.le⟩
  | @step n k next _ hnext ih =>
    have hbound : n + 1 < bound := by omega
    obtain ⟨item, hitem, rfl, hle⟩ := ih (by omega)
    obtain ⟨child, hchild, rfl⟩ := hlink item next (by omega) hnext
    have hordered : Ordered key depth [] [root] [key root] := {
      known := fun k hk ↦ ⟨root, List.mem_cons_self, (List.mem_singleton.mp hk).symm⟩
      sorted := List.pairwise_singleton _ _
      done_le := List.forall_mem_nil _
      near := fun item hitem later hlater ↦ by
        rw [List.mem_singleton.mp hitem, List.mem_singleton.mp hlater]
        exact Nat.le_succ _ }
    obtain ⟨found, hfound, hkey, hdeep⟩ :=
      exists_mem_search_of_child hkeys hdepth hturns hordered hitem hchild
    exact ⟨found, hfound, hkey, by omega⟩

end Cecore.Library.BreadthFirst
