import Cecore.Pointer.Soundness

/-!
# Sharded pointer scans

Shards search the same items and record, of the places they find, those in modules of their own: the
paths of the shards are the classes of the paths of the whole scan by the index of the module, so
that they are disjoint and together make up the result of the whole scan (`shards_perm`).
-/

set_option autoImplicit false
set_option relaxedAutoImplicit false

namespace Cecore.Pointer

open Library Library.BreadthFirst

/-! ### Classes of a list -/

section Classes

variable {α : Type} (f : α → ℕ) (l : List α)

/-- The elements of each class below `n`. -/
def classes (n : ℕ) : List (List α) := (List.range n).map fun i ↦ l.filter fun x ↦ decide (f x = i)

theorem classes_flatten_perm (n : ℕ) :
    (classes f l n).flatten.Perm (l.filter fun x ↦ decide (f x < n)) := by
  induction n with
  | zero => simp [classes]
  | succ n ih =>
    have hsplit : (classes f l (n + 1)).flatten =
        (classes f l n).flatten ++ l.filter fun x ↦ decide (f x = n) := by
      simp [classes, List.range_succ]
    have hbelow : l.filter (fun x ↦ decide (f x < n)) =
        (l.filter fun x ↦ decide (f x < n + 1)).filter fun x ↦ decide (f x < n) := by
      rw [List.filter_filter]
      refine List.filter_congr fun x _ ↦ ?_
      rw [← Bool.decide_and, decide_eq_decide]
      omega
    have hlast : l.filter (fun x ↦ decide (f x = n)) =
        (l.filter fun x ↦ decide (f x < n + 1)).filter fun x ↦ !decide (f x < n) := by
      rw [List.filter_filter]
      refine List.filter_congr fun x _ ↦ ?_
      rw [← decide_not, ← Bool.decide_and, decide_eq_decide]
      omega
    rw [hsplit]
    refine (ih.append_right _).trans ?_
    rw [hbelow, hlast]
    exact List.filter_append_perm _ _

theorem classes_pairwise_disjoint (n : ℕ) : (classes f l n).Pairwise List.Disjoint := by
  rw [classes, List.pairwise_map]
  refine List.pairwise_lt_range.imp fun {i j} hlt x hi hj ↦ ?_
  have hfirst := of_decide_eq_true (List.mem_filter.mp hi).2
  have hsecond := of_decide_eq_true (List.mem_filter.mp hj).2
  omega

end Classes

/-! ### The shards of a scan -/

variable {map : PointerMap} {config : PointerScanConfig}

/-- The settings of the whole scan. -/
def unsharded (config : PointerScanConfig) : PointerScanConfig :=
  { config with shardIndex := 0, shardCount := 1 }

/-- The settings of one shard. -/
def shard (config : PointerScanConfig) (shardCount shardIndex : ℕ) : PointerScanConfig :=
  { config with shardIndex := shardIndex, shardCount := shardCount }

/-- The index of the module that a path is in. -/
def moduleIndexOf (map : PointerMap) (path : PointerPath) : ℕ :=
  ((findModule map.modules (path.moduleBase + path.baseOffset)).map Prod.snd).getD 0

/-- A shard records a path of the whole scan where it owns the module. -/
theorem record_shard {shardCount shardIndex : ℕ} (hshard : shardIndex < shardCount) (item : WorkItem)
    (entry : Entry) : record map (shard config shardCount shardIndex) item entry =
      (record map (unsharded config) item entry).filter fun path ↦
        decide (moduleIndexOf map path % shardCount = shardIndex) := by
  unfold record
  cases hfind : findModule map.modules entry.locatedAt with
  | none => rfl
  | some found =>
    obtain ⟨m, moduleIndex⟩ := found
    have hin := List.find?_some hfind
    rw [Bool.and_eq_true, decide_eq_true_iff, decide_eq_true_iff] at hin
    have hindex : moduleIndexOf map ⟨m.name, m.base, entry.locatedAt - m.base, item.newOffsets entry⟩ =
        moduleIndex := by
      have hplace : m.base + (entry.locatedAt - m.base) = entry.locatedAt := Nat.add_sub_cancel' hin.1
      simp only [moduleIndexOf, hplace, hfind, Option.map_some, Option.getD_some]
    have hwhole : ownedByShard (unsharded config) moduleIndex = true := rfl
    have howned : ownedByShard (shard config shardCount shardIndex) moduleIndex =
        decide (moduleIndex % shardCount = shardIndex) := by
      change (decide (shardCount ≤ 1) || decide (moduleIndex % shardCount = shardIndex)) = _
      by_cases hone : shardCount ≤ 1
      · obtain rfl : shardCount = 1 := by omega
        obtain rfl : shardIndex = 0 := by omega
        simp [Nat.mod_one]
      · simp [hone]
    dsimp only
    rw [hwhole, if_pos rfl, howned, Option.filter_some, hindex]

theorem recorded_shard {shardCount shardIndex : ℕ} (hshard : shardIndex < shardCount)
    (item : WorkItem) :
    recorded map (shard config shardCount shardIndex) item =
      (recorded map (unsharded config) item).filter fun path ↦
        decide (moduleIndexOf map path % shardCount = shardIndex) := by
  rw [recorded, recorded, List.filter_filterMap]
  exact List.filterMap_congr fun entry _ ↦ record_shard hshard item entry

/-- Every shard searches the same items. -/
theorem searched_shard (shardCount shardIndex : ℕ) :
    searched map (shard config shardCount shardIndex) = searched map (unsharded config) := rfl

theorem flatMap_recorded_shard {shardCount shardIndex : ℕ} (hshard : shardIndex < shardCount)
    (items : List WorkItem) : items.flatMap (recorded map (shard config shardCount shardIndex)) =
      (items.flatMap (recorded map (unsharded config))).filter fun path ↦
        decide (moduleIndexOf map path % shardCount = shardIndex) := by
  rw [List.filter_flatMap]
  exact List.flatMap_congr fun item _ ↦ recorded_shard hshard item

/-- The paths of a shard are those of the whole scan in modules that it owns. -/
theorem scanWithMap_shard {results : List PointerPath}
    (hscan : scanWithMap map (unsharded config) = some results) (hcap : results.length < kMaxResults)
    {shardCount shardIndex : ℕ} (hshard : shardIndex < shardCount) :
    scanWithMap map (shard config shardCount shardIndex) = some (results.filter fun path ↦
      decide (moduleIndexOf map path % shardCount = shardIndex)) := by
  have hresults := eq_flatMap_of_scanWithMap (show (0 : ℕ) < 1 from Nat.zero_lt_one) hscan hcap
  have hnone := mt (scanWithMap_eq_none (show (0 : ℕ) < 1 from Nat.zero_lt_one)).mpr
    (hscan ▸ Option.some_ne_none results)
  have hover : ¬Overruns map (shard config shardCount shardIndex) []
      (searched map (shard config shardCount shardIndex)) := by
    rintro ⟨front, item, back, hitems, -, hwindow⟩
    refine hnone ⟨front, item, back, hitems, ?_, hwindow⟩
    refine lt_of_le_of_lt ?_ hcap
    rw [hresults, ← searched_shard shardCount shardIndex, hitems, List.flatMap_append]
    exact (List.prefix_append _ _).length_le
  rw [scanWithMap_eq hshard hover, searched_shard, flatMap_recorded_shard hshard, ← hresults,
    List.take_of_length_le ((List.length_filter_le _ _).trans hcap.le)]

/-- The results of the shards are pairwise disjoint, and together they are the result of the whole
scan. -/
theorem shards_perm {results : List PointerPath}
    (hscan : scanWithMap map (unsharded config) = some results) (hcap : results.length < kMaxResults)
    {shardCount : ℕ} (hcount : 1 ≤ shardCount) :
    ∃ (shards : List PointerScanConfig) (parts : List (List PointerPath)),
      makePointerScanShards config shardCount = some shards ∧ shards.map (scanWithMap map) = parts.map some ∧ parts.Pairwise List.Disjoint ∧
        parts.flatten.Perm results := by
  refine ⟨(List.range shardCount).map (shard config shardCount),
    classes (fun path ↦ moduleIndexOf map path % shardCount) results shardCount,
    if_neg (Nat.pos_iff_ne_zero.mp hcount), ?_, classes_pairwise_disjoint _ _ _,
    (classes_flatten_perm _ _ _).trans ?_⟩
  · rw [classes, List.map_map, List.map_map]
    refine List.map_congr_left fun i hi ↦ ?_
    exact scanWithMap_shard hscan hcap (List.mem_range.mp hi)
  · rw [List.filter_eq_self.mpr fun path _ ↦ decide_eq_true (Nat.mod_lt _ hcount)]

theorem gameMap_shards_perm :
    ∃ (shards : List PointerScanConfig) (parts : List (List PointerPath)), makePointerScanShards { targetAddress := 0x600008, maxOffset := 0x100 } 3 = some shards ∧
      shards.map (scanWithMap gameMap) = parts.map some ∧ parts.Pairwise List.Disjoint ∧
        parts.flatten.Perm [⟨"game".toList, 0x400000, 0x20, [8, 8]⟩] :=
  shards_perm (show scanWithMap gameMap (unsharded { targetAddress := 0x600008, maxOffset := 0x100 }) =
    some [⟨"game".toList, 0x400000, 0x20, [8, 8]⟩] by decide) (by decide) (by decide)

end Cecore.Pointer
