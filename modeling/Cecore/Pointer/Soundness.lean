import Cecore.Pointer.Window

/-!
# Soundness of pointer scans

Every path of a scan leads to the target over the same map, and every offset of it lies in the
window: an item of the search carries a chain that leads from its address to the target, and a
recorded pointer puts one link in front of it. A path is longer than the settings allow only where
they allow no link at all.
-/

set_option autoImplicit false
set_option relaxedAutoImplicit false

namespace Cecore.Pointer

open Library Library.BreadthFirst

/-- A map with one value for a place, none of them null, and modules that their names tell apart. -/
structure PointerMap.Proper (map : PointerMap) : Prop where
  places : map.places.Nodup
  nonzero : ∀ entry ∈ map.byTarget, entry.pointsTo ≠ 0
  names : (map.modules.map ModuleInfo.name).Nodup
  bases : ∀ m ∈ map.modules, m.base ≠ 0

/-- A path that leads to the target over the map, and is within the settings. -/
structure PathSound (map : PointerMap) (config : PointerScanConfig) (path : PointerPath) : Prop where
  resolves : map.resolve path = config.targetAddress
  short : (path.offsets.length : ℤ) ≤ config.maxDepth
  inWindow : ∀ off ∈ path.offsets, InWindow config off

/-- The scan returns, and every path of it is sound. -/
def SoundScan (map : PointerMap) (config : PointerScanConfig) : Prop :=
  ∃ results, scanWithMap map config = some results ∧ ∀ path ∈ results, PathSound map config path

/-- An item whose offsets lead from its address to the target. -/
structure ItemSound (map : PointerMap) (config : PointerScanConfig) (item : WorkItem) : Prop where
  address_lt : item.address < sizeModulus
  depth : item.depth = item.offsets.length
  leads : followOffsets map.valueAt item.address item.offsets = config.targetAddress
  inWindow : ∀ off ∈ item.offsets, InWindow config off
  shallow : item.depth = 0 ∨ (item.depth : ℤ) < config.maxDepth

variable {map : PointerMap} {config : PointerScanConfig}

theorem startItem_sound : ItemSound map config (startItem config) where
  address_lt := config.target_lt
  depth := rfl
  leads := rfl
  inWindow := List.forall_mem_nil _
  shallow := Or.inl rfl

/-- The only item without a link is the one that the search starts with. -/
theorem ItemSound.eq_startItem {item : WorkItem} (h : ItemSound map config item)
    (hdepth : item.depth = 0) : item = startItem config := by
  obtain ⟨address, offsets, depth⟩ := item
  obtain rfl : depth = 0 := hdepth
  obtain rfl : offsets = [] := List.length_eq_zero_iff.mp h.depth.symm
  have haddress : address = config.targetAddress := h.leads
  rw [haddress]
  rfl

section Proper

variable (hmap : map.Proper) (hoffset : 0 ≤ config.maxOffset)
include hmap hoffset

/-- A pointer to an item leads to the target over the item's offsets and its own. -/
theorem ItemSound.leads_from {item : WorkItem} (h : ItemSound map config item) {entry : Entry}
    (hentry : entry ∈ pointersTo map config item.address) :
    followOffsets map.valueAt entry.locatedAt (item.newOffsets entry) = config.targetAddress ∧
      ∀ off ∈ item.newOffsets entry, InWindow config off := by
  obtain ⟨hmem, hwindow⟩ := inWindow_of_mem_pointersTo hoffset hentry
  have hbounds := config.maxOffset_bounds
  have hoff : int32Of (wordOf ((item.address : ℤ) - entry.pointsTo)) =
      (item.address : ℤ) - entry.pointsTo := by
    have hlow : -config.maxOffset ≤ (item.address : ℤ) - entry.pointsTo := by
      refine le_trans ?_ hwindow.1
      split_ifs <;> omega
    exact int32Of_wordOf (by omega) (hwindow.2.trans_lt hbounds.2)
  rw [WorkItem.newOffsets, hoff]
  constructor
  · have hvalue : map.valueAt entry.locatedAt = some entry.pointsTo :=
      PointerMap.valueAt_of_mem hmap.places hmem
    have haddress : wordOf (entry.pointsTo + ((item.address : ℤ) - entry.pointsTo)) = item.address := by
      rw [add_sub_cancel, wordOf_natCast h.address_lt]
    rw [followOffsets, hvalue]
    dsimp only
    rw [if_neg (hmap.nonzero entry hmem), haddress, h.leads]
  · exact List.forall_mem_cons.mpr ⟨hwindow, h.inWindow⟩

theorem ItemSound.child {item : WorkItem} (h : ItemSound map config item) {child : WorkItem}
    (hchild : child ∈ children map config item) : ItemSound map config child := by
  unfold children at hchild
  split_ifs at hchild with hdeep
  · obtain ⟨entry, hentry, rfl⟩ := List.mem_map.mp hchild
    obtain ⟨hleads, hinWindow⟩ := h.leads_from hmap hoffset hentry
    have hmem := (inWindow_of_mem_pointersTo hoffset hentry).1
    exact {
      address_lt := (map.words entry hmem).2
      depth := congrArg (· + 1) h.depth
      leads := hleads
      inWindow := hinWindow
      shallow := Or.inr (by simpa [WorkItem.deeper] using hdeep) }
  · cases hchild

theorem searched_sound : ∀ item ∈ searched map config, ItemSound map config item := by
  refine search_induct (fun item h child hchild ↦ h.child hmap hoffset hchild) fun item hitem ↦ ?_
  rw [List.mem_singleton.mp hitem]
  exact startItem_sound

omit hoffset in
/-- A place in a module is found from the name of the module. -/
theorem resolve_record {item : WorkItem} {entry : Entry} {path : PointerPath}
    (hmem : entry ∈ map.byTarget) (h : record map config item entry = some path) :
    map.resolve path = followOffsets map.valueAt entry.locatedAt (item.newOffsets entry) ∧
      path.offsets = item.newOffsets entry := by
  unfold record at h
  split at h
  · cases h
  · next mod moduleIndex hfind =>
    split_ifs at h
    obtain rfl := Option.some.inj h
    refine ⟨?_, rfl⟩
    have hindex := List.mem_of_find?_eq_some hfind
    have hmodule : mod ∈ map.modules := List.fst_mem_of_mem_zipIdx hindex
    have hbase := PointerMap.moduleBase_of_mem hmap.names hmodule
    have hin := List.find?_some hfind
    rw [Bool.and_eq_true, decide_eq_true_iff, decide_eq_true_iff] at hin
    have hplace : (mod.base + (entry.locatedAt - mod.base)) % sizeModulus = entry.locatedAt := by
      rw [Nat.add_sub_cancel' hin.1, Nat.mod_eq_of_lt (map.words entry hmem).2]
    unfold PointerMap.resolve
    dsimp only
    rw [hbase, if_neg (hmap.bases mod hmodule), hplace]

theorem ItemSound.recorded {item : WorkItem} (h : ItemSound map config item) {path : PointerPath}
    (hpath : path ∈ recorded map config item) : map.resolve path = config.targetAddress ∧
      path.offsets.length = item.depth + 1 ∧ ∀ off ∈ path.offsets, InWindow config off := by
  obtain ⟨entry, hentry, hrecord⟩ := List.mem_filterMap.mp hpath
  have hmem := (inWindow_of_mem_pointersTo hoffset hentry).1
  obtain ⟨hleads, hinWindow⟩ := h.leads_from hmap hoffset hentry
  obtain ⟨hresolve, hoffsets⟩ := resolve_record hmap hmem hrecord
  refine ⟨hresolve.trans hleads, ?_, ?_⟩
  · rw [hoffsets, WorkItem.newOffsets, List.length_cons, h.depth]
  · rwa [hoffsets]

end Proper

/-- The paths of the target are the first that are recorded. -/
theorem recorded_startItem_isPrefix (map : PointerMap) (config : PointerScanConfig) :
    recorded map config (startItem config) <+: (searched map config).flatMap (recorded map config) := by
  rw [searched, search, List.flatMap_cons]
  exact List.prefix_append _ _

/-- A scan is sound exactly if it does not come to a window that runs past the end of the pointers,
and the settings allow a link or no module holds a pointer to the target. -/
theorem soundScan_iff (hmap : map.Proper) (hoffset : 0 ≤ config.maxOffset) :
    SoundScan map config ↔ (config.shardIndex < config.shardCount →
      ¬Overruns map config [] (searched map config) ∧
        (0 < config.maxDepth ∨ recorded map config (startItem config) = [])) := by
  by_cases hshard : config.shardIndex < config.shardCount
  · rw [forall_prop_of_true hshard]
    constructor
    · rintro ⟨results, hscan, hsound⟩
      have hover : ¬Overruns map config [] (searched map config) := by
        rw [← scanWithMap_eq_none hshard, hscan]
        exact Option.some_ne_none results
      rw [scanWithMap_eq hshard hover] at hscan
      obtain rfl := Option.some.inj hscan
      refine ⟨hover, or_iff_not_imp_left.mpr fun hdepth ↦ ?_⟩
      by_contra hpaths
      obtain ⟨path, rest, hfirst⟩ := List.exists_cons_of_ne_nil hpaths
      have hstart : ItemSound map config (startItem config) := startItem_sound
      obtain ⟨-, hlength, -⟩ := hstart.recorded hmap hoffset (hfirst ▸ List.mem_cons_self)
      obtain ⟨others, hothers⟩ := recorded_startItem_isPrefix map config
      have hmem : path ∈ ((searched map config).flatMap (recorded map config)).take kMaxResults := by
        rw [← hothers, hfirst, kMaxResults, List.cons_append, List.take_succ_cons]
        exact List.mem_cons_self
      have hshort := (hsound path hmem).short
      rw [hlength] at hshort
      omega
    · rintro ⟨hover, hdepth⟩
      refine ⟨_, scanWithMap_eq hshard hover, fun path hpath ↦ ?_⟩
      obtain ⟨item, hitem, hrecorded⟩ := List.mem_flatMap.mp (List.mem_of_mem_take hpath)
      have hsound := searched_sound hmap hoffset item hitem
      obtain ⟨hresolves, hlength, hinWindow⟩ := hsound.recorded hmap hoffset hrecorded
      refine ⟨hresolves, ?_, hinWindow⟩
      rcases hsound.shallow with hroot | hshallow
      · rcases hdepth with hdepth | hnone
        · omega
        · rw [hsound.eq_startItem hroot, hnone] at hrecorded
          cases hrecorded
      · omega
  · rw [forall_prop_of_false hshard, iff_true]
    refine ⟨[], ?_, List.forall_mem_nil _⟩
    rw [scanWithMap, if_pos (Or.inr (not_lt.mp hshard))]

/-! ### A scan of two pointers -/

/-- A pointer in a module, to a pointer outside. -/
def gameMap : PointerMap where
  byTarget := [⟨0x500010, 0x400020⟩, ⟨0x600000, 0x500018⟩]
  byLocated := [0, 1]
  modules := [⟨0x400000, 0x1000, "game".toList, "/opt/game".toList⟩]
  sortedByTarget := by decide
  indices := by decide
  sortedByLocated := by decide
  words := by decide
  fits := by decide

theorem gameMap_proper : gameMap.Proper where
  places := by decide
  nonzero := by decide
  names := by decide
  bases := by decide

theorem gameMap_sound : SoundScan gameMap { targetAddress := 0x600008, negativeOffsets := true } := by
  refine (soundScan_iff gameMap_proper (by decide)).mpr fun hshard ↦ ⟨?_, Or.inl (by decide)⟩
  rw [← scanWithMap_eq_none hshard]
  decide

theorem defaultOffset_bounds : -(2 ^ 31) ≤ (2048 : ℤ) ∧ (2048 : ℤ) < 2 ^ 31 := by decide

/-- A scan for the last address. -/
def topScan : PointerScanConfig where
  targetAddress := 2 ^ 64 - 1
  negativeOffsets := true
  maxOffset_bounds := defaultOffset_bounds

/-- The lower end of a window is kept from wrapping around, the upper end is not: it lies in front
of the pointers, and the loop runs past their end. -/
theorem topScan_not_sound : gameMap.Proper ∧ 0 ≤ topScan.maxOffset ∧ ¬SoundScan gameMap topScan := by
  refine ⟨gameMap_proper, by decide, ?_⟩
  rintro ⟨results, hscan, -⟩
  have hover : scanWithMap gameMap topScan = none := by decide
  rw [hover] at hscan
  cases hscan

end Cecore.Pointer
