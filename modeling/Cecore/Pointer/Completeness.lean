import Cecore.Pointer.Soundness

/-!
# Completeness of pointer scans

Every place in a module of the shard from which a chain of pointers leads to the target is the base
of a path, where the scan stays below the cap. Addresses seen before are not searched again, but the
first visit of an address is the one with the fewest links, and places are recorded at every visit.
-/

set_option autoImplicit false
set_option relaxedAutoImplicit false

namespace Cecore.Pointer

open Library Library.BreadthFirst

variable {map : PointerMap} {config : PointerScanConfig}

/-- The upper end of the window of an address does not wrap around. -/
def Unwrapped (config : PointerScanConfig) (address : ℕ) : Prop :=
  config.negativeOffsets = true → address + wordOf config.maxOffset < sizeModulus

/-- A pointer at the location, from whose value an offset of the window leads to the address. -/
def Link (map : PointerMap) (config : PointerScanConfig) (address location : ℕ) : Prop :=
  Unwrapped config address ∧
    ∃ entry ∈ map.byTarget, entry.locatedAt = location ∧
      InWindow config ((address : ℤ) - entry.pointsTo)

/-- A chain of `n` pointers from the location to the target, over addresses whose windows do not
wrap around. -/
def Chain (map : PointerMap) (config : PointerScanConfig) (n : ℕ) (location : ℕ) : Prop :=
  Away (Link map config) config.targetAddress n location

/-- The result has a path with the location as its base, in the module that the location is found
in. -/
def HasBase (results : List PointerPath) (m : ModuleInfo) (location : ℕ) : Prop :=
  ∃ path ∈ results, path.module = m.name ∧ path.moduleBase = m.base ∧
    path.moduleBase + path.baseOffset = location

theorem link_iff (hoffset : 0 ≤ config.maxOffset) {address location : ℕ}
    (hwrap : Unwrapped config address) : Link map config address location ↔
      ∃ entry ∈ pointersTo map config address, entry.locatedAt = location := by
  simp only [Link, mem_pointersTo hoffset hwrap]
  constructor
  · rintro ⟨-, entry, hmem, hlocated, hwindow⟩
    exact ⟨entry, ⟨hmem, hwindow⟩, hlocated⟩
  · rintro ⟨entry, ⟨hmem, hwindow⟩, hlocated⟩
    exact ⟨hwrap, entry, hmem, hlocated, hwindow⟩

/-- An address to which a chain leads is searched, with no more links than the chain. -/
theorem exists_mem_searched (hoffset : 0 ≤ config.maxOffset) {n address : ℕ}
    (hchain : Chain map config n address) (hn : n = 0 ∨ (n : ℤ) < config.maxDepth) :
    ∃ item ∈ searched map config, item.address = address ∧ item.depth ≤ n := by
  have hplaces : ∀ item, ∀ child ∈ children map config item, child.address ∈ map.places :=
    fun _ _ ↦ mem_places_of_mem_children
  have hdepth : ∀ item, ∀ child ∈ children map config item, child.depth = item.depth + 1 := by
    intro item child hchild
    unfold children at hchild
    split_ifs at hchild
    · obtain ⟨entry, -, rfl⟩ := List.mem_map.mp hchild
      rfl
    · cases hchild
  have hlink : ∀ item next, item.depth + 1 < config.maxDepth.toNat →
      Link map config item.address next → ∃ child ∈ children map config item, child.address = next := by
    intro item next hdeep hlink
    obtain ⟨entry, hentry, rfl⟩ := (link_iff hoffset hlink.1).mp hlink
    refine ⟨item.deeper entry, ?_, rfl⟩
    rw [children, if_pos (by omega)]
    exact List.mem_map_of_mem hentry
  exact exists_mem_search hplaces hdepth hlink rfl (turns_searched map config.targetAddress) hchain
    (hn.imp_right fun hlt ↦ by omega)

/-- A place in a module of the shard from which a chain of pointers leads to the target is the base
of a path of the scan. -/
theorem hasBase_of_chain (hoffset : 0 ≤ config.maxOffset)
    (hshard : config.shardIndex < config.shardCount)
    {results : List PointerPath} (hscan : scanWithMap map config = some results)
    (hcap : results.length < kMaxResults) {location : ℕ} {m : ModuleInfo} {moduleIndex : ℕ}
    (hmodule : findModule map.modules location = some (m, moduleIndex))
    (howned : ownedByShard config moduleIndex = true) {n : ℕ} (hn : 0 < n)
    (hdepth : (n : ℤ) ≤ config.maxDepth) (hchain : Chain map config n location) :
    HasBase results m location := by
  cases hchain with
  | root => exact absurd hn (lt_irrefl 0)
  | @step n address _ hchain hlink =>
    obtain ⟨item, hitem, rfl, -⟩ := exists_mem_searched hoffset hchain (by omega)
    obtain ⟨entry, hentry, rfl⟩ := (link_iff hoffset hlink.1).mp hlink
    have hin := List.find?_some hmodule
    rw [Bool.and_eq_true, decide_eq_true_iff, decide_eq_true_iff] at hin
    have hrecord : record map config item entry =
        some ⟨m.name, m.base, entry.locatedAt - m.base, item.newOffsets entry⟩ := by
      unfold record
      rw [hmodule]
      exact if_pos howned
    refine ⟨⟨m.name, m.base, entry.locatedAt - m.base, item.newOffsets entry⟩, ?_, rfl, rfl,
      Nat.add_sub_cancel' hin.1⟩
    rw [eq_flatMap_of_scanWithMap hshard hscan hcap]
    exact List.mem_flatMap.mpr ⟨item, hitem, List.mem_filterMap.mpr ⟨entry, hentry, hrecord⟩⟩

/-! ### A chain of two pointers -/

/-- A scan of one of two shards for the target of the chain of `gameMap`. -/
def shardOfTwo (shardIndex : ℕ) : PointerScanConfig :=
  { targetAddress := 0x600008, shardIndex := shardIndex, shardCount := 2 }

theorem gameMap_chain (shardIndex : ℕ) : Chain gameMap (shardOfTwo shardIndex) 2 0x400020 := by
  have hinner : Link gameMap (shardOfTwo shardIndex) 0x600008 0x500018 :=
    ⟨(fun hnegative ↦ nomatch hnegative), ⟨0x600000, 0x500018⟩, by decide, rfl,
      show (0 : ℤ) ≤ 8 by decide, show (8 : ℤ) ≤ 2048 by decide⟩
  have houter : Link gameMap (shardOfTwo shardIndex) 0x500018 0x400020 :=
    ⟨(fun hnegative ↦ nomatch hnegative), ⟨0x500010, 0x400020⟩, by decide, rfl,
      show (0 : ℤ) ≤ 8 by decide, show (8 : ℤ) ≤ 2048 by decide⟩
  exact Away.step (Away.step Away.root hinner) houter

theorem gameMap_hasBase : HasBase [⟨"game".toList, 0x400000, 0x20, [8, 8]⟩]
    ⟨0x400000, 0x1000, "game".toList, "/opt/game".toList⟩ 0x400020 :=
  hasBase_of_chain (by decide) (by decide)
    (show scanWithMap gameMap (shardOfTwo 0) = some [⟨"game".toList, 0x400000, 0x20, [8, 8]⟩] by decide)
    (by decide) (show findModule gameMap.modules 0x400020 = some (_, 0) by decide) (by decide)
    Nat.zero_lt_two (by decide) (gameMap_chain 0)

/-- The other shard searches the same chain, and leaves the place in the module to the first one. -/
theorem gameMap_not_hasBase : ¬∀ results, scanWithMap gameMap (shardOfTwo 1) = some results →
    results.length < kMaxResults → ∀ location m moduleIndex (n : ℕ),
      findModule gameMap.modules location = some (m, moduleIndex) → 0 < n →
        (n : ℤ) ≤ (shardOfTwo 1).maxDepth → Chain gameMap (shardOfTwo 1) n location →
          HasBase results m location := by
  intro hcomplete
  obtain ⟨path, hpath, -⟩ := hcomplete [] (by decide) (by decide) 0x400020
    ⟨0x400000, 0x1000, "game".toList, "/opt/game".toList⟩ 0 2 (by decide) Nat.zero_lt_two (by decide)
    (gameMap_chain 1)
  cases hpath

end Cecore.Pointer
