import Cecore.Library.BreadthFirst
import Cecore.Pointer.PointerMap

/-!
# Pointer scans

`PointerScanner::scanWithMap` of `scanner/pointer_scanner.cpp`, a scan that is not cancelled: a
reverse search from the target over the pointers of a map. It is the breadth-first search
`searched`, and its paths are those that the items of that search record, up to the cap on results
(`scanWithMap_eq`).
-/

set_option autoImplicit false
set_option relaxedAutoImplicit false

namespace Cecore.Pointer

open Library Library.BreadthFirst

/-! ### Configurations -/

/-- The settings that a scan reads. -/
structure PointerScanConfig where
  targetAddress : ℕ := 0
  maxDepth : ℤ := 4
  maxOffset : ℤ := 2048
  negativeOffsets : Bool := false
  alignedOnly : Bool := true
  shardIndex : ℕ := 0
  shardCount : ℕ := 1
  useGpu : Bool := false
  gpuMinRegionBytes : ℕ := 2 ^ 20
  target_lt : targetAddress < sizeModulus := by decide
  maxOffset_bounds : -(2 ^ 31) ≤ maxOffset ∧ maxOffset < 2 ^ 31 := by decide

/-- `makePointerScanShards`, nothing where it throws. -/
def makePointerScanShards (base : PointerScanConfig) (shardCount : ℕ) : Option (List PointerScanConfig) :=
  if shardCount = 0 then none
  else some ((List.range shardCount).map fun i ↦
    { base with shardIndex := i, shardCount := shardCount })

/-! ### One item of the search -/

/-- The first module that an address is in, with its index. -/
def findModule (modules : List ModuleInfo) (addr : ℕ) : Option (ModuleInfo × ℕ) :=
  modules.zipIdx.find? fun m ↦
    decide (m.1.base ≤ addr) && decide (addr < (m.1.base + m.1.size) % sizeModulus)

/-- An address to find pointers to, with the offsets from there to the target. -/
structure WorkItem where
  address : ℕ
  offsets : List ℤ
  depth : ℕ
  deriving DecidableEq, Repr

section Scan

variable (map : PointerMap) (config : PointerScanConfig)

def searchMin (address : ℕ) : ℕ :=
  if wordOf config.maxOffset < address then address - wordOf config.maxOffset else 0

def searchMax (address : ℕ) : ℕ :=
  if config.negativeOffsets then (address + wordOf config.maxOffset) % sizeModulus else address

/-- The pointers from `lower_bound` to `upper_bound`. Nothing where the upper end has wrapped around
and lies in front of the lower one: the loop then runs past the end of the pointers. -/
def window (address : ℕ) : Option (List Entry) :=
  let lo := (map.byTarget.takeWhile fun e ↦ decide (e.pointsTo < searchMin config address)).length
  let hi := (map.byTarget.takeWhile fun e ↦ decide (e.pointsTo ≤ searchMax config address)).length
  if lo ≤ hi then some ((map.byTarget.take hi).drop lo) else none

/-- The offsets with that of a pointer in front. -/
def WorkItem.newOffsets (item : WorkItem) (entry : Entry) : List ℤ :=
  int32Of (wordOf ((item.address : ℤ) - entry.pointsTo)) :: item.offsets

def ownedByShard (moduleIndex : ℕ) : Bool :=
  decide (config.shardCount ≤ 1) || decide (moduleIndex % config.shardCount = config.shardIndex)

/-- The path that is recorded for a pointer in a module that the shard owns. -/
def record (item : WorkItem) (entry : Entry) : Option PointerPath :=
  match findModule map.modules entry.locatedAt with
  | none => none
  | some (mod, moduleIndex) =>
    if ownedByShard config moduleIndex then
      some ⟨mod.name, mod.base, entry.locatedAt - mod.base, item.newOffsets entry⟩
    else none

/-- The item behind a pointer. -/
def WorkItem.deeper (item : WorkItem) (entry : Entry) : WorkItem where
  address := entry.locatedAt
  offsets := item.newOffsets entry
  depth := item.depth + 1

/-! ### The search -/

structure Search where
  results : List PointerPath
  queue : List WorkItem
  visited : List ℕ
  deriving DecidableEq, Repr

/-- The cap on results. -/
def kMaxResults : ℕ := 10000

/-- The loop over the pointers of a window, and whether it ends at the cap. -/
def visitEntries (item : WorkItem) : List Entry → Search → Search × Bool
  | [], s => (s, false)
  | entry :: rest, s =>
    let path := record map config item entry
    let s := { s with results := s.results ++ path.toList }
    if path.isSome ∧ kMaxResults ≤ s.results.length then (s, true)
    else if (item.depth : ℤ) + 1 < config.maxDepth ∧ entry.locatedAt ∉ s.visited then
      visitEntries item rest { s with
        queue := s.queue ++ [item.deeper entry]
        visited := entry.locatedAt :: s.visited }
    else visitEntries item rest s

/-- The loop over the queue; every turn takes an item with an address of its own. -/
def searchLoop : (turns : ℕ) → Search → Option (List PointerPath)
  | 0, _ => none
  | turns + 1, s =>
    match s.queue with
    | [] => some s.results
    | item :: queue =>
      match window map config item.address with
      | none => none
      | some entries =>
        match visitEntries map config item entries { s with queue := queue } with
        | (s, true) => some s.results
        | (s, false) => searchLoop turns s

def startItem : WorkItem := ⟨config.targetAddress, [], 0⟩

/-- `scanWithMap`, nothing where a window runs past the end of the pointers. -/
def scanWithMap : Option (List PointerPath) :=
  if config.shardCount = 0 ∨ config.shardCount ≤ config.shardIndex then some []
  else searchLoop map config (map.byTarget.length + 2)
    ⟨[], [startItem config], [config.targetAddress]⟩

/-! ### The items that are searched -/

/-- The pointers of a window, none where it runs past the end. -/
def pointersTo (address : ℕ) : List Entry := (window map config address).getD []

/-- The items behind the pointers to an item. -/
def children (item : WorkItem) : List WorkItem :=
  if (item.depth : ℤ) + 1 < config.maxDepth then
    (pointersTo map config item.address).map item.deeper
  else []

/-- The items of the search, as if there were no cap on results. -/
def searched : List WorkItem :=
  search WorkItem.address (children map config) (map.byTarget.length + 1) [startItem config]
    [config.targetAddress]

/-- The paths that an item records. -/
def recorded (item : WorkItem) : List PointerPath :=
  (pointersTo map config item.address).filterMap (record map config item)

end Scan

variable {map : PointerMap} {config : PointerScanConfig}

/-- The items behind some of the pointers to an item. -/
def behind (config : PointerScanConfig) (item : WorkItem) (entries : List Entry) : List WorkItem :=
  if (item.depth : ℤ) + 1 < config.maxDepth then entries.map item.deeper else []

/-- What the loop over the pointers of a window leaves, where it does not end at the cap. -/
def visitedAll (map : PointerMap) (config : PointerScanConfig) (item : WorkItem) (entries : List Entry)
    (s : Search) : Search where
  results := s.results ++ entries.filterMap (record map config item)
  queue := s.queue ++ (enqueue WorkItem.address (behind config item entries) s.visited).1
  visited := (enqueue WorkItem.address (behind config item entries) s.visited).2

theorem visitedAll_cons_of_fresh {item : WorkItem} {entry : Entry} {rest : List Entry} {s : Search}
    (h : (item.depth : ℤ) + 1 < config.maxDepth ∧ entry.locatedAt ∉ s.visited) :
    visitedAll map config item (entry :: rest) s = visitedAll map config item rest {
      results := s.results ++ (record map config item entry).toList
      queue := s.queue ++ [item.deeper entry]
      visited := entry.locatedAt :: s.visited } := by
  have hnew : (item.deeper entry).address ∉ s.visited := h.2
  simp only [visitedAll, behind, if_pos h.1, List.map_cons, enqueue, if_neg hnew, List.filterMap_cons]
  cases record map config item entry <;> simp [WorkItem.deeper]

theorem visitedAll_cons_of_not_fresh {item : WorkItem} {entry : Entry} {rest : List Entry} {s : Search}
    (h : ¬((item.depth : ℤ) + 1 < config.maxDepth ∧ entry.locatedAt ∉ s.visited)) :
    visitedAll map config item (entry :: rest) s = visitedAll map config item rest
      { s with results := s.results ++ (record map config item entry).toList } := by
  have hbehind : enqueue WorkItem.address (behind config item (entry :: rest)) s.visited =
      enqueue WorkItem.address (behind config item rest) s.visited := by
    unfold behind
    split_ifs with hdeep
    · have hseen : (item.deeper entry).address ∈ s.visited := not_not.mp fun hnew ↦ h ⟨hdeep, hnew⟩
      rw [List.map_cons, enqueue, if_pos hseen]
    · rfl
  simp only [visitedAll, hbehind, List.filterMap_cons]
  cases record map config item entry <;> simp

/-- The loop over the pointers of a window leaves everything that is behind them, or ends at the
cap. -/
theorem visitEntries_spec (map : PointerMap) (config : PointerScanConfig) (item : WorkItem)
    (entries : List Entry) {s : Search} (hresults : s.results.length < kMaxResults) :
    visitEntries map config item entries s = (visitedAll map config item entries s, false) ∧
        (visitedAll map config item entries s).results.length < kMaxResults ∨
      ∃ capped, visitEntries map config item entries s = (capped, true) ∧
        capped.results = (visitedAll map config item entries s).results.take kMaxResults ∧
        capped.results.length = kMaxResults := by
  induction entries generalizing s with
  | nil =>
    left
    simpa [visitEntries, visitedAll, behind, enqueue] using hresults
  | cons entry rest ih =>
    have hpath : (s.results ++ (record map config item entry).toList).length ≤ s.results.length + 1 := by
      rw [List.length_append]
      cases record map config item entry <;> simp
    rw [visitEntries]
    dsimp only
    split_ifs with hcap hfresh
    · right
      have hlength : (s.results ++ (record map config item entry).toList).length = kMaxResults := by
        have := hcap.2
        omega
      refine ⟨_, rfl, ?_, hlength⟩
      have hall : (visitedAll map config item (entry :: rest) s).results =
          (s.results ++ (record map config item entry).toList) ++
            rest.filterMap (record map config item) := by
        simp only [visitedAll, List.filterMap_cons]
        cases record map config item entry <;> simp
      rw [hall, ← hlength, List.take_left]
    all_goals
      have hbelow : (s.results ++ (record map config item entry).toList).length < kMaxResults := by
        cases hrecord : record map config item entry with
        | none => simpa using hresults
        | some path =>
          rw [hrecord] at hcap
          exact not_le.mp fun hle ↦ hcap ⟨rfl, hle⟩
    · rw [visitedAll_cons_of_fresh hfresh]
      exact ih hbelow
    · rw [visitedAll_cons_of_not_fresh hfresh]
      exact ih hbelow

/-! ### Whole scans -/

/-- One of the items has a window that runs past the end of the pointers, and the items before it do
not reach the cap. -/
def Overruns (map : PointerMap) (config : PointerScanConfig) (results : List PointerPath)
    (items : List WorkItem) : Prop :=
  ∃ front item back, items = front ++ item :: back ∧
    (results ++ front.flatMap (recorded map config)).length < kMaxResults ∧
    window map config item.address = none

theorem overruns_cons {results : List PointerPath} {item : WorkItem} {items : List WorkItem}
    (hwindow : (window map config item.address).isSome) :
    Overruns map config results (item :: items) ↔
      Overruns map config (results ++ recorded map config item) items := by
  constructor
  · rintro ⟨front, other, back, hitems, hbelow, hother⟩
    cases front with
    | nil =>
      obtain ⟨rfl, -⟩ := List.cons.inj hitems
      rw [hother] at hwindow
      cases hwindow
    | cons first front =>
      rw [List.cons_append, List.cons.injEq] at hitems
      obtain ⟨rfl, hitems⟩ := hitems
      refine ⟨front, other, back, hitems, ?_, hother⟩
      rwa [List.flatMap_cons, ← List.append_assoc] at hbelow
  · rintro ⟨front, other, back, rfl, hbelow, hother⟩
    refine ⟨item :: front, other, back, rfl, ?_, hother⟩
    rwa [List.flatMap_cons, ← List.append_assoc]

theorem not_overruns_of_capped {results : List PointerPath} {items : List WorkItem}
    (h : kMaxResults ≤ results.length) : ¬Overruns map config results items := by
  rintro ⟨front, other, back, -, hbelow, -⟩
  rw [List.length_append] at hbelow
  omega

/-- The places of the pointers. -/
def PointerMap.places (map : PointerMap) : List ℕ := map.byTarget.map Entry.locatedAt

theorem mem_byTarget_of_mem_pointersTo {address : ℕ} {entry : Entry}
    (h : entry ∈ pointersTo map config address) : entry ∈ map.byTarget := by
  unfold pointersTo window at h
  dsimp only at h
  split_ifs at h
  · exact List.mem_of_mem_take (List.mem_of_mem_drop h)
  · cases h

theorem mem_places_of_mem_children {item child : WorkItem} (h : child ∈ children map config item) :
    child.address ∈ map.places := by
  unfold children at h
  split_ifs at h
  · obtain ⟨entry, hentry, rfl⟩ := List.mem_map.mp h
    exact List.mem_map_of_mem (mem_byTarget_of_mem_pointersTo hentry)
  · cases h

theorem searchLoop_nil (turns : ℕ) {s : Search} (hqueue : s.queue = [])
    (hresults : s.results.length < kMaxResults) :
    (Overruns map config s.results [] → searchLoop map config (turns + 1) s = none) ∧
      (¬Overruns map config s.results [] → searchLoop map config (turns + 1) s =
        some ((s.results ++ [].flatMap (recorded map config)).take kMaxResults)) := by
  constructor
  · rintro ⟨front, item, back, hitems, -⟩
    simp at hitems
  · intro
    rw [searchLoop, hqueue, List.flatMap_nil, List.append_nil, List.take_of_length_le hresults.le]

/-- The loop over the queue returns what the items of the search record, up to the cap, unless it
comes to a window that runs past the end of the pointers. -/
theorem searchLoop_spec {turns : ℕ} {s : Search}
    (hturns : s.queue.length + (unseen map.places s.visited).length ≤ turns)
    (hresults : s.results.length < kMaxResults) :
    let items := search WorkItem.address (children map config) turns s.queue s.visited
    (Overruns map config s.results items → searchLoop map config (turns + 1) s = none) ∧
      (¬Overruns map config s.results items → searchLoop map config (turns + 1) s =
        some ((s.results ++ items.flatMap (recorded map config)).take kMaxResults)) := by
  induction turns generalizing s with
  | zero => exact searchLoop_nil 0 (List.length_eq_zero_iff.mp (by omega)) hresults
  | succ turns ih =>
    cases hqueue : s.queue with
    | nil => exact searchLoop_nil (turns + 1) hqueue hresults
    | cons item queue =>
      intro items
      rw [searchLoop, hqueue]
      dsimp only
      cases hwindow : window map config item.address with
      | none =>
        refine ⟨fun _ ↦ rfl, fun hover ↦ absurd ?_ hover⟩
        exact ⟨[], item, _, rfl, by simpa using hresults, hwindow⟩
      | some entries =>
        have hpointers : pointersTo map config item.address = entries := by
          rw [pointersTo, hwindow, Option.getD_some]
        have hchildren : children map config item = behind config item entries := by
          rw [children, behind, hpointers]
        have hrecorded : recorded map config item = entries.filterMap (record map config item) := by
          rw [recorded, hpointers]
        have hitems : items = item :: search WorkItem.address (children map config) turns
            (queue ++ (enqueue WorkItem.address (behind config item entries) s.visited).1)
            (enqueue WorkItem.address (behind config item entries) s.visited).2 := by
          rw [← hchildren]
          rfl
        rw [hitems, overruns_cons (by rw [hwindow]; rfl), List.flatMap_cons, ← List.append_assoc, hrecorded]
        rw [hqueue] at hturns
        have hplaces : ∀ item, ∀ child ∈ children map config item, child.address ∈ map.places :=
          fun _ _ ↦ mem_places_of_mem_children
        have hnext := turns_enqueue hplaces hturns
        rw [hchildren] at hnext
        rcases visitEntries_spec map config item entries (s := { s with queue := queue }) hresults with ⟨hvisit, hbelow⟩ | ⟨capped, hvisit, htake, hlength⟩
        · simp only [hvisit]
          exact ih (s := visitedAll map config item entries { s with queue := queue }) hnext hbelow
        · simp only [hvisit]
          have hcap : kMaxResults ≤
              (s.results ++ entries.filterMap (record map config item)).length := by
            rw [← hlength, htake]
            exact List.length_take_le' _ _
          refine ⟨fun hover ↦ absurd hover (not_overruns_of_capped hcap), fun _ ↦ ?_⟩
          rw [List.take_append_of_le_length hcap]
          exact congrArg some htake

/-- There are turns for every address. -/
theorem turns_searched (map : PointerMap) (address : ℕ) :
    1 + (unseen map.places [address]).length ≤ map.byTarget.length + 1 := by
  have hle := List.length_filter_le (fun place ↦ decide (place ∉ [address])) map.places
  rw [PointerMap.places, List.length_map] at hle
  rw [unseen, PointerMap.places]
  omega

theorem scanWithMap_spec (hshard : config.shardIndex < config.shardCount) :
    (Overruns map config [] (searched map config) → scanWithMap map config = none) ∧
      (¬Overruns map config [] (searched map config) → scanWithMap map config =
        some (((searched map config).flatMap (recorded map config)).take kMaxResults)) := by
  rw [scanWithMap, if_neg (by omega)]
  exact searchLoop_spec (s := ⟨[], [startItem config], [config.targetAddress]⟩)
    (turns_searched map config.targetAddress) (show 0 < kMaxResults by decide)

/-- `scanWithMap` is the search: its paths are those that the items of the search record, up to the
cap. -/
theorem scanWithMap_eq (hshard : config.shardIndex < config.shardCount)
    (hover : ¬Overruns map config [] (searched map config)) :
    scanWithMap map config =
      some (((searched map config).flatMap (recorded map config)).take kMaxResults) :=
  (scanWithMap_spec hshard).2 hover

/-- A scan runs past the end of the pointers where an item of the search does. -/
theorem scanWithMap_eq_none (hshard : config.shardIndex < config.shardCount) :
    scanWithMap map config = none ↔ Overruns map config [] (searched map config) := by
  constructor
  · intro hnone
    by_contra hover
    rw [scanWithMap_eq hshard hover] at hnone
    cases hnone
  · exact (scanWithMap_spec hshard).1

/-- Below the cap the result is everything that is recorded. -/
theorem eq_flatMap_of_scanWithMap (hshard : config.shardIndex < config.shardCount)
    {results : List PointerPath} (hscan : scanWithMap map config = some results)
    (hcap : results.length < kMaxResults) :
    results = (searched map config).flatMap (recorded map config) := by
  have hover : ¬Overruns map config [] (searched map config) := by
    rw [← scanWithMap_eq_none hshard, hscan]
    exact Option.some_ne_none results
  rw [scanWithMap_eq hshard hover, Option.some_inj] at hscan
  rw [← hscan, List.length_take] at hcap
  rw [← hscan, List.take_of_length_le (by omega)]

end Cecore.Pointer
