import Cecore.Core.Types
import Mathlib.Data.List.Perm.Basic
import Mathlib.Data.List.Sort

/-!
# Pointer maps

`PointerPath` and `PointerMap` of `scanner/pointer_scanner.hpp`: the pointers found in a process, in
the order of their values and, through indices, in the order of their places; and the resolution of
a path over such a map alone.
-/

set_option autoImplicit false
set_option relaxedAutoImplicit false

namespace Cecore.Pointer

/-! ### Words -/

/-- The machine word of a number, in two's complement. -/
def wordOf (n : ℤ) : ℕ := (n % (sizeModulus : ℤ)).toNat

/-- The conversion of a machine word to `int32_t`. -/
def int32Of (word : ℕ) : ℤ := if word % 2 ^ 32 < 2 ^ 31 then word % 2 ^ 32 else (word % 2 ^ 32 : ℕ) - 2 ^ 32

theorem wordOf_natCast {n : ℕ} (h : n < sizeModulus) : wordOf n = n := by
  rw [wordOf, ← Int.natCast_mod, Int.toNat_natCast, Nat.mod_eq_of_lt h]

/-! ### Paths and maps -/

/-- A pointer path: from a place in a module over offsets, one for each pointer. -/
structure PointerPath where
  module : Text
  moduleBase : ℕ
  baseOffset : ℕ
  offsets : List ℤ
  deriving DecidableEq, Repr

structure Entry where
  pointsTo : ℕ
  locatedAt : ℕ
  deriving DecidableEq, Repr

/-- What `setEntries` and `setModules` make of pointers and modules. Indices are 32 bits wide, so
that there are at most `2^32` pointers, which `load` checks. -/
structure PointerMap where
  byTarget : List Entry
  byLocated : List ℕ
  modules : List ModuleInfo
  sortedByTarget : byTarget.Pairwise fun first second ↦ first.pointsTo ≤ second.pointsTo
  indices : byLocated.Perm (List.range byTarget.length)
  sortedByLocated : (byLocated.map fun i ↦ (byTarget.getD i ⟨0, 0⟩).locatedAt).Pairwise (· ≤ ·)
  words : ∀ entry ∈ byTarget, entry.pointsTo < sizeModulus ∧ entry.locatedAt < sizeModulus
  fits : byTarget.length ≤ 2 ^ 32

namespace PointerMap

variable (map : PointerMap)

/-- The map holds these pointers. `std::sort` may leave pointers of one value, or of one place, in
any order. -/
def SetEntries (entries : List Entry) : Prop := map.byTarget.Perm entries

def entryAt (i : ℕ) : Entry := map.byTarget.getD i ⟨0, 0⟩

/-- `valueAt`: the pointer at an address, from the first index that is not below it. -/
def valueAt (addr : ℕ) : Option ℕ :=
  match map.byLocated.dropWhile fun i ↦ decide ((map.entryAt i).locatedAt < addr) with
  | [] => none
  | i :: _ => if (map.entryAt i).locatedAt = addr then some (map.entryAt i).pointsTo else none

/-- The base of the first module of the name, zero where there is none. -/
def moduleBase (modules : List ModuleInfo) (name : Text) : ℕ :=
  match modules.find? fun m ↦ decide (m.name = name) with
  | some m => m.base
  | none => 0

end PointerMap

/-- The loop over the offsets of a path, zero where a pointer is missing or null. -/
def followOffsets (pointerAt : ℕ → Option ℕ) : (addr : ℕ) → List ℤ → ℕ
  | addr, [] => addr
  | addr, off :: rest =>
    match pointerAt addr with
    | none => 0
    | some ptr => if ptr = 0 then 0 else followOffsets pointerAt (wordOf (ptr + off)) rest

/-- `resolve`. -/
def PointerMap.resolve (map : PointerMap) (path : PointerPath) : ℕ :=
  let base := moduleBase map.modules path.module
  if base = 0 then 0
  else followOffsets map.valueAt ((base + path.baseOffset) % sizeModulus) path.offsets

/-! ### Looking up a place -/

namespace PointerMap

variable {map : PointerMap}

theorem entryAt_mem {i : ℕ} (hi : i ∈ map.byLocated) : map.entryAt i ∈ map.byTarget := by
  have hlt := List.mem_range.mp (map.indices.mem_iff.mp hi)
  rw [entryAt, List.getD_eq_getElem _ _ hlt]
  exact List.getElem_mem hlt

/-- A module is found by its name, where no other one has the name. -/
theorem moduleBase_of_mem {modules : List ModuleInfo} (hnames : (modules.map ModuleInfo.name).Nodup)
    {m : ModuleInfo} (hm : m ∈ modules) : moduleBase modules m.name = m.base := by
  unfold moduleBase
  split
  · next found hfound =>
    have hmem := List.mem_of_find?_eq_some hfound
    have hname : found.name = m.name := by simpa using List.find?_some hfound
    rw [List.inj_on_of_nodup_map hnames hmem hm hname]
  · next hnone =>
    have hdiffer := List.find?_eq_none.mp hnone m hm
    simp at hdiffer

/-- Only what a place holds is found there. -/
theorem mem_of_valueAt {addr value : ℕ} (h : map.valueAt addr = some value) :
    ⟨value, addr⟩ ∈ map.byTarget := by
  unfold valueAt at h
  split at h
  · cases h
  · next i rest hrest =>
    split_ifs at h with hplace
    obtain rfl := Option.some.inj h
    have hmem : i ∈ map.byLocated :=
      (List.dropWhile_sublist _).mem (hrest ▸ List.mem_cons_self)
    have hentry := entryAt_mem hmem
    rwa [← hplace]

/-- What a place holds is found there, where no other pointer is at the same place. -/
theorem valueAt_of_mem (hunique : (map.byTarget.map Entry.locatedAt).Nodup) {entry : Entry}
    (h : entry ∈ map.byTarget) : map.valueAt entry.locatedAt = some entry.pointsTo := by
  obtain ⟨i, hi, rfl⟩ := List.mem_iff_getElem.mp h
  obtain ⟨addr, haddr⟩ : ∃ addr, map.byTarget[i].locatedAt = addr := ⟨_, rfl⟩
  have hindex : i ∈ map.byLocated := map.indices.mem_iff.mpr (List.mem_range.mpr hi)
  have hat : map.entryAt i = map.byTarget[i] := by rw [entryAt, List.getD_eq_getElem _ _ hi]
  obtain ⟨front, back, hsplit⟩ := List.append_of_mem hindex
  have hsorted := map.sortedByLocated
  rw [hsplit, List.map_append, List.map_cons] at hsorted
  have hback : ∀ j ∈ front, (map.entryAt j).locatedAt ≤ addr := by
    intro j hj
    have hle := (List.pairwise_append.mp hsorted).2.2 _ (List.mem_map_of_mem hj) _ List.mem_cons_self
    rwa [← haddr, ← hat]
  have hdifferent : ∀ j ∈ front, (map.entryAt j).locatedAt < addr := by
    intro j hj
    have hmem : j ∈ map.byLocated := hsplit ▸ List.mem_append_left _ hj
    have hlt := List.mem_range.mp (map.indices.mem_iff.mp hmem)
    refine lt_of_le_of_ne (hback j hj) fun hsame ↦ ?_
    have hnodup : map.byLocated.Nodup := map.indices.nodup_iff.mpr List.nodup_range
    have hne : j ≠ i := by
      rintro rfl
      rw [hsplit] at hnodup
      exact List.disjoint_of_nodup_append hnodup hj List.mem_cons_self
    have hjPlaces : j < (map.byTarget.map Entry.locatedAt).length := by rwa [List.length_map]
    have hiPlaces : i < (map.byTarget.map Entry.locatedAt).length := by rwa [List.length_map]
    have hplaces : (map.byTarget.map Entry.locatedAt)[j] = (map.byTarget.map Entry.locatedAt)[i] := by
      rw [List.getElem_map, List.getElem_map, haddr, ← hsame, entryAt, List.getD_eq_getElem _ _ hlt]
    exact hne ((List.Nodup.getElem_inj_iff hunique).mp hplaces)
  have hdrop : map.byLocated.dropWhile (fun j ↦ decide ((map.entryAt j).locatedAt < addr)) =
      i :: back := by
    rw [hsplit, List.dropWhile_append_of_pos fun j hj ↦ decide_eq_true (hdifferent j hj),
      List.dropWhile_cons_of_neg (by rw [hat, haddr]; simp)]
  rw [haddr, valueAt, hdrop]
  simp [hat, haddr]

end PointerMap

end Cecore.Pointer
