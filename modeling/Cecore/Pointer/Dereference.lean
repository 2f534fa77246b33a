import Cecore.Pointer.BuildMap

/-!
# Dereferencing pointer paths

`PointerScanner::dereference`, the walk over a path in the memory, and the rescans of a list of
paths by memory and by map. A path that a map of the memory resolves is dereferenced to the same
address (`dereference_eq_resolve`).
-/

set_option autoImplicit false
set_option relaxedAutoImplicit false

namespace Cecore.Pointer

/-- `dereference`. -/
def dereference (proc : Process) (path : PointerPath) : ℕ :=
  let base := PointerMap.moduleBase proc.modules path.module
  if base = 0 then 0
  else followOffsets (pointerAt proc) ((base + path.baseOffset) % sizeModulus) path.offsets

def rescanPointerPaths (proc : Process) (paths : List PointerPath) (newTarget : ℕ) : List PointerPath :=
  paths.filter fun p ↦ decide (dereference proc p = newTarget)

def rescanPointerPathsWithMap (map : PointerMap) (paths : List PointerPath) (newTarget : ℕ) :
    List PointerPath :=
  paths.filter fun p ↦ decide (map.resolve p = newTarget)

/-- A walk that comes to an address comes to the same one where more pointers are known. -/
theorem followOffsets_mono {pointerAt pointerAt' : ℕ → Option ℕ}
    (hmore : ∀ addr value, pointerAt addr = some value → pointerAt' addr = some value)
    {addr : ℕ} {offsets : List ℤ} (h : followOffsets pointerAt addr offsets ≠ 0) :
    followOffsets pointerAt' addr offsets = followOffsets pointerAt addr offsets := by
  induction offsets generalizing addr with
  | nil => rfl
  | cons off rest ih =>
    rw [followOffsets] at h ⊢
    cases hpointer : pointerAt addr with
    | none =>
      rw [hpointer] at h
      exact absurd rfl h
    | some ptr =>
      rw [hpointer] at h
      simp only [hmore addr ptr hpointer, followOffsets, hpointer]
      dsimp only at h
      split_ifs at h ⊢
      · exact absurd rfl h
      · exact ih h

variable {proc : Process} {gpu : CudaSearch} {config : PointerScanConfig} {map : PointerMap}

/-- A path that the map resolves leads to the same address in the memory. -/
theorem dereference_eq_resolve (hmap : BuildPointerMap proc gpu config map) {path : PointerPath}
    (h : map.resolve path ≠ 0) : dereference proc path = map.resolve path := by
  cases hmap with
  | cancelled hmodules _ =>
    rw [PointerMap.resolve, hmodules] at h
    exact absurd rfl h
  | built hmodules hentries =>
    have hpointers : ∀ addr value, map.valueAt addr = some value → pointerAt proc addr = some value :=
      fun _ _ ↦ pointerAt_of_builds (.built hmodules hentries)
    unfold PointerMap.resolve at h ⊢
    rw [dereference, ← hmodules]
    dsimp only at h ⊢
    split_ifs at h ⊢
    · exact absurd rfl h
    · exact followOffsets_mono hpointers h

/-- The map and the memory agree on every path that the map resolves, and a rescan with the map for
an address other than zero keeps only paths that the rescan of the memory keeps. -/
theorem resolve_agrees (hmap : BuildPointerMap proc gpu config map) :
    (∀ path, map.resolve path ≠ 0 → dereference proc path = map.resolve path) ∧
      ∀ paths newTarget, newTarget ≠ 0 → (rescanPointerPathsWithMap map paths newTarget).Sublist
        (rescanPointerPaths proc paths newTarget) := by
  refine ⟨fun path h ↦ dereference_eq_resolve hmap h, fun paths newTarget hzero ↦ ?_⟩
  refine List.monotone_filter_right paths fun path hkept ↦ ?_
  obtain rfl := of_decide_eq_true hkept
  exact decide_eq_true (dereference_eq_resolve hmap hzero)

/-! ### A map of two words -/

/-- Two words in a module, of which the first points to the second. -/
def twoWords : Process where
  memory := fun address ↦
    if address < 0x400000 then none
    else [8, 0, 0x40, 0, 0, 0, 0, 0, 5, 0, 0, 0, 0, 0, 0, 0][address - 0x400000]?
  queryRegions := [{ base := 0x400000, size := 16, protection := MemProt.read }]
  pagemap := fun _ ↦ none
  supportsConcurrentReads := false
  modules := [⟨0x400000, 0x1000, "game".toList, "/opt/game".toList⟩]
  bounded := by
    intro address haddress
    have hlow : ¬address < 0x400000 := not_lt.mpr (le_trans (by decide) haddress)
    rw [if_neg hlow, List.getElem?_eq_none]
    exact le_tsub_of_add_le_right (le_trans (by decide) haddress)

def twoWordsMap : PointerMap where
  byTarget := [⟨0x400008, 0x400000⟩]
  byLocated := [0]
  modules := [⟨0x400000, 0x1000, "game".toList, "/opt/game".toList⟩]
  sortedByTarget := by decide
  indices := by decide
  sortedByLocated := by decide
  words := by decide
  fits := by decide

theorem twoWordsMap_built : BuildPointerMap twoWords ⟨false, fun _ _ _ ↦ []⟩ {} twoWordsMap := by
  refine .built rfl ?_
  have hentries : twoWords.queryRegions.flatMap
      (regionEntries twoWords ⟨false, fun _ _ _ ↦ []⟩ {}) = [⟨0x400008, 0x400000⟩] := by decide
  rw [hentries]
  exact List.Perm.refl _

theorem twoWords_agrees : dereference twoWords ⟨"game".toList, 0x400000, 0, [8]⟩ = 0x400010 :=
  ((resolve_agrees twoWordsMap_built).1 _ (by decide)).trans (by decide)

/-- A path over a place between the words is not resolved by the map, and stands for the address
zero. -/
theorem twoWords_rescan_zero : BuildPointerMap twoWords ⟨false, fun _ _ _ ↦ []⟩ {} twoWordsMap ∧
    ¬(rescanPointerPathsWithMap twoWordsMap [⟨"game".toList, 0x400000, 4, [0]⟩] 0).Sublist
      (rescanPointerPaths twoWords [⟨"game".toList, 0x400000, 4, [0]⟩] 0) :=
  ⟨twoWordsMap_built, by decide⟩

end Cecore.Pointer
