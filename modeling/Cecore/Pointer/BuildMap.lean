import Cecore.Library.LittleEndian
import Cecore.Library.Stride
import Cecore.Platform.ProcessHandle
import Cecore.Pointer.ScanWithMap

/-!
# Building a pointer map

`buildPointerMap` of `scanner/pointer_scanner.cpp`: every readable region is read in windows that
overlap by seven bytes, and words that point into a region become entries. Every entry is a word of
the memory (`pointerAt_of_builds`).
-/

set_option autoImplicit false
set_option relaxedAutoImplicit false

namespace Cecore.Pointer

open Library.LittleEndian Library.Stride Platform

/-- A process with its modules. There is no byte behind the last address. -/
structure Process extends ProcessHandle where
  modules : List ModuleInfo
  bounded : ∀ address, sizeModulus ≤ address → memory address = none

/-- The `CudaSearch` engine: whether there is a device, and the offsets in a buffer of words in a
range. -/
structure CudaSearch where
  available : Bool
  searchU64Range : (buf : List UInt8) → (low high : ℕ) → List ℕ

/-! ### Entries -/

def kPtrLow : ℕ := 0x10000

def kPtrHigh : ℕ := 0x7fffffffffff

def kPtrReadWindow : ℕ := 64 * 1024 * 1024

def ptrStep (config : PointerScanConfig) : ℕ := if config.alignedOnly then 8 else 1

/-- The bytes from which one window takes pointers. -/
def ownedLen (config : PointerScanConfig) : ℕ :=
  max (ptrStep config) (kPtrReadWindow / ptrStep config * ptrStep config)

def isInRange (addr : ℕ) (regions : List MemoryRegion) : Bool :=
  regions.any fun r ↦ decide (r.base ≤ addr) && decide (addr < (r.base + r.size) % sizeModulus)

/-- The `memcpy` of a word out of the buffer. -/
def wordAt (buf : List UInt8) (offset : ℕ) : ℕ := leNat ((buf.drop offset).take 8)

/-- The offsets of a window whose words look like pointers. -/
def candidates (gpu : CudaSearch) (config : PointerScanConfig) (buf : List UInt8) : List ℕ :=
  if config.useGpu && gpu.available && decide (config.gpuMinRegionBytes ≤ buf.length) &&
      config.alignedOnly then
    (gpu.searchU64Range buf kPtrLow kPtrHigh).filter fun off ↦ decide (off + 8 ≤ buf.length)
  else
    (offsets (buf.length - 7) (ptrStep config)).filter fun offset ↦
      decide (kPtrLow ≤ wordAt buf offset) && decide (wordAt buf offset ≤ kPtrHigh)

/-- The entries of one window. -/
def windowEntries (proc : Process) (gpu : CudaSearch) (config : PointerScanConfig)
    (winBase want : ℕ) : List Entry :=
  match proc.read winBase want with
  | none => []
  | some buf =>
    if buf.length < 8 then []
    else ((candidates gpu config buf).filter fun off ↦ isInRange (wordAt buf off) proc.queryRegions).map
      fun off ↦ ⟨wordAt buf off, (winBase + off) % sizeModulus⟩

def regionEntries (proc : Process) (gpu : CudaSearch) (config : PointerScanConfig)
    (region : MemoryRegion) : List Entry :=
  if MemProt.has region.protection MemProt.read then
    (offsets region.size (ownedLen config)).flatMap fun windowStart ↦
      windowEntries proc gpu config ((region.base + windowStart) % sizeModulus)
        (min (ownedLen config + 7) (region.size - windowStart))
  else []

/-- The maps that `buildPointerMap` returns: with the entries of all regions, or empty where it is
cancelled. -/
inductive BuildPointerMap (proc : Process) (gpu : CudaSearch) (config : PointerScanConfig) :
    PointerMap → Prop
  | built {map : PointerMap} : map.modules = proc.modules →
      map.SetEntries (proc.queryRegions.flatMap (regionEntries proc gpu config)) →
        BuildPointerMap proc gpu config map
  | cancelled {map : PointerMap} : map.modules = [] → map.SetEntries [] →
      BuildPointerMap proc gpu config map

/-! ### Words of the memory -/

/-- The pointer that a read of eight bytes finds. -/
def pointerAt (proc : Process) (addr : ℕ) : Option ℕ :=
  match proc.read addr 8 with
  | none => none
  | some bytes => if bytes.length < 8 then none else some (leNat bytes)

variable {proc : Process} {gpu : CudaSearch} {config : PointerScanConfig}

/-- Every candidate lies in the buffer as a whole. -/
theorem candidates_fit {buf : List UInt8} (hbuf : 8 ≤ buf.length) {off : ℕ}
    (h : off ∈ candidates gpu config buf) : off + 8 ≤ buf.length := by
  have hstep : 0 < ptrStep config := by
    unfold ptrStep
    split_ifs <;> decide
  unfold candidates at h
  split_ifs at h
  · exact of_decide_eq_true (List.mem_filter.mp h).2
  · have hlt := ((mem_offsets hstep).mp (List.mem_filter.mp h).1).1
    omega

theorem pointerAt_of_mem_windowEntries {winBase want : ℕ} {entry : Entry}
    (h : entry ∈ windowEntries proc gpu config winBase want) :
    pointerAt proc entry.locatedAt = some entry.pointsTo := by
  unfold windowEntries at h
  split at h
  · cases h
  · next buf hread =>
    rcases Nat.lt_or_ge buf.length 8 with hshort | hlong
    · rw [if_pos hshort] at h
      cases h
    rw [if_neg (not_lt.mpr hlong)] at h
    obtain ⟨off, hoff, rfl⟩ := List.mem_map.mp h
    have hfit := candidates_fit hlong (List.mem_filter.mp hoff).1
    obtain rfl : readPrefix proc.memory winBase want = buf := by
      unfold ProcessHandle.read at hread
      dsimp only at hread
      split_ifs at hread
      exact Option.some.inj hread
    have hword := slice_readPrefix hfit
    have hlength : (readPrefix proc.memory (winBase + off) 8).length = 8 := by
      rw [← hword, List.length_take, List.length_drop]
      omega
    have hreadable := (length_readPrefix_eq_iff _ _ _).mp hlength
    have haddress : (winBase + off) % sizeModulus = winBase + off := by
      refine Nat.mod_eq_of_lt (not_le.mp fun hle ↦ ?_)
      have hbyte := hreadable 0 (by decide)
      rw [Nat.add_zero, proc.bounded _ hle] at hbyte
      cases hbyte
    dsimp only
    rw [pointerAt, haddress, read_eq_some_of_readable hreadable]
    dsimp only
    rw [if_neg (by omega), wordAt, hword]

/-- A pointer of a map that is built is the word that the process holds there. -/
theorem pointerAt_of_builds {map : PointerMap} (hmap : BuildPointerMap proc gpu config map)
    {addr value : ℕ}
    (h : map.valueAt addr = some value) : pointerAt proc addr = some value := by
  have hmem := PointerMap.mem_of_valueAt h
  cases hmap with
  | cancelled _ hentries =>
    have := hentries.mem_iff.mp hmem
    cases this
  | built _ hentries =>
    obtain ⟨region, -, hregion⟩ := List.mem_flatMap.mp (hentries.mem_iff.mp hmem)
    unfold regionEntries at hregion
    split_ifs at hregion
    · obtain ⟨windowStart, -, hwindow⟩ := List.mem_flatMap.mp hregion
      exact pointerAt_of_mem_windowEntries hwindow
    · cases hregion

end Cecore.Pointer
