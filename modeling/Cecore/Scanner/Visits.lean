import Cecore.Scanner.FirstScan

/-!
# The windows of a first scan

A `Visit` is a window a scan looks at: an address and how many bytes from it were there to look at.
`scanVisits` lists the windows of a whole first scan, and `firstScan_rows` says that the result
is what the matcher reports on them, in order. All results about first scans start here.
-/

set_option autoImplicit false
set_option relaxedAutoImplicit false

namespace Cecore.Scanner

open Library.Stride Platform

structure Visit where
  address : ℕ
  length : ℕ
  deriving DecidableEq, Repr

/-- The windows of a chunk of which `got` bytes arrived. -/
def chunkVisits (m : Matcher) (got : ℕ) (c : Chunk) : List Visit :=
  (offsets (min got c.owned) m.stride).map fun offset ↦
    ⟨c.base + offset, min m.width (got - offset)⟩

/-- The records a window gives. -/
def hitsAt (m : Matcher) (memory : ℕ → Option UInt8) (v : Visit) : List Hit :=
  (m.report (readPrefix memory v.address v.length)).map (Hit.mk v.address)

/-- The bytes of a chunk that arrive. -/
def chunkGot (proc : ProcessHandle) (c : Chunk) : ℕ :=
  (readPrefix proc.memory c.base c.readLen).length

/-- The windows of some ranges. -/
def rangeVisits (host : Host) (config : ScanConfig) (proc : ProcessHandle) (size : ℕ)
    (range : ℕ × ℕ) : List Visit :=
  (chunksOf (ownedLen host config) (size - 1) range).flatMap fun c ↦
    chunkVisits (matcher host config) (chunkGot proc c) c

/-- The windows of one region. -/
def regionVisits (host : Host) (config : ScanConfig) (proc : ProcessHandle) (size : ℕ)
    (skip : Bool) (region : MemoryRegion) : List Visit :=
  (regionRanges host proc skip region).flatMap (rangeVisits host config proc size)

/-- The windows of a whole first scan. -/
def scanVisits (host : Host) (config : ScanConfig) (proc : ProcessHandle) (size : ℕ) :
    List Visit :=
  (scanRegions config proc.queryRegions).flatMap
    (regionVisits host config proc size (skipNonResident host config size))

/-- The records of a whole first scan. -/
def scanHits (host : Host) (config : ScanConfig) (proc : ProcessHandle) (size : ℕ) : List Hit :=
  (scanVisits host config proc size).flatMap (hitsAt (matcher host config) proc.memory)

variable {host : Host} {config : ScanConfig} {proc : ProcessHandle} {size : ℕ}

/-! ### Chunks as windows -/

/-- A window of a buffer is the transfer of what the buffer has of it. -/
theorem slice_readPrefix_min {memory : ℕ → Option UInt8} {address size offset width : ℕ}
    (hoffset : offset ≤ (readPrefix memory address size).length) :
    slice (readPrefix memory address size) offset width =
      readPrefix memory (address + offset)
        (min width ((readPrefix memory address size).length - offset)) := by
  have htake : slice (readPrefix memory address size) offset width =
      slice (readPrefix memory address size) offset
        (min width ((readPrefix memory address size).length - offset)) := by
    unfold slice
    rw [← List.length_drop, ← List.take_take, List.take_length]
  rw [htake]
  exact slice_readPrefix (by omega)

/-- One turn of a worker reports the windows of its chunk. -/
theorem scanChunk_eq (hsize : valueSizeForConfig host config = .ok size) {c : Chunk}
    (hread : c.readLen ≤ c.owned + (size - 1)) :
    scanChunk host config proc c =
      (chunkVisits (matcher host config) (chunkGot proc c) c).flatMap
        (hitsAt (matcher host config) proc.memory) := by
  have hpos := one_le_of_valueSizeForConfig hsize
  have hlength := length_readPrefix_le proc.memory c.base c.readLen
  have hwindows : scanRegion host config (readPrefix proc.memory c.base c.readLen) c.base
      (min (chunkGot proc c) c.owned) =
      (chunkVisits (matcher host config) (chunkGot proc c) c).flatMap
        (hitsAt (matcher host config) proc.memory) := by
    unfold chunkGot
    rw [scanRegion_eq_scanWindows hsize (Nat.min_le_left _ _) (by omega), scanWindows, chunkVisits,
      List.flatMap_map]
    refine List.flatMap_congr fun offset hoffset ↦ ?_
    have hlt := ((mem_offsets (Matcher.one_le_stride host config)).mp hoffset).1
    rw [hitsAt, slice_readPrefix_min (by omega)]
  unfold scanChunk ProcessHandle.read
  dsimp only
  by_cases hfault : c.readLen ≠ 0 ∧ readPrefix proc.memory c.base c.readLen = []
  · have hgot : chunkGot proc c = 0 := by rw [chunkGot, hfault.2, List.length_nil]
    rw [if_pos hfault, hgot, chunkVisits, Nat.zero_min,
      offsets_zero (Matcher.one_le_stride host config)]
    rfl
  · rw [if_neg hfault]
    dsimp only
    split_ifs with hempty
    · have hgot : chunkGot proc c = 0 := hempty
      rw [hgot, chunkVisits, Nat.zero_min, offsets_zero (Matcher.one_le_stride host config)]
      rfl
    · exact hwindows

/-- The chunks of a scan report its windows. -/
theorem flatMap_scanChunk (hsize : valueSizeForConfig host config = .ok size) :
    (scanChunks host config proc (max 1 size)).flatMap (scanChunk host config proc) =
      scanHits host config proc size := by
  have hpos := one_le_of_valueSizeForConfig hsize
  unfold scanChunks scanHits scanVisits regionVisits rangeVisits
  rw [Nat.max_eq_right hpos]
  simp only [List.flatMap_assoc]
  refine List.flatMap_congr fun region _ ↦ List.flatMap_congr fun range _ ↦
    List.flatMap_congr fun c hc ↦ ?_
  exact scanChunk_eq hsize (chunksOf_fits (ownedLen_pos host config) hc).2.2

/-! ### Records fit the result files -/

/-- Every record of a matcher has the matcher's width. -/
theorem length_of_mem_report {bytes value : List UInt8}
    (hvalue : value ∈ (matcher host config).report bytes) :
    value.length = (matcher host config).width := by
  by_cases hall : config.valueType = .all
  · rw [matcher_eq_allTypes hall] at hvalue ⊢
    obtain ⟨_, _, rfl⟩ := List.mem_map.mp hvalue
    have hlength : (allWindow bytes).length = 8 := by
      rw [allWindow, List.length_append, List.length_take, List.length_replicate]
      omega
    exact hlength
  · obtain ⟨stride, width, pred, hsingle⟩ := matcher_eq_single host hall
    rw [hsingle] at hvalue ⊢
    obtain ⟨rfl, hlength, -⟩ := Matcher.mem_report_single.mp hvalue
    exact hlength

theorem regionRanges_pieces {skip : Bool} {region : MemoryRegion} (hsize : 0 < region.size) :
    Pieces region.base (region.base + region.size) (regionRanges host proc skip region) := by
  unfold regionRanges
  split_ifs
  · exact residentRanges_pieces proc hsize
  · exact ⟨by simpa using hsize, List.pairwise_singleton _ _⟩

/-- A window starts inside its range. -/
theorem mem_rangeVisits_bounds {range : ℕ × ℕ} {v : Visit}
    (hv : v ∈ rangeVisits host config proc size range) :
    range.1 ≤ v.address ∧ v.address < range.2 := by
  obtain ⟨c, hc, hv⟩ := List.mem_flatMap.mp hv
  obtain ⟨offset, hoffset, rfl⟩ := List.mem_map.mp hv
  have hlt := ((mem_offsets (Matcher.one_le_stride host config)).mp hoffset).1
  obtain ⟨hfits, -, -⟩ := chunksOf_fits (ownedLen_pos host config) hc
  have hbase := hfits.base
  have howned := hfits.owned
  dsimp only
  omega

theorem mem_regionVisits_bounds {skip : Bool} {region : MemoryRegion} (hregion : 0 < region.size)
    {v : Visit} (hv : v ∈ regionVisits host config proc size skip region) :
    region.base ≤ v.address ∧ v.address < region.base + region.size := by
  obtain ⟨range, hrange, hv⟩ := List.mem_flatMap.mp hv
  have hinside := (regionRanges_pieces hregion).inside range hrange
  have hbounds := mem_rangeVisits_bounds hv
  omega

/-- A window starts at a machine address. -/
theorem mem_scanVisits_lt {v : Visit} (hv : v ∈ scanVisits host config proc size) :
    v.address < sizeModulus := by
  obtain ⟨region, hregion, hv⟩ := List.mem_flatMap.mp hv
  obtain ⟨r, -, hclip⟩ := List.mem_filterMap.mp hregion
  obtain ⟨hpos, hlt, -, -⟩ := clipRegion_bounds hclip
  have hbounds := mem_regionVisits_bounds hpos hv
  omega

theorem recordable_scanHits (hsize : valueSizeForConfig host config = .ok size) :
    Recordable size ((scanHits host config proc size).map Hit.row) := by
  intro row hrow
  obtain ⟨hit, hhit, rfl⟩ := List.mem_map.mp hrow
  obtain ⟨v, hv, hhit⟩ := List.mem_flatMap.mp hhit
  obtain ⟨value, hvalue, rfl⟩ := List.mem_map.mp hhit
  have hlength := (length_of_mem_report hvalue).trans (width_matcher hsize)
  exact ⟨hlength, hlength, mem_scanVisits_lt hv⟩

/-! ### The result -/

theorem flatten_map_flatMap {α β γ : Type} (runs : List (List α)) (f : α → List β) (g : β → γ) :
    (runs.map fun run ↦ (run.flatMap f).map g).flatten = (runs.flatten.flatMap f).map g := by
  induction runs with
  | nil => rfl
  | cons run rest ih =>
    rw [List.map_cons, List.flatten_cons, ih, List.flatten_cons, List.flatMap_append,
      List.map_append]

theorem scanHits_eq_nil_of_regions (hregions : scanRegions config proc.queryRegions = []) :
    scanHits host config proc size = [] := by
  rw [scanHits, scanVisits, hregions]
  rfl

/-- A first scan stores the records of its windows, in order. -/
theorem firstScan_stored (hsize : valueSizeForConfig host config = .ok size) {r : ScanResult}
    (hscan : firstScan host config proc = .ok r) :
    Stored size 0 r.shards ((scanHits host config proc size).map Hit.row) ∧
      r.count = ((scanHits host config proc size).map Hit.row).length := by
  have hrecordable := @recordable_scanHits host config proc size hsize
  have hsame : ∀ hits : List Hit, ∀ row ∈ hits.map Hit.row, row.firstValue = row.value := by
    intro hits row hrow
    obtain ⟨hit, -, rfl⟩ := List.mem_map.mp hrow
    rfl
  have hempty : Stored size 0 (writeRows false []).shards [] ∧
      (writeRows false []).count = ([] : List Row).length :=
    stored_writeRows (by simp [Recordable]) (by simp)
  unfold firstScan at hscan
  cases hcheck : checkFirstScan config with
  | error message => simp [hcheck] at hscan
  | ok _ =>
    rw [hcheck, hsize] at hscan
    dsimp only at hscan
    split_ifs at hscan with hregions hchunks
    · have hnil : scanRegions config proc.queryRegions = [] := by
        rw [List.eq_nil_iff_forall_not_mem]
        intro region hregion
        obtain ⟨r, -, hclip⟩ := List.mem_filterMap.mp hregion
        have hpos := (clipRegion_bounds hclip).1
        have hzero := List.sum_eq_zero_iff_forall_eq_nat.mp hregions region.size
            (List.mem_map_of_mem hregion)
        omega
      rw [scanHits_eq_nil_of_regions hnil, ← Except.ok.inj hscan]
      exact hempty
    · have hnil : scanChunks host config proc (max 1 size) = [] := by
        rw [List.eq_nil_iff_forall_not_mem]
        intro c hc
        have hzero := List.sum_eq_zero_iff_forall_eq_nat.mp hchunks c.owned (List.mem_map_of_mem hc)
        obtain ⟨region, -, hc⟩ := List.mem_flatMap.mp hc
        obtain ⟨range, -, hc⟩ := List.mem_flatMap.mp hc
        have := (chunksOf_fits (ownedLen_pos host config) hc).2.1
        omega
      have hhits : scanHits host config proc size = [] := by
        rw [← flatMap_scanChunk hsize, hnil]
        rfl
      rw [hhits, ← Except.ok.inj hscan]
      exact hempty
    · set chunks := scanChunks host config proc (max 1 size) with hlist
      set nThreads := workerCount host proc chunks.length
      set perThread := max 1 (((chunks.map Chunk.owned).sum + nThreads - 1) / nThreads)
      set parts := (partitionChunks perThread nThreads chunks).map fun run ↦
        (run.flatMap (scanChunk host config proc)).map Hit.row with hparts
      have hflatten : parts.flatten = (scanHits host config proc size).map Hit.row := by
        rw [hparts, flatten_map_flatMap, flatten_partitionChunks perThread
          (one_le_workerCount host proc chunks.length), flatMap_scanChunk hsize]
      have hresult : assembleShardedResult (parts.map (writeRows false)) = r := by
        rw [hparts, List.map_map]
        exact Except.ok.inj hscan
      rw [← hresult, ← hflatten]
      apply stored_assemble
      · intro part hpart row hrow
        exact hrecordable row (hflatten ▸ List.mem_flatten.mpr ⟨part, hpart, hrow⟩)
      · intro _ part hpart
        obtain ⟨run, -, rfl⟩ := List.mem_map.mp hpart
        exact hsame _

/-- A first scan yields what the matcher reports on its windows, in order. -/
theorem firstScan_rows (hsize : valueSizeForConfig host config = .ok size) {r : ScanResult}
    (hscan : firstScan host config proc = .ok r) :
    r.rows size = (scanHits host config proc size).map Hit.row :=
  rows_eq (firstScan_stored hsize hscan).1 (firstScan_stored hsize hscan).2

end Cecore.Scanner
