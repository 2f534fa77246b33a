import Cecore.Scanner.Matcher
import Cecore.Scanner.StoredResult
import Cecore.Platform.LinuxProcess

/-!
# The first scan

`MemoryScanner::firstScan`: regions are filtered and clipped, cut into chunks that own their start
positions and look ahead less than one value, and the chunks are dealt to workers in contiguous
runs. A mapping is far smaller than `2 ^ 63` bytes, so the counters of the loops over it do not
wrap; `ownedLen + overlap` can, since the alignment is any `size_t`. Workers do not run out of
memory and the scan is not cancelled.

`firstScan_rows` removes the workers: the result holds the records of all chunks in order.
-/

set_option autoImplicit false
set_option relaxedAutoImplicit false

namespace Cecore.Scanner

open Library.LittleEndian Library.Stride Platform

/-! ### Regions -/

def memoryTypeAllowed (config : ScanConfig) : MemType → Bool
  | .privateMap => config.scanPrivate
  | .image => config.scanImage
  | .mapped => config.scanMapped

def protAllowed (m : ProtMatch) (has : Bool) : Bool :=
  m = .any || (decide (m = .yes) == has)

/-- The part of a region that is scanned. -/
def clipRegion (config : ScanConfig) (r : MemoryRegion) : Option MemoryRegion :=
  if r.state ≠ .committed then none
  else if !r.protection.has MemProt.read then none
  else if !protAllowed config.writableMatch (r.protection.has MemProt.write) then none
  else if !protAllowed config.executableMatch (r.protection.has MemProt.exec) then none
  else if !memoryTypeAllowed config r.type then none
  else
    let regionEnd := if sizeModulus - 1 - r.base < r.size then sizeModulus - 1 else r.base + r.size
    let scanStart := max r.base config.startAddress
    let scanEnd := min regionEnd config.stopAddress
    if scanEnd ≤ scanStart then none
    else some { r with base := scanStart, size := scanEnd - scanStart }

def scanRegions (config : ScanConfig) (regions : List MemoryRegion) : List MemoryRegion :=
  regions.filterMap (clipRegion config)

theorem clipRegion_bounds {config : ScanConfig} {r clipped : MemoryRegion}
    (hclip : clipRegion config r = some clipped) :
    0 < clipped.size ∧ clipped.base + clipped.size < sizeModulus ∧ r.base ≤ clipped.base ∧
      clipped.base + clipped.size ≤ r.base + r.size := by
  unfold clipRegion at hclip
  dsimp only at hclip
  split_ifs at hclip
  all_goals
    have hclipped := (Option.some.inj hclip).symm
    subst hclipped
    simp only [sizeModulus] at *
    omega

/-! ### Chunks -/

structure Chunk where
  base : ℕ
  owned : ℕ
  readLen : ℕ
  deriving DecidableEq, Repr

/-- The start positions of a full chunk: a multiple of the alignment. -/
def ownedLen (host : Host) (config : ScanConfig) : ℕ :=
  let alignment := max 1 config.alignment
  let owned := host.chunkBytes / alignment * alignment
  if owned = 0 then alignment else owned

/-- The chunks of one range. -/
def chunksOf (owned overlap : ℕ) (range : ℕ × ℕ) : List Chunk :=
  if range.2 ≤ range.1 then []
  else (offsets (range.2 - range.1) owned).map fun ws ↦
    ⟨range.1 + ws, min owned (range.2 - range.1 - ws),
      min ((owned + overlap) % sizeModulus) (range.2 - range.1 - ws)⟩

/-- Regions below this size are not worth a page map query. -/
def kPagemapMinRegion : ℕ := 256 * 1024

/-- `skipNonResident`: no value can straddle a page, and a page of zeros holds no match. -/
def skipNonResident (host : Host) (config : ScanConfig) (maxMatchSize : ℕ) : Bool :=
  let alignment := max 1 config.alignment
  let cannotStraddle := decide (0 < host.pageSize) && decide (maxMatchSize ≤ alignment) &&
    decide (host.pageSize % alignment = 0)
  if host.pagemapEnabled && cannotStraddle && decide (config.valueType ≠ .custom) then
    let zeroWindow : List UInt8 := List.replicate (max (maxMatchSize * 4) 64) 0
    decide (scanRegion host config zeroWindow 0x1000 zeroWindow.length = [])
  else false

/-- The ranges of a region that are read. -/
def regionRanges (host : Host) (proc : ProcessHandle) (skip : Bool) (region : MemoryRegion) :
    List (ℕ × ℕ) :=
  if skip && decide (region.type = .privateMap) && decide (kPagemapMinRegion ≤ region.size) then
    residentRanges proc host.pageSize region.base region.size
  else [(region.base, region.base + region.size)]

def scanChunks (host : Host) (config : ScanConfig) (proc : ProcessHandle) (maxMatchSize : ℕ) :
    List Chunk :=
  let skip := skipNonResident host config maxMatchSize
  (scanRegions config proc.queryRegions).flatMap fun region ↦
    (regionRanges host proc skip region).flatMap
      (chunksOf (ownedLen host config) (maxMatchSize - 1))

/-! ### Workers -/

/-- The chunks of the next worker, taken until it has its share; the last worker takes all. -/
def takeChunks (perThread : ℕ) (last : Bool) : (acc : ℕ) → List Chunk → List Chunk × List Chunk
  | _, [] => ([], [])
  | acc, chunk :: rest =>
    if acc < perThread ∨ last = true then
      let (run, left) := takeChunks perThread last (acc + chunk.owned) rest
      (chunk :: run, left)
    else ([], chunk :: rest)

def partitionChunks (perThread : ℕ) : (threads : ℕ) → List Chunk → List (List Chunk)
  | 0, _ => []
  | threads + 1, chunks =>
    let (run, left) := takeChunks perThread (decide (threads = 0)) 0 chunks
    run :: partitionChunks perThread threads left

/-- The number of workers; the number of chunks is converted to `int` first. -/
def workerCount (host : Host) (proc : ProcessHandle) (chunks : ℕ) : ℕ :=
  let maxThreads := if proc.supportsConcurrentReads then max 1 host.threadCount else 1
  min maxThreads (max 1 (signedOf 4 (chunks % 2 ^ 32)).toNat)

/-- One turn of a worker: read a chunk and scan what arrived. -/
def scanChunk (host : Host) (config : ScanConfig) (proc : ProcessHandle) (chunk : Chunk) :
    List Hit :=
  match proc.read chunk.base chunk.readLen with
  | none => []
  | some buf =>
    if buf.length = 0 then []
    else scanRegion host config buf chunk.base (min buf.length chunk.owned)

/-- `addResult(address, value, size)` records the value also as the first value. -/
def Hit.row (hit : Hit) : Row := ⟨hit.address, hit.value, hit.value⟩

/-- The configurations a first scan refuses. -/
def checkFirstScan (config : ScanConfig) : Except Text Unit :=
  if config.valueType = .grouped then
    if config.groupedTerms = [] then
      .error "ValueType::Grouped requires grouped terms (use parseGrouped)".toList
    else if config.groupedValueSize = 0 then
      .error "ValueType::Grouped has invalid grouped terms".toList
    else if config.compareType ≠ .exact ∧ config.compareType ≠ .unknown then
      .error "ValueType::Grouped first scan supports only Exact or Unknown compare".toList
    else .ok ()
  else if config.valueType = .custom then
    if config.customValueSize = 0 then
      .error "ValueType::Custom requires customValueSize > 0".toList
    else if config.compareType = .exact ∧ config.customFormula = [] then
      .error "ValueType::Custom exact scan requires customFormula".toList
    else if config.compareType ≠ .exact ∧ config.compareType ≠ .unknown then
      .error "ValueType::Custom first scan supports only Exact or Unknown compare".toList
    else .ok ()
  else .ok ()

/-- `firstScan`. -/
def firstScan (host : Host) (config : ScanConfig) (proc : ProcessHandle) :
    Except Text ScanResult :=
  match checkFirstScan config with
  | .error message => .error message
  | .ok () =>
    if ((scanRegions config proc.queryRegions).map MemoryRegion.size).sum = 0 then
      .ok (writeRows false [])
    else match valueSizeForConfig host config with
      | .error message => .error message
      | .ok size =>
        let chunks := scanChunks host config proc (max 1 size)
        let totalMem := (chunks.map Chunk.owned).sum
        if totalMem = 0 then .ok (writeRows false [])
        else
          let nThreads := workerCount host proc chunks.length
          let perThread := max 1 ((totalMem + nThreads - 1) / nThreads)
          .ok (assembleShardedResult ((partitionChunks perThread nThreads chunks).map fun run ↦
            writeRows false ((run.flatMap (scanChunk host config proc)).map Hit.row)))

/-! ### The workers disappear -/

theorem takeChunks_append (perThread : ℕ) (last : Bool) (acc : ℕ) (chunks : List Chunk) :
    (takeChunks perThread last acc chunks).1 ++ (takeChunks perThread last acc chunks).2 =
      chunks := by
  induction chunks generalizing acc with
  | nil => rfl
  | cons chunk rest ih =>
    rw [takeChunks]
    split_ifs
    · dsimp only
      rw [List.cons_append, ih]
    · rfl

theorem takeChunks_last (perThread acc : ℕ) (chunks : List Chunk) :
    (takeChunks perThread true acc chunks).1 = chunks := by
  induction chunks generalizing acc with
  | nil => rfl
  | cons chunk rest ih =>
    rw [takeChunks, if_pos (Or.inr rfl)]
    dsimp only
    rw [ih]

/-- The workers' runs are the chunks, in order. -/
theorem flatten_partitionChunks (perThread : ℕ) {threads : ℕ} (hthreads : 1 ≤ threads)
    (chunks : List Chunk) : (partitionChunks perThread threads chunks).flatten = chunks := by
  induction threads generalizing chunks with
  | zero => omega
  | succ threads ih =>
    rw [partitionChunks]
    dsimp only
    rw [List.flatten_cons]
    rcases Nat.eq_zero_or_pos threads with rfl | hpos
    · rw [decide_eq_true rfl, takeChunks_last, partitionChunks, List.flatten_nil, List.append_nil]
    · rw [ih hpos, takeChunks_append]

theorem one_le_workerCount (host : Host) (proc : ProcessHandle) (chunks : ℕ) :
    1 ≤ workerCount host proc chunks := by
  unfold workerCount
  dsimp only
  split_ifs <;> omega

/-- A chunk owns a piece of a scanned range and reads inside it. -/
structure Chunk.Fits (c : Chunk) (range : ℕ × ℕ) : Prop where
  base : range.1 ≤ c.base
  owned : c.base + c.owned ≤ range.2
  read : c.base + c.readLen ≤ range.2

theorem chunksOf_fits {owned overlap : ℕ} (howned : 0 < owned) {range : ℕ × ℕ} {c : Chunk}
    (hc : c ∈ chunksOf owned overlap range) :
    c.Fits range ∧ 0 < c.owned ∧ c.readLen ≤ c.owned + overlap := by
  unfold chunksOf at hc
  split_ifs at hc with hempty
  · simp at hc
  · obtain ⟨ws, hws, rfl⟩ := List.mem_map.mp hc
    have hlt := ((mem_offsets howned).mp hws).1
    have hmod := Nat.mod_le (owned + overlap) sizeModulus
    refine ⟨⟨?_, ?_, ?_⟩, ?_, ?_⟩ <;> dsimp only <;> omega

theorem ownedLen_pos (host : Host) (config : ScanConfig) : 0 < ownedLen host config := by
  unfold ownedLen
  dsimp only
  split_ifs <;> omega

theorem alignment_dvd_ownedLen (host : Host) (config : ScanConfig) :
    max 1 config.alignment ∣ ownedLen host config := by
  unfold ownedLen
  dsimp only
  split_ifs
  · exact dvd_rfl
  · exact Nat.dvd_mul_left _ _

end Cecore.Scanner
