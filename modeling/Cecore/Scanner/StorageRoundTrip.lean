import Cecore.Scanner.StoredResult

/-!
# Round trips of stored results

What was added to a result is what every reader of it returns: one by one, streamed with `forEach`,
and in the batches of `ShardReader`, of the finished result, of its directory when it is loaded
again, and of workers' directories put together (`readers_agree`). A result without a stream of
first values keeps the values in their place.
-/

set_option autoImplicit false
set_option relaxedAutoImplicit false

namespace Cecore.Scanner

open Library.Records

/-! ### The streaming reader -/

/-- `BATCH` of `forEach`. -/
def forEachBatch : ℕ := 4096

/-- The frames from the current one on, after the walk over `n` records from `index` on. -/
def framesAfter (frames : List Frame) (index : ℕ) : (n : ℕ) → List Frame
  | 0 => frames
  | n + 1 => framesAfter (frames.dropWhile fun f ↦ decide (f.start + f.count ≤ index)) (index + 1) n

/-- The addresses and values of one shard from record `first` on. A turn takes at least one record.
-/
def Shard.forEach (s : Shard) (size : ℕ) :
    (turns first : ℕ) → (frames : List Frame) → List (ℕ × List UInt8)
  | 0, _, _ => []
  | turns + 1, first, frames =>
    if first < s.count then
      let n := min (s.count - first) forEachBatch
      match pread s.files.offsets first n, pread s.files.values (first * size) (n * size) with
      | some offsets, some values =>
        ((decodeBatch frames first offsets).zipIdx.map fun (address, i) ↦
          (address, (values.drop (i * size)).take size)) ++
            s.forEach size turns (first + n) (framesAfter frames first n)
      | _, _ => []
    else []

/-- `forEach`: the calls of the callback. -/
def ScanResult.forEach (r : ScanResult) (size : ℕ) : List (ℕ × List UInt8) :=
  r.shards.flatMap fun s ↦ s.forEach size s.count 0 s.frames

/-! ### Directories -/

/-- A result directory: the files of one writer, or a manifest of directories with their counts. -/
inductive ResultDir
  | single (files : ShardFiles)
  | sharded (manifest : List (ℕ × ShardFiles))
  deriving DecidableEq, Repr

/-- `ScanResult(dir)` of a directory that holds a result. -/
def ResultDir.load : ResultDir → ScanResult
  | .single files => ⟨[⟨files, files.offsets.length, 0, startFrames 0 files.frames⟩], files.offsets.length⟩
  | .sharded manifest => ⟨loadShards 0 manifest, (manifest.map Prod.fst).sum⟩

/-- The directory that a finished writer leaves. -/
def Writer.directory (w : Writer) : ResultDir :=
  .single { w.flush.files with frames := w.flush.frames ++ w.flush.curFrame.toList }

/-- The directory of results put together. -/
def mergedDir (parts : List ScanResult) : ResultDir :=
  .sharded (parts.flatMap fun part ↦ part.shards.map fun shard ↦ (part.count, shard.files))

theorem load_mergedDir (parts : List ScanResult) :
    (mergedDir parts).load = assembleShardedResult parts := rfl

/-! ### The readers -/

/-- Every reader of the result returns these records, in order. -/
structure ReadsAs (r : ScanResult) (size : ℕ) (rows : List Row) : Prop where
  count : r.count = rows.length
  each : ∀ i row, rows[i]? = some row →
    r.address i = row.address ∧ r.value i size = row.value ∧ r.firstValue i size = row.firstValue
  forEach : r.forEach size = rows.map fun row ↦ (row.address, row.value)
  shardReader : ∀ first n, first + n ≤ rows.length →
    readShards r.shards size n first n = some (Batch.ofRows ((rows.drop first).take n))

theorem dropWhile_framesAfter {frames : List Frame} {index n later : ℕ} (hlater : index + n ≤ later) :
    (framesAfter frames index n).dropWhile (fun f ↦ decide (f.start + f.count ≤ later)) =
      frames.dropWhile fun f ↦ decide (f.start + f.count ≤ later) := by
  induction n generalizing frames index with
  | zero => rfl
  | succ n ih =>
    rw [framesAfter, ih (by omega), dropWhile_dropWhile_of_imp]
    intro f hf
    have hle := of_decide_eq_true hf
    exact decide_eq_true (by omega)

/-- A batch of addresses and values is the batch of the records. -/
theorem zipIdx_map_batch {size : ℕ} {rows : List Row} (hwidth : ∀ row ∈ rows, row.value.length = size) :
    ((rows.map Row.address).zipIdx.map fun (address, i) ↦
      (address, ((rows.flatMap Row.value).drop (i * size)).take size)) =
        rows.map fun row ↦ (row.address, row.value) := by
  refine List.ext_getElem? fun i ↦ ?_
  rw [List.getElem?_map, List.getElem?_zipIdx, List.getElem?_map, List.getElem?_map]
  cases hrow : rows[i]? with
  | none => rfl
  | some row =>
    rw [Option.map_some, Option.map_some, Option.map_some, Option.map_some, Nat.zero_add]
    dsimp only
    rw [slice_flatMap hwidth hrow]

/-- A shard is streamed record by record, across batches and frames. -/
theorem Shard.Holds.forEach_eq {s : Shard} {size : ℕ} {rows : List Row} (h : s.Holds size rows)
    {turns first : ℕ} (hturns : rows.length - first ≤ turns) {frames : List Frame}
    (hframes : ∀ later, first ≤ later →
      frames.dropWhile (fun f ↦ decide (f.start + f.count ≤ later)) =
        (startFrames 0 s.files.frames).dropWhile fun f ↦ decide (f.start + f.count ≤ later)) :
    s.forEach size turns first frames = (rows.drop first).map fun row ↦ (row.address, row.value) := by
  have hwidth : ∀ row ∈ rows, row.value.length = size := fun row hrow ↦ (h.width row hrow).1
  have hover : ∀ first, rows.length ≤ first →
      [] = (rows.drop first).map fun row ↦ (row.address, row.value) := by
    intro first hle
    rw [List.drop_eq_nil_of_le hle, List.map_nil]
  induction turns generalizing first frames with
  | zero =>
    rw [Shard.forEach]
    exact hover first (by omega)
  | succ turns ih =>
    rw [Shard.forEach]
    split_ifs with hlt
    · rw [h.count] at hlt ⊢
      dsimp only
      set n := min (rows.length - first) forEachBatch with hn
      have hpos : 1 ≤ n := by
        have : 1 ≤ forEachBatch := by decide
        omega
      have hfit : first + n ≤ rows.length := by omega
      have hoffsets : pread s.files.offsets first n = some ((s.files.offsets.drop first).take n) := by
        rw [pread, if_pos (by rw [h.offsets]; exact hfit)]
      have hbatch : ∀ row ∈ (rows.drop first).take n, row.value.length = size := fun row hrow ↦
        hwidth row (List.mem_of_mem_drop (List.mem_of_mem_take hrow))
      have hsplit : rows.drop first = (rows.drop first).take n ++ rows.drop (first + n) := by
        rw [← List.drop_drop, List.take_append_drop]
      rw [hoffsets, Shard.Holds.pread_eq h.values hwidth hfit]
      dsimp only
      rw [h.decodeBatch_eq hfit hframes, zipIdx_map_batch hbatch, ih (by omega) fun later hlater ↦ ?_, hsplit,
        List.map_append]
      · congr 2
        rw [List.take_left' (by rw [List.length_take, List.length_drop]; omega)]
      · rw [dropWhile_framesAfter hlater, hframes later (by omega)]
    · exact hover first (by rw [h.count] at hlt; omega)

theorem Stored.forEach_eq {size cum : ℕ} {shards : List Shard} {rows : List Row}
    (h : Stored size cum shards rows) : shards.flatMap (fun s ↦ s.forEach size s.count 0 s.frames) =
      rows.map fun row ↦ (row.address, row.value) := by
  induction h with
  | nil => rfl
  | @cons cum shard rest held others hshard _ _ ih =>
    have hframes : ∀ later, 0 ≤ later →
        shard.frames.dropWhile (fun f ↦ decide (f.start + f.count ≤ later)) =
          (startFrames 0 shard.files.frames).dropWhile fun f ↦ decide (f.start + f.count ≤ later) := by
      intro later _
      rw [hshard.frames]
    rw [List.flatMap_cons, ih, List.map_append,
      hshard.forEach_eq (by rw [hshard.count, Nat.sub_zero]) hframes, List.drop_zero]

/-- All readers of stored records return them. -/
theorem Stored.readsAs {size : ℕ} {r : ScanResult} {rows : List Row} (h : Stored size 0 r.shards rows)
    (hcount : r.count = rows.length) : ReadsAs r size rows where
  count := hcount
  each := by
    intro i row hrow
    have hrows := rows_eq h hcount
    rw [ScanResult.rows] at hrows
    have hi := (List.getElem?_eq_some_iff.mp hrow).1
    rw [← hrows, List.getElem?_map, List.getElem?_range (by omega), Option.map_some,
      Option.some_inj] at hrow
    rw [← hrow]
    exact ⟨rfl, rfl, rfl⟩
  forEach := h.forEach_eq
  shardReader := fun _ _ hfit ↦ readShards_eq h le_rfl hfit

/-- A finished result and its directory when it is loaded are the same. -/
theorem load_directory {storeFirst : Bool} (rows : List Row) :
    (rows.foldl Writer.addResult (Writer.new storeFirst)).directory.load =
      writeRows storeFirst rows := by
  have hholds := ((Writer.holds_new storeFirst).foldl_addResult rows).flush
  rw [List.nil_append] at hholds
  have hcount : (rows.foldl Writer.addResult (Writer.new storeFirst)).flush.files.offsets.length =
      (rows.foldl Writer.addResult (Writer.new storeFirst)).flush.count := by
    have hlength := hholds.offsets
    rwa [Writer.allOffsets, Writer.offsetBuf_flush, List.append_nil, ← hholds.count] at hlength
  unfold writeRows Writer.directory Writer.finalize ResultDir.load
  dsimp only
  rw [hcount]

/-- Every reader of what was added returns it: of the finished result, of its directory when it is
loaded again, and of any split of it into the results of workers. -/
theorem readers_agree {size : ℕ} {storeFirst : Bool} {rows : List Row} (hrows : Recordable size rows)
    (hfirst : storeFirst = false → ∀ row ∈ rows, row.firstValue = row.value) :
    ReadsAs (writeRows storeFirst rows) size rows ∧
      ReadsAs (rows.foldl Writer.addResult (Writer.new storeFirst)).directory.load size rows ∧
      ∀ parts : List (List Row), parts.flatten = rows →
        ReadsAs (assembleShardedResult (parts.map (writeRows storeFirst))) size rows ∧
          ReadsAs (mergedDir (parts.map (writeRows storeFirst))).load size rows := by
  obtain ⟨hstored, hcount⟩ := stored_writeRows hrows hfirst
  refine ⟨hstored.readsAs hcount, ?_, fun parts hparts ↦ ?_⟩
  · rw [load_directory]
    exact hstored.readsAs hcount
  · subst hparts
    have hmem : ∀ part ∈ parts, ∀ row ∈ part, row ∈ parts.flatten := fun part hpart row hrow ↦
      List.mem_flatten.mpr ⟨part, hpart, hrow⟩
    have hpartsFirst : storeFirst = false → ∀ part ∈ parts, ∀ row ∈ part, row.firstValue = row.value :=
      fun hnone part hpart row hrow ↦ hfirst hnone row (hmem part hpart row hrow)
    obtain ⟨hstored, hcount⟩ := stored_assemble
      (fun part hpart ↦ hrows.mono (hmem part hpart)) hpartsFirst
    rw [load_mergedDir]
    exact ⟨hstored.readsAs hcount, hstored.readsAs hcount⟩

/-- Two records more than 4 GiB apart, the second below the first, by one worker each. -/
theorem readers_agree_apart :
    ReadsAs (assembleShardedResult ([[⟨0x7f0000000000, [1, 2], [1, 3]⟩], [⟨0x1000, [4, 5], [4, 6]⟩]].map
      (writeRows true))) 2 [⟨0x7f0000000000, [1, 2], [1, 3]⟩, ⟨0x1000, [4, 5], [4, 6]⟩] := by
  have hrows : Recordable 2 [⟨0x7f0000000000, [1, 2], [1, 3]⟩, ⟨0x1000, [4, 5], [4, 6]⟩] := by
    unfold Recordable
    decide
  exact ((@readers_agree 2 true _ hrows (by decide)).2.2 _ rfl).1

/-- Without a stream of first values, a first value that differs from the value is not kept. -/
theorem writeRows_drops_firstValue :
    ¬ReadsAs (writeRows false [⟨0x1000, [1], [2]⟩]) 1 [⟨0x1000, [1], [2]⟩] := by
  intro h
  have hfirst := (h.each 0 ⟨0x1000, [1], [2]⟩ rfl).2.2
  revert hfirst
  decide

end Cecore.Scanner
