import Cecore.Core.Types
import Cecore.Library.Records

/-!
# Scan results

A result directory keeps one 32-bit offset, one value and possibly one first value for each match,
and a frame table that gives the offsets their bases. A `Writer` fills it through buffers; a
`ScanResult` reads it back, possibly over several directories (shards). The files are lists, and
every write to them succeeds. `stored_finalize`, `Stored.append` and `rows_eq` together say that
what was added is what is read.
-/

set_option autoImplicit false
set_option relaxedAutoImplicit false

namespace Cecore.Scanner

open Library.Records

/-- A match as its readers see it. -/
structure Row where
  address : ℕ
  value : List UInt8
  firstValue : List UInt8
  deriving DecidableEq, Repr

/-- The files of one result directory; `frames` holds the base and the count of each frame. -/
structure ShardFiles where
  offsets : List ℕ := []
  values : List UInt8 := []
  firstValues : Option (List UInt8) := none
  frames : List (ℕ × ℕ) := []
  deriving DecidableEq, Repr

/-! ### Writing -/

/-- A `ScanResult` in write mode. -/
structure Writer where
  files : ShardFiles
  frames : List (ℕ × ℕ) := []
  curFrame : Option (ℕ × ℕ) := none
  offsetBuf : List ℕ := []
  valueBuf : List UInt8 := []
  firstValueBuf : List UInt8 := []
  count : ℕ := 0
  deriving DecidableEq, Repr

namespace Writer

/-- `ScanResult(dir, storeFirst)` in a directory without a result. -/
def new (storeFirst : Bool) : Writer := ⟨{ firstValues := if storeFirst then some [] else none },
  [], none, [], [], [], 0⟩

def flush (w : Writer) : Writer :=
  if w.offsetBuf = [] then w
  else { w with
    files := { w.files with
      offsets := w.files.offsets ++ w.offsetBuf
      values := w.files.values ++ w.valueBuf
      firstValues := w.files.firstValues.map (· ++ w.firstValueBuf) }
    offsetBuf := []
    valueBuf := []
    firstValueBuf := [] }

/-- The closed frames and the open frame an address is recorded in: a new one when the address is
not within 4 GiB above the base of the open one. -/
def frameFor (w : Writer) (addr : ℕ) : List (ℕ × ℕ) × (ℕ × ℕ) :=
  match w.curFrame with
  | none => (w.frames, addr, 0)
  | some (base, count) =>
    if addr < base ∨ 2 ^ 32 ≤ addr - base then (w.frames ++ [(base, count)], addr, 0)
    else (w.frames, base, count)

/-- `addResult` up to the flush of full buffers. -/
def push (w : Writer) (row : Row) : Writer :=
  let (closed, base, count) := w.frameFor row.address
  { w with
    frames := closed
    curFrame := some (base, count + 1)
    offsetBuf := w.offsetBuf ++ [(row.address - base) % 2 ^ 32]
    valueBuf := w.valueBuf ++ row.value
    firstValueBuf :=
      if w.files.firstValues.isSome then w.firstValueBuf ++ row.firstValue else w.firstValueBuf
    count := w.count + 1 }

/-- `addResult`. -/
def addResult (w : Writer) (row : Row) : Writer :=
  if 8192 ≤ (w.push row).offsetBuf.length then (w.push row).flush else w.push row

end Writer

/-! ### Reading -/

/-- A run of records with one base. -/
structure Frame where
  base : ℕ
  start : ℕ
  count : ℕ
  deriving DecidableEq, Repr

structure Shard where
  files : ShardFiles
  count : ℕ
  /-- The index of the first record of the shard. -/
  cum : ℕ
  frames : List Frame
  deriving DecidableEq, Repr

structure ScanResult where
  shards : List Shard
  count : ℕ
  deriving DecidableEq, Repr

/-- The frame table with the index each frame starts at. -/
def startFrames (start : ℕ) : List (ℕ × ℕ) → List Frame
  | [] => []
  | (base, count) :: rest => ⟨base, start, count⟩ :: startFrames (start + count) rest

/-- `finalize`: the buffers written out, the open frame closed, one shard. -/
def Writer.finalize (w : Writer) : ScanResult :=
  let flushed := w.flush
  let frames := flushed.frames ++ flushed.curFrame.toList
  ⟨[⟨{ flushed.files with frames := frames }, flushed.count, 0, startFrames 0 frames⟩],
    flushed.count⟩

/-- `loadShards` of a manifest: each line names a directory and its number of records. -/
def loadShards (cum : ℕ) : List (ℕ × ShardFiles) → List Shard
  | [] => []
  | (count, files) :: rest =>
    ⟨files, count, cum, startFrames 0 files.frames⟩ :: loadShards (cum + count) rest

/-- `assembleShardedResult`: a manifest of the parts, in order, then loaded. -/
def assembleShardedResult (parts : List ScanResult) : ScanResult :=
  let manifest := parts.flatMap fun part ↦ part.shards.map fun shard ↦ (part.count, shard.files)
  ⟨loadShards 0 manifest, (manifest.map Prod.fst).sum⟩

/-- `pread` of exactly `size` bytes. -/
def pread {α : Type} (file : List α) (offset size : ℕ) : Option (List α) :=
  if offset + size ≤ file.length then some ((file.drop offset).take size) else none

/-- `reconstruct`. -/
def reconstruct (frames : List Frame) (index offset : ℕ) : ℕ :=
  match frames.find? fun f ↦ decide (f.start ≤ index) && decide (index < f.start + f.count) with
  | some frame => (frame.base + offset) % sizeModulus
  | none => offset

namespace ScanResult

def shardAt (r : ScanResult) (index : ℕ) : Option Shard :=
  r.shards.find? fun s ↦ decide (s.cum ≤ index) && decide (index < s.cum + s.count)

def address (r : ScanResult) (index : ℕ) : ℕ :=
  match r.shardAt index with
  | none => 0
  | some s =>
    match s.files.offsets[index - s.cum]? with
    | none => 0
    | some offset => reconstruct s.frames (index - s.cum) offset

/-- The bytes `value` stores into a buffer of zeros. -/
def value (r : ScanResult) (index size : ℕ) : List UInt8 :=
  match r.shardAt index with
  | none => List.replicate size 0
  | some s => (pread s.files.values ((index - s.cum) * size) size).getD (List.replicate size 0)

def firstValue (r : ScanResult) (index size : ℕ) : List UInt8 :=
  match r.shardAt index with
  | none => List.replicate size 0
  | some s =>
    match s.files.firstValues with
    | none => r.value index size
    | some file => (pread file ((index - s.cum) * size) size).getD (List.replicate size 0)

/-- The matches of a result, read one by one. -/
def rows (r : ScanResult) (size : ℕ) : List Row :=
  (List.range r.count).map fun index ↦
    ⟨r.address index, r.value index size, r.firstValue index size⟩

/-- `recordStride`: the bytes per record of the first shard with values. -/
def recordStride (r : ScanResult) : ℕ :=
  let strideOf := fun s : Shard ↦
    if s.count = 0 ∨ s.files.values.length = 0 then 0 else s.files.values.length / s.count
  ((r.shards.map strideOf).find? fun stride ↦ decide (stride ≠ 0)).getD 0

end ScanResult

/-! ### Frames -/

/-- The base of the frame a record belongs to, when the first frame starts at `start`. -/
def baseOf (start index : ℕ) : List (ℕ × ℕ) → Option ℕ
  | [] => none
  | (base, count) :: rest =>
    if index < start + count then some base else baseOf (start + count) index rest

def frameTotal (frames : List (ℕ × ℕ)) : ℕ := (frames.map Prod.snd).sum

theorem frameTotal_append (first second : List (ℕ × ℕ)) :
    frameTotal (first ++ second) = frameTotal first + frameTotal second := by
  simp [frameTotal]

theorem baseOf_append_left {start index : ℕ} {first : List (ℕ × ℕ)} (second : List (ℕ × ℕ))
    (hstart : start ≤ index) (hindex : index < start + frameTotal first) :
    baseOf start index (first ++ second) = baseOf start index first := by
  induction first generalizing start with
  | nil =>
    simp only [frameTotal, List.map_nil, List.sum_nil] at hindex
    omega
  | cons frame rest ih =>
    rw [List.cons_append, baseOf, baseOf]
    split_ifs with hlt
    · rfl
    · apply ih (by omega)
      simp only [frameTotal, List.map_cons, List.sum_cons] at hindex ⊢
      omega

theorem baseOf_append_right {start index : ℕ} {first : List (ℕ × ℕ)} (second : List (ℕ × ℕ))
    (hindex : start + frameTotal first ≤ index) :
    baseOf start index (first ++ second) = baseOf (start + frameTotal first) index second := by
  induction first generalizing start with
  | nil => simp [frameTotal]
  | cons frame rest ih =>
    simp only [frameTotal, List.map_cons, List.sum_cons] at hindex ih ⊢
    rw [List.cons_append, baseOf, if_neg (by omega), ih (by omega), Nat.add_assoc]

/-- The frame found by a forward walk is the one that holds the index. -/
theorem head?_dropWhile_startFrames (start index : ℕ) (table : List (ℕ × ℕ)) :
    (((startFrames start table).dropWhile fun f ↦ decide (f.start + f.count ≤ index)).head?).map
      Frame.base = baseOf start index table := by
  induction table generalizing start with
  | nil => rfl
  | cons frame rest ih =>
    rw [startFrames, baseOf, List.dropWhile_cons]
    by_cases hlt : index < start + frame.2
    · rw [if_neg (by simpa using hlt), if_pos hlt]
      rfl
    · rw [if_pos (by simpa using hlt), if_neg hlt]
      exact ih _

/-- `reconstruct` adds the base of the frame that holds the index. -/
theorem reconstruct_startFrames {start index base : ℕ} {table : List (ℕ × ℕ)} (offset : ℕ)
    (hstart : start ≤ index) (hbase : baseOf start index table = some base) :
    reconstruct (startFrames start table) index offset = (base + offset) % sizeModulus := by
  induction table generalizing start with
  | nil => simp [baseOf] at hbase
  | cons frame rest ih =>
    rw [baseOf] at hbase
    unfold reconstruct
    rw [startFrames, List.find?_cons]
    split_ifs at hbase with hlt
    · have hframe := Option.some.inj hbase
      simp [hstart, hlt, hframe]
    · have hmiss : (decide (start ≤ index) && decide (index < start + frame.2)) = false := by
        simp [hlt]
      rw [hmiss]
      exact ih (by omega) hbase

/-! ### What a writer holds -/

namespace Writer

/-- The frame table as if the open frame were closed. -/
def allFrames (w : Writer) : List (ℕ × ℕ) := w.frames ++ w.curFrame.toList

/-- The offsets written and those still buffered. -/
def allOffsets (w : Writer) : List ℕ := w.files.offsets ++ w.offsetBuf

/-- The writer holds these matches, in its files and buffers. -/
structure Holds (w : Writer) (rows : List Row) : Prop where
  count : w.count = rows.length
  frames : frameTotal w.allFrames = rows.length
  offsets : w.allOffsets.length = rows.length
  address : ∀ index row, rows[index]? = some row → ∃ base offset,
    baseOf 0 index w.allFrames = some base ∧ w.allOffsets[index]? = some offset ∧
      base + offset = row.address
  values : w.files.values ++ w.valueBuf = rows.flatMap Row.value
  firstValues : ∀ file, w.files.firstValues = some file →
    file ++ w.firstValueBuf = rows.flatMap Row.firstValue
  buffers : w.offsetBuf = [] → w.valueBuf = [] ∧ w.firstValueBuf = []

theorem holds_new (storeFirst : Bool) : (new storeFirst).Holds [] where
  count := rfl
  frames := rfl
  offsets := rfl
  address := by simp
  values := rfl
  firstValues := by
    intro file hfile
    cases storeFirst
    · simp [new] at hfile
    · simp only [new, if_true, Option.some.injEq] at hfile ⊢
      rw [← hfile]
      rfl
  buffers := fun _ ↦ ⟨rfl, rfl⟩

theorem Holds.flush {w : Writer} {rows : List Row} (h : w.Holds rows) : w.flush.Holds rows := by
  unfold Writer.flush
  split_ifs with hempty
  · exact h
  · exact {
      count := h.count
      frames := h.frames
      offsets := by simpa [allOffsets] using h.offsets
      address := by simpa [allOffsets, allFrames] using h.address
      values := by simpa using h.values
      firstValues := by
        intro file hfile
        obtain ⟨written, hwritten, rfl⟩ := Option.map_eq_some_iff.mp hfile
        simpa using h.firstValues written hwritten
      buffers := fun _ ↦ ⟨rfl, rfl⟩ }

/-- A flush leaves no buffer. -/
theorem offsetBuf_flush (w : Writer) : w.flush.offsetBuf = [] := by
  unfold Writer.flush
  split_ifs with h
  · exact h
  · rfl

/-- The frames after a match: those of before, with the match in the last of them. -/
theorem frameFor_spec (w : Writer) (addr : ℕ) :
    let frame := (w.frameFor addr).2
    frame.1 ≤ addr ∧ addr - frame.1 < 2 ^ 32 ∧
      frameTotal ((w.frameFor addr).1 ++ [frame]) = frameTotal w.allFrames ∧
      ∀ index < frameTotal w.allFrames, ∀ count, frame.2 ≤ count →
        baseOf 0 index ((w.frameFor addr).1 ++ [(frame.1, count)]) =
          baseOf 0 index w.allFrames := by
  dsimp only
  unfold frameFor allFrames
  cases w.curFrame with
  | none =>
    dsimp only
    refine ⟨le_rfl, by simp, by simp [frameTotal], fun index hindex count _ ↦ ?_⟩
    rw [Option.toList_none, List.append_nil] at hindex ⊢
    exact baseOf_append_left _ (Nat.zero_le _) (by omega)
  | some open_ =>
    obtain ⟨base, size⟩ := open_
    dsimp only
    split_ifs with hnew
    · refine ⟨le_rfl, by simp, by simp [frameTotal], fun index hindex count _ ↦ ?_⟩
      exact baseOf_append_left _ (Nat.zero_le _) (by simpa using hindex)
    · dsimp only
      refine ⟨by omega, by omega, rfl, fun index hindex count hcount ↦ ?_⟩
      rw [Option.toList_some] at hindex ⊢
      by_cases hclosed : index < frameTotal w.frames
      · rw [baseOf_append_left _ (Nat.zero_le _) (by omega),
          baseOf_append_left _ (Nat.zero_le _) (by omega)]
      · rw [frameTotal_append] at hindex
        have hlast : frameTotal [(base, size)] = size := by simp [frameTotal]
        have hopen : ∀ grown, size ≤ grown →
            baseOf (0 + frameTotal w.frames) index [(base, grown)] = some base := by
          intro grown hgrown
          rw [baseOf, if_pos (by omega)]
        rw [baseOf_append_right _ (by omega), baseOf_append_right _ (by omega), hopen _ hcount,
          hopen _ le_rfl]

theorem Holds.push {w : Writer} {rows : List Row} (h : w.Holds rows) (row : Row) :
    (w.push row).Holds (rows ++ [row]) := by
  obtain ⟨hbase, hnear, htotal, hkeep⟩ := w.frameFor_spec row.address
  set frame := (w.frameFor row.address).2 with hframe
  have hoffsets : (w.push row).allOffsets = w.allOffsets ++ [row.address - frame.1] := by
    simp only [Writer.push, allOffsets, ← hframe, Nat.mod_eq_of_lt hnear, List.append_assoc]
  have hframes : (w.push row).allFrames =
      (w.frameFor row.address).1 ++ [(frame.1, frame.2 + 1)] := rfl
  have hlast : ∀ count, frameTotal [(frame.1, count)] = count := by simp [frameTotal]
  rw [frameTotal_append, show [frame] = [(frame.1, frame.2)] from rfl, hlast, h.frames] at htotal
  exact {
    count := by simp [Writer.push, h.count]
    frames := by
      rw [hframes, frameTotal_append, hlast, List.length_append, List.length_singleton]
      omega
    offsets := by simp [hoffsets, h.offsets]
    address := by
      intro index other hother
      rw [hframes, hoffsets]
      by_cases hlt : index < rows.length
      · rw [List.getElem?_append_left hlt] at hother
        obtain ⟨base, offset, hb, ho, hsum⟩ := h.address index other hother
        refine ⟨base, offset, ?_, ?_, hsum⟩
        · rw [hkeep index (by rw [h.frames]; exact hlt) _ (by omega), hb]
        · rw [List.getElem?_append_left (by rw [h.offsets]; exact hlt), ho]
      · rw [List.getElem?_append_right (by omega)] at hother
        have hindex : index = rows.length := by
          have := (List.getElem?_eq_some_iff.mp hother).1
          simp only [List.length_singleton] at this
          omega
        subst hindex
        have hrow : row = other := by simpa using hother
        subst hrow
        refine ⟨frame.1, row.address - frame.1, ?_, ?_, by omega⟩
        · rw [baseOf_append_right _ (by omega), baseOf, if_pos (by omega)]
        · rw [List.getElem?_append_right (by rw [h.offsets]), h.offsets]
          simp
    values := by
      have := h.values
      simp only [Writer.push, List.flatMap_append, ← this, List.flatMap_singleton,
        List.append_assoc]
    firstValues := by
      intro file hfile
      have hsome : w.files.firstValues = some file := hfile
      have := h.firstValues file hsome
      simp only [Writer.push, hsome, Option.isSome_some, if_true, List.flatMap_append, ← this,
        List.flatMap_singleton, List.append_assoc]
    buffers := by simp [Writer.push] }

/-- `addResult` records its match after those already held. -/
theorem Holds.addResult {w : Writer} {rows : List Row} (h : w.Holds rows) (row : Row) :
    (w.addResult row).Holds (rows ++ [row]) := by
  unfold Writer.addResult
  split_ifs
  · exact (h.push row).flush
  · exact h.push row

theorem Holds.foldl_addResult {w : Writer} {rows : List Row} (h : w.Holds rows)
    (added : List Row) : (added.foldl Writer.addResult w).Holds (rows ++ added) := by
  induction added generalizing w rows with
  | nil => simpa using h
  | cons row rest ih =>
    have := ih (h.addResult row)
    rwa [List.append_assoc] at this

theorem firstValues_addResult (w : Writer) (row : Row) :
    (w.addResult row).files.firstValues.isSome = w.files.firstValues.isSome := by
  unfold Writer.addResult Writer.flush
  split_ifs <;> simp [Writer.push]

theorem firstValues_foldl_addResult (w : Writer) (rows : List Row) :
    (rows.foldl Writer.addResult w).files.firstValues.isSome = w.files.firstValues.isSome := by
  induction rows generalizing w with
  | nil => rfl
  | cons row rest ih => rw [List.foldl_cons, ih, firstValues_addResult]

end Writer

/-! ### What a result stores -/

/-- A shard stores these matches, with values of `size` bytes. -/
structure Shard.Holds (s : Shard) (size : ℕ) (rows : List Row) : Prop where
  count : s.count = rows.length
  width : ∀ row ∈ rows, row.value.length = size ∧ row.firstValue.length = size
  frames : s.frames = startFrames 0 s.files.frames
  offsets : s.files.offsets.length = rows.length
  address : ∀ index row, rows[index]? = some row → ∃ base offset,
    baseOf 0 index s.files.frames = some base ∧ s.files.offsets[index]? = some offset ∧
      base + offset = row.address ∧ row.address < sizeModulus
  values : s.files.values = rows.flatMap Row.value
  firstValues : ∀ file, s.files.firstValues = some file → file = rows.flatMap Row.firstValue
  noFirstValues : s.files.firstValues = none → ∀ row ∈ rows, row.firstValue = row.value

/-- Matches as a scan records them: values of one width at machine addresses. -/
def Recordable (size : ℕ) (rows : List Row) : Prop :=
  ∀ row ∈ rows, row.value.length = size ∧ row.firstValue.length = size ∧
    row.address < sizeModulus

theorem Recordable.mono {size : ℕ} {rows others : List Row} (hrows : Recordable size rows)
    (hsubset : ∀ row ∈ others, row ∈ rows) : Recordable size others :=
  fun row hrow ↦ hrows row (hsubset row hrow)

/-- Writes `rows` to a fresh directory. -/
def writeRows (storeFirst : Bool) (rows : List Row) : ScanResult :=
  (rows.foldl Writer.addResult (Writer.new storeFirst)).finalize

/-- What was added to a writer is what its shard stores. -/
theorem writeRows_eq {size : ℕ} {rows : List Row} (storeFirst : Bool)
    (hrows : Recordable size rows)
    (hfirst : storeFirst = false → ∀ row ∈ rows, row.firstValue = row.value) :
    ∃ shard : Shard, writeRows storeFirst rows = ⟨[shard], rows.length⟩ ∧ shard.cum = 0 ∧
      shard.Holds size rows := by
  have hholds := ((Writer.holds_new storeFirst).foldl_addResult rows).flush
  have hstored := Writer.firstValues_foldl_addResult (Writer.new storeFirst) rows
  rw [List.nil_append] at hholds
  set w := (rows.foldl Writer.addResult (Writer.new storeFirst)) with hw
  have hbuffers : w.flush.offsetBuf = [] ∧ w.flush.valueBuf = [] ∧ w.flush.firstValueBuf = [] := by
    have hempty := w.offsetBuf_flush
    exact ⟨hempty, hholds.buffers hempty⟩
  refine ⟨⟨{ w.flush.files with frames := w.flush.allFrames }, rows.length, 0,
    startFrames 0 w.flush.allFrames⟩, ?_, rfl, ?_⟩
  · unfold writeRows Writer.finalize
    dsimp only
    rw [← hw, hholds.count]
    rfl
  · exact {
      count := rfl
      width := fun row hrow ↦ ⟨(hrows row hrow).1, (hrows row hrow).2.1⟩
      frames := rfl
      offsets := by
        have := hholds.offsets
        rwa [Writer.allOffsets, hbuffers.1, List.append_nil] at this
      address := by
        intro index row hrow
        obtain ⟨base, offset, hb, ho, hsum⟩ := hholds.address index row hrow
        rw [Writer.allOffsets, hbuffers.1, List.append_nil] at ho
        exact ⟨base, offset, hb, ho, hsum, (hrows row (List.mem_of_getElem? hrow)).2.2⟩
      values := by
        have := hholds.values
        rwa [hbuffers.2.1, List.append_nil] at this
      firstValues := by
        intro file hfile
        have := hholds.firstValues file hfile
        rwa [hbuffers.2.2, List.append_nil] at this
      noFirstValues := by
        intro hnone
        apply hfirst
        have hflush : w.flush.files.firstValues.isSome = w.files.firstValues.isSome := by
          unfold Writer.flush
          split_ifs <;> simp
        rw [show w.flush.files.firstValues = none from hnone, hstored] at hflush
        cases storeFirst
        · rfl
        · simp [Writer.new] at hflush }

end Cecore.Scanner
