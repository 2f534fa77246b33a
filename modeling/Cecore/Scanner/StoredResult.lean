import Cecore.Scanner.ScanResult

/-!
# Reading stored matches

`Stored` says which matches a list of shards holds. The one-by-one readers of a `ScanResult` and
the batched `ShardReader` of a next scan both return exactly these (`rows_eq`, `read_eq`), also
when a batch crosses shards.
-/

set_option autoImplicit false
set_option relaxedAutoImplicit false

namespace Cecore.Scanner

open Library.Records

/-! ### The batched reader -/

/-- The buffers one `ShardReader::read` fills. -/
structure Batch where
  addresses : List ℕ
  oldValues : List UInt8
  firstValues : List UInt8
  deriving DecidableEq, Repr

/-- The addresses of consecutive records from `index` on; `frames` is walked forward with them. -/
def decodeBatch (frames : List Frame) (index : ℕ) : List ℕ → List ℕ
  | [] => []
  | offset :: rest =>
    let frames := frames.dropWhile fun f ↦ decide (f.start + f.count ≤ index)
    ((frames.head?.elim 0 Frame.base + offset) % sizeModulus) ::
      decodeBatch frames (index + 1) rest

/-- The records `[first, first + take)` of one shard; first values fall back to the values. -/
def Shard.readRecords (s : Shard) (first take size : ℕ) : Option Batch :=
  match pread s.files.offsets first take with
  | none => none
  | some offsets =>
    match pread s.files.values (first * size) (take * size) with
    | none => none
    | some old =>
      let firsts := s.files.firstValues.bind fun file ↦ pread file (first * size) (take * size)
      some ⟨decodeBatch s.frames first offsets, old, firsts.getD old⟩

def Batch.append (first second : Batch) : Batch where
  addresses := first.addresses ++ second.addresses
  oldValues := first.oldValues ++ second.oldValues
  firstValues := first.firstValues ++ second.firstValues

/-- `ShardReader::read`. Each turn of its loop takes at least one record, so `n` turns are
enough. -/
def readShards (shards : List Shard) (size : ℕ) : (turns first n : ℕ) → Option Batch
  | _, _, 0 => some ⟨[], [], []⟩
  | 0, _, _ + 1 => none
  | turns + 1, first, n + 1 =>
    match shards.find? fun s ↦ decide (s.cum ≤ first) && decide (first < s.cum + s.count) with
    | none => none
    | some s =>
      let take := min (s.count - (first - s.cum)) (n + 1)
      match s.readRecords (first - s.cum) take size,
        readShards shards size turns (first + take) (n + 1 - take) with
      | some batch, some later => some (batch.append later)
      | _, _ => none

/-! ### Stored matches -/

/-- The shards, the first of which starts at index `cum`, hold these matches in this order. -/
inductive Stored (size : ℕ) : ℕ → List Shard → List Row → Prop
  | nil (cum : ℕ) : Stored size cum [] []
  | cons {cum : ℕ} {shard : Shard} {rest : List Shard} {held others : List Row} :
    shard.Holds size held → shard.cum = cum → Stored size (cum + held.length) rest others →
      Stored size cum (shard :: rest) (held ++ others)

/-- The shard found for an index holds the match of that index. -/
theorem Stored.find? {size cum : ℕ} {shards : List Shard} {rows : List Row}
    (h : Stored size cum shards rows) {index : ℕ} (hcum : cum ≤ index)
    (hindex : index < cum + rows.length) :
    ∃ (shard : Shard) (before held after : List Row),
      shards.find? (fun s ↦ decide (s.cum ≤ index) && decide (index < s.cum + s.count)) =
        some shard ∧ shard.Holds size held ∧ rows = before ++ held ++ after ∧
      shard.cum = cum + before.length ∧ shard.cum ≤ index ∧ index < shard.cum + held.length := by
  induction h with
  | nil cum =>
    simp only [List.length_nil] at hindex
    omega
  | @cons cum shard rest held others hshard hstart hrest ih =>
    rw [List.length_append] at hindex
    rw [List.find?_cons, hshard.count, hstart]
    by_cases hlt : index < cum + held.length
    · have hhit : (decide (cum ≤ index) && decide (index < cum + held.length)) = true := by
        simp [hcum, hlt]
      rw [hhit]
      exact ⟨shard, [], held, others, rfl, hshard, rfl, hstart, by omega, by omega⟩
    · have hmiss : (decide (cum ≤ index) && decide (index < cum + held.length)) = false := by
        simp [hlt]
      rw [hmiss]
      obtain ⟨found, before, inside, after, hfind, hholds, hrows, hfound, hlow, hhigh⟩ :=
        ih (by omega) (by omega)
      refine ⟨found, held ++ before, inside, after, hfind, hholds, ?_, ?_, hlow, hhigh⟩
      · rw [hrows]
        simp only [List.append_assoc]
      · rw [hfound, List.length_append]
        omega

namespace Shard.Holds

variable {s : Shard} {size : ℕ} {rows : List Row}

theorem reconstruct_eq (h : s.Holds size rows) {index : ℕ} {row : Row}
    (hrow : rows[index]? = some row) :
    ∃ offset, s.files.offsets[index]? = some offset ∧
      reconstruct s.frames index offset = row.address := by
  obtain ⟨base, offset, hbase, hoffset, hsum, hlt⟩ := h.address index row hrow
  refine ⟨offset, hoffset, ?_⟩
  rw [h.frames, reconstruct_startFrames offset (Nat.zero_le _) hbase, hsum, Nat.mod_eq_of_lt hlt]

/-- A read inside a file of records is the records' bytes. -/
theorem pread_eq {encode : Row → List UInt8} {file : List UInt8} {first take : ℕ}
    (hfile : file = rows.flatMap encode) (hwidth : ∀ row ∈ rows, (encode row).length = size)
    (hfit : first + take ≤ rows.length) :
    pread file (first * size) (take * size) =
      some (((rows.drop first).take take).flatMap encode) := by
  have hdrop : ∀ row ∈ rows.drop first, (encode row).length = size :=
    fun row hrow ↦ hwidth row (List.mem_of_mem_drop hrow)
  unfold pread
  rw [if_pos, hfile, drop_flatMap hwidth, take_flatMap hdrop]
  rw [hfile, length_flatMap hwidth, ← Nat.add_mul]
  exact Nat.mul_le_mul_right _ hfit

theorem value_eq (h : s.Holds size rows) {index : ℕ} {row : Row}
    (hrow : rows[index]? = some row) :
    pread s.files.values (index * size) size = some row.value := by
  obtain ⟨hlt, hget⟩ := List.getElem?_eq_some_iff.mp hrow
  have hread := pread_eq h.values (fun row hrow ↦ (h.width row hrow).1)
    (by omega : index + 1 ≤ rows.length)
  rw [Nat.one_mul, List.drop_eq_getElem_cons hlt, hget] at hread
  simpa using hread

theorem firstValue_eq (h : s.Holds size rows) {index : ℕ} {row : Row}
    (hrow : rows[index]? = some row) {file : List UInt8} (hfile : s.files.firstValues = some file) :
    pread file (index * size) size = some row.firstValue := by
  obtain ⟨hlt, hget⟩ := List.getElem?_eq_some_iff.mp hrow
  have hread := pread_eq (h.firstValues file hfile)
    (fun row hrow ↦ (h.width row hrow).2) (by omega : index + 1 ≤ rows.length)
  rw [Nat.one_mul, List.drop_eq_getElem_cons hlt, hget] at hread
  simpa using hread

end Shard.Holds

/-- Reading a stored result one by one gives the stored matches. -/
theorem rows_eq {size : ℕ} {r : ScanResult} {rows : List Row} (h : Stored size 0 r.shards rows)
    (hcount : r.count = rows.length) : r.rows size = rows := by
  unfold ScanResult.rows
  refine List.ext_getElem? fun index ↦ ?_
  rw [List.getElem?_map, hcount]
  by_cases hlt : index < rows.length
  · obtain ⟨shard, before, held, after, hfind, hholds, hrows, hcum, hlow, hhigh⟩ :=
      h.find? (Nat.zero_le index) (by omega)
    rw [Nat.zero_add] at hcum
    have hlocal : index - shard.cum < held.length := by omega
    have hheld : held[index - shard.cum]? = some held[index - shard.cum] :=
      List.getElem?_eq_getElem hlocal
    have hget : rows[index]? = some held[index - shard.cum] := by
      rw [hrows, List.append_assoc, List.getElem?_append_right (by omega), ← hcum,
        List.getElem?_append_left hlocal, hheld]
    have hshard : r.shardAt index = some shard := hfind
    obtain ⟨offset, hoffset, haddress⟩ := hholds.reconstruct_eq hheld
    have hvalue : r.value index size = held[index - shard.cum].value := by
      rw [ScanResult.value, hshard]
      dsimp only
      rw [hholds.value_eq hheld, Option.getD_some]
    have hfirst : r.firstValue index size = held[index - shard.cum].firstValue := by
      rw [ScanResult.firstValue, hshard]
      dsimp only
      cases hfile : shard.files.firstValues with
      | none =>
        dsimp only
        rw [hvalue, hholds.noFirstValues hfile _ (List.getElem_mem hlocal)]
      | some file =>
        dsimp only
        rw [hholds.firstValue_eq hheld hfile, Option.getD_some]
    rw [List.getElem?_range hlt, hget, Option.map_some, hvalue, hfirst, ScanResult.address, hshard]
    dsimp only
    rw [hoffset]
    dsimp only
    rw [haddress]
  · rw [List.getElem?_eq_none (by simpa using hlt), List.getElem?_eq_none (by omega),
      Option.map_none]

/-! ### Assembling shards -/

/-- The parts of a scan, each written by one worker, hold the matches of all workers in order. -/
theorem stored_assemble {size : ℕ} {storeFirst : Bool} {parts : List (List Row)}
    (hparts : ∀ part ∈ parts, Recordable size part)
    (hfirst : storeFirst = false → ∀ part ∈ parts, ∀ row ∈ part, row.firstValue = row.value) :
    Stored size 0 (assembleShardedResult (parts.map (writeRows storeFirst))).shards
        parts.flatten ∧
      (assembleShardedResult (parts.map (writeRows storeFirst))).count = parts.flatten.length := by
  have hmanifest : ∀ cum (rest : List (List Row)), (∀ part ∈ rest, part ∈ parts) →
      let manifest := (rest.map (writeRows storeFirst)).flatMap fun part ↦
        part.shards.map fun shard ↦ (part.count, shard.files)
      Stored size cum (loadShards cum manifest) rest.flatten ∧
        (manifest.map Prod.fst).sum = rest.flatten.length := by
    intro cum rest hrest
    induction rest generalizing cum with
    | nil => exact ⟨Stored.nil cum, rfl⟩
    | cons part rest ih =>
      have hpart := hrest part List.mem_cons_self
      obtain ⟨shard, hwrite, -, hholds⟩ := writeRows_eq storeFirst (hparts part hpart)
        fun hnone ↦ hfirst hnone part hpart
      obtain ⟨hstored, hcount⟩ := ih (cum + part.length) fun other hother ↦
        hrest other (List.mem_cons_of_mem _ hother)
      dsimp only at hstored hcount ⊢
      rw [List.map_cons, hwrite, List.flatMap_cons, List.map_singleton, List.singleton_append,
        loadShards, List.flatten_cons]
      constructor
      · refine Stored.cons ?_ rfl hstored
        exact {
          count := rfl
          width := hholds.width
          frames := rfl
          offsets := hholds.offsets
          address := hholds.address
          values := hholds.values
          firstValues := hholds.firstValues
          noFirstValues := hholds.noFirstValues }
      · rw [List.map_cons, List.sum_cons, hcount, List.length_append]
  exact hmanifest 0 parts fun part hpart ↦ hpart

theorem stored_writeRows {size : ℕ} {storeFirst : Bool} {rows : List Row}
    (hrows : Recordable size rows)
    (hfirst : storeFirst = false → ∀ row ∈ rows, row.firstValue = row.value) :
    Stored size 0 (writeRows storeFirst rows).shards rows ∧
      (writeRows storeFirst rows).count = rows.length := by
  obtain ⟨shard, hwrite, hcum, hholds⟩ := writeRows_eq storeFirst hrows hfirst
  rw [hwrite]
  refine ⟨?_, rfl⟩
  have := Stored.cons hholds hcum (Stored.nil (0 + rows.length))
  rwa [List.append_nil] at this

/-- The width a next scan derives from the files is the width they were written with. -/
theorem recordStride_eq {size cum : ℕ} {r : ScanResult} {rows : List Row}
    (h : Stored size cum r.shards rows) (hsize : 1 ≤ size) (hrows : rows ≠ []) :
    r.recordStride = size := by
  have hstride : ∀ (s : Shard) (held : List Row), s.Holds size held →
      (if s.count = 0 ∨ s.files.values.length = 0 then 0 else s.files.values.length / s.count) =
        if held = [] then 0 else size := by
    intro s held hholds
    have hlength : s.files.values.length = held.length * size := by
      rw [hholds.values]
      exact length_flatMap fun row hrow ↦ (hholds.width row hrow).1
    rw [hlength, hholds.count]
    rcases held with _ | ⟨row, rest⟩
    · simp
    · have hpos : 0 < (row :: rest).length := by simp
      have hne : (row :: rest).length * size ≠ 0 := Nat.mul_ne_zero (by omega) (by omega)
      rw [if_neg (by omega), if_neg (by simp), Nat.mul_div_cancel_left _ hpos]
  unfold ScanResult.recordStride
  dsimp only
  generalize r.shards = shards at h
  induction h with
  | nil cum => exact absurd rfl hrows
  | @cons cum shard rest held others hshard hstart hrest ih =>
    rw [List.map_cons, List.find?_cons, hstride shard held hshard]
    by_cases hempty : held = []
    · subst hempty
      simpa using ih (by simpa using hrows)
    · have : decide (size ≠ 0) = true := by simpa using Nat.one_le_iff_ne_zero.mp hsize
      rw [if_neg hempty, this, Option.getD_some]

/-! ### The batched reader reads the same -/

theorem dropWhile_dropWhile_of_imp {α : Type} {p q : α → Bool} (h : ∀ a, p a = true → q a = true)
    (l : List α) : (l.dropWhile p).dropWhile q = l.dropWhile q := by
  induction l with
  | nil => rfl
  | cons a rest ih =>
    rw [List.dropWhile_cons]
    split_ifs with ha
    · rw [ih, List.dropWhile_cons, if_pos (h a ha)]
    · rfl

/-- Walking the frames once finds the base of every record of a batch. The frames may be those left
after walking to an earlier record. -/
theorem getElem?_decodeBatch {table : List (ℕ × ℕ)} {frames : List Frame} (offsets : List ℕ)
    {index : ℕ}
    (hframes : ∀ later, index ≤ later →
      frames.dropWhile (fun f ↦ decide (f.start + f.count ≤ later)) =
        (startFrames 0 table).dropWhile fun f ↦ decide (f.start + f.count ≤ later)) (j : ℕ) :
    (decodeBatch frames index offsets)[j]? = offsets[j]?.map fun offset ↦
      ((baseOf 0 (index + j) table).getD 0 + offset) % sizeModulus := by
  induction offsets generalizing frames index j with
  | nil => rfl
  | cons offset rest ih =>
    rw [decodeBatch]
    cases j with
    | zero =>
      rw [List.getElem?_cons_zero, List.getElem?_cons_zero, Option.map_some, Nat.add_zero,
        ← head?_dropWhile_startFrames, hframes index le_rfl]
      cases ((startFrames 0 table).dropWhile fun f ↦
        decide (f.start + f.count ≤ index)).head? <;> rfl
    | succ j =>
      rw [List.getElem?_cons_succ, List.getElem?_cons_succ, ih, Nat.add_right_comm, Nat.add_assoc]
      intro later hlater
      rw [dropWhile_dropWhile_of_imp, hframes later (by omega)]
      intro f hf
      simp only [decide_eq_true_eq] at hf ⊢
      omega

/-- The buffers for a list of matches. -/
def Batch.ofRows (rows : List Row) : Batch where
  addresses := rows.map Row.address
  oldValues := rows.flatMap Row.value
  firstValues := rows.flatMap Row.firstValue

theorem Batch.append_ofRows (first second : List Row) :
    (Batch.ofRows first).append (Batch.ofRows second) = Batch.ofRows (first ++ second) := by
  simp [Batch.append, Batch.ofRows]

/-- The addresses of a batch are those of its records, also where the walk over the frames has gone
on. -/
theorem Shard.Holds.decodeBatch_eq {s : Shard} {size : ℕ} {rows : List Row} (h : s.Holds size rows)
    {first take : ℕ} (hfit : first + take ≤ rows.length) {frames : List Frame}
    (hframes : ∀ later, first ≤ later →
      frames.dropWhile (fun f ↦ decide (f.start + f.count ≤ later)) =
        (startFrames 0 s.files.frames).dropWhile fun f ↦ decide (f.start + f.count ≤ later)) :
    decodeBatch frames first ((s.files.offsets.drop first).take take) =
      ((rows.drop first).take take).map Row.address := by
  refine List.ext_getElem? fun j ↦ ?_
  rw [getElem?_decodeBatch _ hframes, List.getElem?_map, List.getElem?_take, List.getElem?_take,
    List.getElem?_drop, List.getElem?_drop]
  split_ifs with hj
  · have hlt : first + j < rows.length := by omega
    have hrow : rows[first + j]? = some rows[first + j] := List.getElem?_eq_getElem hlt
    obtain ⟨base, offset, hbase, hoffset, hsum, hlt⟩ := h.address _ _ hrow
    rw [hoffset, hrow, hbase, Option.map_some, Option.map_some, Option.getD_some, hsum,
      Nat.mod_eq_of_lt hlt]
  · rfl

/-- Records of one shard come back as they were stored. -/
theorem Shard.Holds.readRecords_eq {s : Shard} {size : ℕ} {rows : List Row}
    (h : s.Holds size rows) {first take : ℕ} (hfit : first + take ≤ rows.length) :
    s.readRecords first take size = some (Batch.ofRows ((rows.drop first).take take)) := by
  have hoffsets : pread s.files.offsets first take =
      some ((s.files.offsets.drop first).take take) := by
    rw [pread, if_pos (by rw [h.offsets]; exact hfit)]
  have hvalues := Shard.Holds.pread_eq h.values
    (fun row hrow ↦ (h.width row hrow).1) hfit
  have haddresses : decodeBatch s.frames first ((s.files.offsets.drop first).take take) =
      ((rows.drop first).take take).map Row.address :=
    h.decodeBatch_eq hfit fun later _ ↦ by rw [h.frames]
  have hfirsts : ((s.files.firstValues.bind fun file ↦
      pread file (first * size) (take * size)).getD
        (((rows.drop first).take take).flatMap Row.value)) =
      ((rows.drop first).take take).flatMap Row.firstValue := by
    cases hfile : s.files.firstValues with
    | none =>
      rw [Option.bind_none, Option.getD_none]
      refine List.flatMap_congr fun row hrow ↦ ?_
      exact (h.noFirstValues hfile row (List.mem_of_mem_drop (List.mem_of_mem_take hrow))).symm
    | some file =>
      rw [Option.bind_some, Shard.Holds.pread_eq (h.firstValues file hfile)
        (fun row hrow ↦ (h.width row hrow).2) hfit, Option.getD_some]
  rw [Shard.readRecords, hoffsets]
  dsimp only
  rw [hvalues]
  dsimp only
  rw [haddresses, hfirsts]
  rfl

/-- A batch, also one that spans shards, is the stored matches of its range. -/
theorem readShards_eq {size : ℕ} {shards : List Shard} {rows : List Row}
    (h : Stored size 0 shards rows) {turns first n : ℕ} (hturns : n ≤ turns)
    (hfit : first + n ≤ rows.length) :
    readShards shards size turns first n = some (Batch.ofRows ((rows.drop first).take n)) := by
  induction turns generalizing first n with
  | zero =>
    obtain rfl : n = 0 := by omega
    rfl
  | succ turns ih =>
    cases n with
    | zero => rfl
    | succ n =>
      obtain ⟨shard, before, held, after, hfind, hholds, hrows, hcum, hlow, hhigh⟩ :=
        h.find? (Nat.zero_le first) (by omega)
      rw [Nat.zero_add] at hcum
      rw [readShards, hfind]
      dsimp only
      set take := min (shard.count - (first - shard.cum)) (n + 1) with htake
      have hlocal : first - shard.cum + take ≤ held.length := by
        rw [hholds.count] at htake
        omega
      have hpos : 1 ≤ take := by
        rw [hholds.count] at htake
        omega
      have hpart : ((held.drop (first - shard.cum)).take take) = (rows.drop first).take take := by
        have hbefore : before.drop first = [] := List.drop_eq_nil_of_le (by omega)
        rw [hrows, List.append_assoc, List.drop_append, hbefore, List.nil_append, ← hcum,
          List.drop_append_of_le_length (by omega),
          List.take_append_of_le_length (by rw [List.length_drop]; omega)]
      have hsplit : (rows.drop first).take (n + 1) =
          (rows.drop first).take take ++ (rows.drop (first + take)).take (n + 1 - take) := by
        rw [← List.drop_drop, ← List.take_add]
        congr 1
        omega
      have hinside : take ≤ n + 1 := htake ▸ Nat.min_le_right _ _
      rw [hholds.readRecords_eq hlocal, ih (by omega) (by omega), hsplit, ← hpart,
        ← Batch.append_ofRows]

end Cecore.Scanner
