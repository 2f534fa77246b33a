import Cecore.Platform.ProcessHandle
import Mathlib.Data.List.Chain
import Mathlib.Data.List.TakeWhile

/-!
# Batched reads

`LinuxProcessHandle::readMany` reads many values with few calls of `process_vm_readv`: a dense
cluster as one span, everything else in batches of runs of adjacent addresses, going on behind the
address at which a call stops. The batches leave the buffer and the flags as reading each address on
its own does (`readBatches_eq`). A span differs in the bytes of one address, the first that cannot
be read (`linuxReadMany_eq`).
-/

set_option autoImplicit false
set_option relaxedAutoImplicit false

namespace Cecore.Platform

/-! ### Reading -/

/-- The buffer after bytes were written to its front. -/
def writeFront (out bytes : List UInt8) : List UInt8 := bytes ++ out.drop bytes.length

/-- The default `readMany`: the buffer and the flags after the reads. -/
def readEach (memory : ℕ → Option UInt8) (size : ℕ) :
    (addrs : List ℕ) → (out : List UInt8) → List UInt8 × List Bool
  | [], out => (out, [])
  | addr :: rest, out =>
    let got := readPrefix memory addr size
    let later := readEach memory size rest (out.drop size)
    (writeFront (out.take size) got ++ later.1, decide (got.length = size) :: later.2)

/-- `process_vm_readv`: the bytes of the requests in order, up to the first that is unreadable. -/
def copyRequests (memory : ℕ → Option UInt8) : (remote : List (ℕ × ℕ)) → List UInt8
  | [] => []
  | (base, len) :: rest =>
    let got := readPrefix memory base len
    if got.length < len then got else got ++ copyRequests memory rest

/-- How many of the addresses follow `prev`, each `size` behind the one before. -/
def runLength (size : ℕ) : (prev : ℕ) → List ℕ → ℕ
  | _, [] => 0
  | prev, addr :: rest => if addr = prev + size then runLength size addr rest + 1 else 0

/-- The runs of adjacent addresses at the front, at most `slots`, by first address and length. -/
def buildRuns (size : ℕ) : (slots : ℕ) → List ℕ → List (ℕ × ℕ)
  | 0, _ => []
  | _, [] => []
  | slots + 1, base :: rest =>
    let more := runLength size base rest
    (base, more + 1) :: buildRuns size slots (rest.drop more)

def maxIov : ℕ := 1024

/-- The batched path. A turn settles at least one address, so as many turns as addresses are
enough. -/
def readBatches (memory : ℕ → Option UInt8) (size : ℕ) :
    (turns : ℕ) → (addrs : List ℕ) → (out : List UInt8) → List UInt8 × List Bool
  | 0, _, out => (out, [])
  | _, [], out => (out, [])
  | turns + 1, addr :: rest, out =>
    let runs := buildRuns size maxIov (addr :: rest)
    let batch := (runs.map Prod.snd).sum
    let copied := copyRequests memory (runs.map fun run ↦ (run.1, run.2 * size))
    let out := writeFront out copied
    -- a call that copies nothing returns an error
    if copied = [] then
      let later := readBatches memory size turns rest (out.drop size)
      (out.take size ++ later.1, false :: later.2)
    else
      let full := min (copied.length / size) batch
      if full < batch then
        let later := readBatches memory size turns ((addr :: rest).drop (full + 1))
          (out.drop ((full + 1) * size))
        (out.take ((full + 1) * size) ++ later.1, List.replicate full true ++ false :: later.2)
      else
        let later := readBatches memory size turns ((addr :: rest).drop full) (out.drop (full * size))
        (out.take (full * size) ++ later.1, List.replicate full true ++ later.2)

def maxGap : ℕ := 64
def spanCap : ℕ := 4 * 1024 * 1024
def minRun : ℕ := 8

/-- The addresses ascend, with small gaps between the values. -/
def isDense (size : ℕ) : List ℕ → Bool
  | prev :: addr :: rest =>
    if addr < prev ∨ size + maxGap < addr - prev then false else isDense size (addr :: rest)
  | _ => true

/-- From the first address to the end of the last value. The difference of `size_t` wraps where the
last value ends in front of the first; it is then above the cap, as zero is below the other bound. -/
def spanOf (size : ℕ) (addrs : List ℕ) : ℕ := addrs.getLastD 0 + size - addrs.headD 0

/-- Whether the addresses are read as one span. -/
def readsSpan (size : ℕ) (addrs : List ℕ) : Bool :=
  decide (minRun ≤ addrs.length) && decide (spanOf size addrs ≤ spanCap) &&
    decide (addrs.length * size < spanOf size addrs) && isDense size addrs

/-- The addresses at the front whose values end in the first `got` bytes behind `first`. -/
def inSpan (first size got : ℕ) (addrs : List ℕ) : List ℕ :=
  addrs.takeWhile fun addr ↦ decide (addr - first + size ≤ got)

/-- `LinuxProcessHandle::readMany`. -/
def linuxReadMany (memory : ℕ → Option UInt8) (size : ℕ) (addrs : List ℕ) (out : List UInt8) :
    List UInt8 × List Bool :=
  if size = 0 then (out, List.replicate addrs.length false)
  else if readsSpan size addrs then
    let first := addrs.headD 0
    let scratch := readPrefix memory first (spanOf size addrs)
    let read := inSpan first size scratch.length addrs
    let values := read.flatMap fun addr ↦ (scratch.drop (addr - first)).take size
    let k := read.length
    if k = addrs.length then (values, List.replicate k true)
    else
      let later := readBatches memory size (addrs.length - (k + 1)) (addrs.drop (k + 1))
        (out.drop ((k + 1) * size))
      (values ++ (out.drop (k * size)).take size ++ later.1,
        List.replicate k true ++ false :: later.2)
  else readBatches memory size addrs.length addrs out

/-! ### Requests -/

variable {memory : ℕ → Option UInt8} {size : ℕ}

/-- A transfer is that of its first part and, where this is complete, of the rest. -/
theorem readPrefix_add (memory : ℕ → Option UInt8) (address first second : ℕ) :
    readPrefix memory address (first + second) =
      if (readPrefix memory address first).length < first then readPrefix memory address first
      else readPrefix memory address first ++ readPrefix memory (address + first) second := by
  induction first generalizing address with
  | zero => simp [readPrefix]
  | succ first ih =>
    rw [Nat.add_right_comm, readPrefix, readPrefix]
    cases memory address with
    | none => simp
    | some byte =>
      dsimp only
      rw [ih (address + 1), List.length_cons, show address + 1 + first = address + (first + 1) by omega]
      by_cases hshort : (readPrefix memory (address + 1) first).length < first
      · rw [if_pos hshort, if_pos (by omega)]
      · rw [if_neg hshort, if_neg (by omega), List.cons_append]

/-- A request split in two copies the same. -/
theorem copyRequests_add (base first second : ℕ) (rest : List (ℕ × ℕ)) :
    copyRequests memory ((base, first + second) :: rest) =
      copyRequests memory ((base, first) :: (base + first, second) :: rest) := by
  have hfirst := length_readPrefix_le memory base first
  rw [copyRequests, copyRequests, copyRequests, readPrefix_add]
  by_cases hshort : (readPrefix memory base first).length < first
  · rw [if_pos hshort, if_pos hshort, if_pos (by omega)]
  · rw [if_neg hshort, if_neg hshort, List.length_append]
    by_cases hlater : (readPrefix memory (base + first) second).length < second
    · rw [if_pos hlater, if_pos (by omega)]
    · rw [if_neg hlater, if_neg (by omega), List.append_assoc]

/-- A run is copied like its addresses one after the other. -/
theorem copyRequests_run (base : ℕ) (addrs : List ℕ) (rest : List (ℕ × ℕ)) :
    copyRequests memory ((base, (runLength size base addrs + 1) * size) :: rest) =
      copyRequests memory
        ((base :: addrs.take (runLength size base addrs)).map (·, size) ++ rest) := by
  induction addrs generalizing base with
  | nil => rw [runLength, Nat.zero_add, Nat.one_mul]; rfl
  | cons addr others ih =>
    rw [runLength]
    split_ifs with hnext
    · rw [Nat.add_comm (runLength size addr others + 1), Nat.add_mul, Nat.one_mul, copyRequests_add,
        ← hnext, List.take_succ_cons, List.map_cons, List.cons_append, copyRequests, ih addr,
        copyRequests]
    · rw [Nat.zero_add, Nat.one_mul]
      rfl

/-- How many addresses a batch covers. -/
def covered (size slots : ℕ) (addrs : List ℕ) : ℕ :=
  ((buildRuns size slots addrs).map Prod.snd).sum

theorem runLength_le (size prev : ℕ) (addrs : List ℕ) : runLength size prev addrs ≤ addrs.length := by
  induction addrs generalizing prev with
  | nil => exact le_rfl
  | cons addr rest ih =>
    rw [runLength, List.length_cons]
    split_ifs
    · exact Nat.succ_le_succ (ih addr)
    · exact Nat.zero_le _

theorem covered_le (size slots : ℕ) (addrs : List ℕ) : covered size slots addrs ≤ addrs.length := by
  induction slots generalizing addrs with
  | zero => exact Nat.zero_le _
  | succ slots ih =>
    cases addrs with
    | nil => exact Nat.zero_le _
    | cons base rest =>
      have hrun := runLength_le size base rest
      have hrest := ih (rest.drop (runLength size base rest))
      rw [covered, buildRuns, List.map_cons, List.sum_cons, ← covered, List.length_cons]
      rw [List.length_drop] at hrest
      omega

theorem covered_pos (size slots addr : ℕ) (rest : List ℕ) :
    0 < covered size (slots + 1) (addr :: rest) := by
  rw [covered, buildRuns, List.map_cons, List.sum_cons]
  omega

/-- A batch is copied like its addresses one after the other. -/
theorem copyRequests_buildRuns (slots : ℕ) (addrs : List ℕ) :
    copyRequests memory ((buildRuns size slots addrs).map fun run ↦ (run.1, run.2 * size)) =
      copyRequests memory ((addrs.take (covered size slots addrs)).map (·, size)) := by
  have happend : ∀ (front : List (ℕ × ℕ)) {first second : List (ℕ × ℕ)},
      copyRequests memory first = copyRequests memory second →
        copyRequests memory (front ++ first) = copyRequests memory (front ++ second) := by
    intro front first second hsame
    induction front with
    | nil => exact hsame
    | cons request front ih => rw [List.cons_append, List.cons_append, copyRequests, copyRequests, ih]
  induction slots generalizing addrs with
  | zero => rw [buildRuns, covered, buildRuns]; rfl
  | succ slots ih =>
    cases addrs with
    | nil => rfl
    | cons base rest =>
      set more := runLength size base rest with hmore
      have hcovered : covered size (slots + 1) (base :: rest) =
          more + covered size slots (rest.drop more) + 1 := by
        rw [covered, buildRuns, List.map_cons, List.sum_cons, ← covered, ← hmore]
        omega
      rw [buildRuns, List.map_cons, copyRequests_run, hcovered, List.take_succ_cons, List.take_add,
        List.map_cons, List.map_cons, List.map_append]
      exact happend ((base :: rest.take more).map (·, size)) (ih (rest.drop more))

/-! ### Batches -/

/-- Reading each address, in two parts. -/
theorem readEach_append (first second : List ℕ) (out : List UInt8) :
    readEach memory size (first ++ second) out =
      ((readEach memory size first (out.take (first.length * size))).1 ++
          (readEach memory size second (out.drop (first.length * size))).1,
        (readEach memory size first (out.take (first.length * size))).2 ++
          (readEach memory size second (out.drop (first.length * size))).2) := by
  induction first generalizing out with
  | nil => simp [readEach]
  | cons addr rest ih =>
    have hlength : (addr :: rest).length * size = size + rest.length * size := by
      rw [List.length_cons, Nat.add_mul, Nat.one_mul, Nat.add_comm]
    have htake : (out.take (size + rest.length * size)).take size = out.take size := by
      rw [List.take_take, Nat.min_eq_left (by omega)]
    have hdrop : (out.take (size + rest.length * size)).drop size =
        (out.drop size).take (rest.length * size) := by
      rw [List.drop_take, Nat.add_sub_cancel_left]
    rw [List.cons_append, readEach, readEach, ih, hlength]
    dsimp only
    rw [htake, hdrop, List.drop_drop, List.append_assoc, List.cons_append]

/-- What a batch copies is what reading each address puts there, up to the first address that fails,
and the whole values copied tell which that is. -/
theorem copyRequests_readEach (hsize : 0 < size) (addrs : List ℕ) :
    let copied := copyRequests memory (addrs.map (·, size))
    let full := copied.length / size
    (full ≤ addrs.length ∧ copied.length ≤ addrs.length * size) ∧
      (full < addrs.length → ∀ out : List UInt8, out.length = (full + 1) * size →
        readEach memory size (addrs.take (full + 1)) out =
          (writeFront out copied, List.replicate full true ++ [false])) ∧
      (full = addrs.length → ∀ out : List UInt8, out.length = addrs.length * size →
        readEach memory size addrs out = (writeFront out copied, List.replicate full true)) := by
  induction addrs with
  | nil =>
    refine ⟨⟨by simp [copyRequests], by simp [copyRequests]⟩, by simp [copyRequests], ?_⟩
    intro _ out hout
    obtain rfl := List.length_eq_zero_iff.mp (hout.trans (Nat.zero_mul size))
    simp [copyRequests, readEach, writeFront]
  | cons addr rest ih =>
    have hle := length_readPrefix_le memory addr size
    set got := readPrefix memory addr size with hgot
    by_cases hshort : got.length < size
    · have hcopied : copyRequests memory ((addr :: rest).map (·, size)) = got := by
        rw [List.map_cons, copyRequests, ← hgot]
        exact if_pos hshort
      have hfull : got.length / size = 0 := Nat.div_eq_of_lt hshort
      dsimp only
      rw [hcopied, hfull, List.length_cons]
      refine ⟨⟨Nat.zero_le _, ?_⟩, fun _ out hout ↦ ?_, fun h ↦ absurd h (by omega)⟩
      · rw [Nat.add_mul]
        omega
      · rw [Nat.zero_add, Nat.one_mul] at hout
        rw [Nat.zero_add, List.take_succ_cons, List.take_zero, readEach, readEach, ← hgot,
          List.take_of_length_le hout.le, List.drop_of_length_le hout.le, List.append_nil,
          decide_eq_false (by omega), List.replicate_zero, List.nil_append]
    · have hfullLength : got.length = size := by omega
      set copied := copyRequests memory (rest.map (·, size)) with hrest
      have hcopied : copyRequests memory ((addr :: rest).map (·, size)) = got ++ copied := by
        rw [List.map_cons, copyRequests, ← hgot]
        exact if_neg hshort
      have hfull : (got ++ copied).length / size = copied.length / size + 1 := by
        rw [List.length_append, hfullLength, Nat.add_comm, Nat.add_div_right _ hsize]
      have hwrite : ∀ out : List UInt8, writeFront (out.take size) got ++
          writeFront (out.drop size) copied = writeFront out (got ++ copied) := by
        intro out
        have htake : (out.take size).drop size = [] :=
          List.drop_of_length_le (by rw [List.length_take]; omega)
        rw [writeFront, writeFront, writeFront, hfullLength, htake, List.append_nil,
          List.drop_drop, List.length_append, hfullLength, List.append_assoc]
      have hdropLength : ∀ (out : List UInt8) (n : ℕ), out.length = (n + 1) * size →
          (out.drop size).length = n * size := by
        intro out n hout
        rw [List.length_drop, hout, Nat.add_mul, Nat.one_mul, Nat.add_sub_cancel]
      obtain ⟨⟨hbound, hlength⟩, hfails, hdone⟩ := ih
      dsimp only
      rw [hcopied, hfull, List.length_cons]
      refine ⟨⟨by omega, ?_⟩, fun hlt out hout ↦ ?_, fun heq out hout ↦ ?_⟩
      · rw [List.length_append, hfullLength, Nat.add_mul]
        omega
      · rw [List.take_succ_cons, readEach, ← hgot,
          hfails (by omega) (out.drop size) (hdropLength out _ hout), decide_eq_true hfullLength,
          hwrite, List.replicate_succ, List.cons_append]
      · rw [readEach, ← hgot, hdone (by omega) (out.drop size) (hdropLength out _ hout),
          decide_eq_true hfullLength, hwrite, List.replicate_succ]

/-- What the front of the addresses leaves, followed by what the others leave. -/
theorem readEach_front {addrs : List ℕ} {out copied : List UInt8} {n : ℕ} {flags : List Bool}
    (hn : n ≤ addrs.length) (hcopied : copied.length ≤ n * size)
    (hfront : readEach memory size (addrs.take n) (out.take (n * size)) =
      (writeFront (out.take (n * size)) copied, flags)) :
    readEach memory size addrs out =
      ((writeFront out copied).take (n * size) ++
          (readEach memory size (addrs.drop n) ((writeFront out copied).drop (n * size))).1,
        flags ++ (readEach memory size (addrs.drop n)
          ((writeFront out copied).drop (n * size))).2) := by
  have hlength : (addrs.take n).length = n := by
    rw [List.length_take, Nat.min_eq_left hn]
  have htake : writeFront (out.take (n * size)) copied = (writeFront out copied).take (n * size) := by
    rw [writeFront, writeFront, List.take_append, List.take_of_length_le hcopied, List.drop_take]
  have hdrop : (writeFront out copied).drop (n * size) = out.drop (n * size) := by
    rw [writeFront, List.drop_append, List.drop_of_length_le hcopied, List.nil_append,
      List.drop_drop, Nat.add_sub_cancel' hcopied]
  conv_lhs => rw [← List.take_append_drop n addrs]
  rw [readEach_append, hlength, hfront, htake, hdrop]

/-- The batches leave the buffer and the flags as reading each address does. -/
theorem readBatches_eq (hsize : 0 < size) {turns : ℕ} {addrs : List ℕ} {out : List UInt8}
    (hturns : addrs.length ≤ turns) (hout : out.length = addrs.length * size) :
    readBatches memory size turns addrs out = readEach memory size addrs out := by
  induction turns generalizing addrs out with
  | zero =>
    obtain rfl := List.length_eq_zero_iff.mp (Nat.le_zero.mp hturns)
    rw [readBatches, readEach]
  | succ turns ih =>
    cases addrs with
    | nil => rw [readBatches, readEach]; exact Nat.succ_ne_zero turns
    | cons addr rest =>
      rw [readBatches]
      dsimp only
      rw [← covered, copyRequests_buildRuns]
      set addrs := addr :: rest with haddrs
      set batch := covered size maxIov addrs with hbatch
      have hbatchPos : 0 < batch := covered_pos size 1023 addr rest
      have hbatchLe : batch ≤ addrs.length := covered_le size maxIov addrs
      set copied := copyRequests memory ((addrs.take batch).map (·, size)) with hcopied
      obtain ⟨⟨hbound, hlength⟩, hfails, hdone⟩ :=
        @copyRequests_readEach memory size hsize (addrs.take batch)
      rw [← hcopied, List.length_take, Nat.min_eq_left hbatchLe] at hbound hlength hfails hdone
      have htakeLength : ∀ n ≤ addrs.length, (out.take (n * size)).length = n * size := by
        intro n hn
        rw [List.length_take, hout, Nat.min_eq_left (Nat.mul_le_mul_right size hn)]
      have hnext : ∀ n, 0 < n → n ≤ addrs.length →
          readBatches memory size turns (addrs.drop n) ((writeFront out copied).drop (n * size)) =
            readEach memory size (addrs.drop n) ((writeFront out copied).drop (n * size)) := by
        intro n hpos hn
        refine ih ?_ ?_
        · rw [List.length_drop]
          omega
        · have hcopiedLe : copied.length ≤ out.length := by
            rw [hout]
            exact hlength.trans (Nat.mul_le_mul_right size hbatchLe)
          rw [List.length_drop, writeFront, List.length_append, List.length_drop,
            Nat.add_sub_cancel' hcopiedLe, hout, List.length_drop, Nat.sub_mul]
      -- the first address that fails ends the batch
      have hstops : copied.length / size < batch →
          readEach memory size addrs out =
            ((writeFront out copied).take ((copied.length / size + 1) * size) ++
                (readBatches memory size turns (addrs.drop (copied.length / size + 1))
                  ((writeFront out copied).drop ((copied.length / size + 1) * size))).1,
              List.replicate (copied.length / size) true ++ false ::
                (readBatches memory size turns (addrs.drop (copied.length / size + 1))
                  ((writeFront out copied).drop ((copied.length / size + 1) * size))).2) := by
        intro hlt
        have hfront := hfails hlt _ (htakeLength _ (by omega))
        rw [List.take_take, Nat.min_eq_left (by omega)] at hfront
        have hshort : copied.length ≤ (copied.length / size + 1) * size := by
          rw [Nat.mul_comm]
          exact (Nat.lt_mul_div_succ copied.length hsize).le
        rw [readEach_front (by omega) hshort hfront, hnext _ (Nat.succ_pos _) (by omega),
          List.append_assoc, List.singleton_append]
      split_ifs with hnone hpart
      · have hzero : copied.length / size = 0 := by
          rw [hnone, List.length_nil, Nat.zero_div]
        rw [hstops (by omega), hzero, Nat.zero_add, Nat.one_mul]
        rfl
      · rw [Nat.min_eq_left hbound] at hpart ⊢
        exact (hstops hpart).symm
      · rw [Nat.min_eq_left hbound] at hpart ⊢
        have hall : copied.length / size = batch := by omega
        have hfront := hdone hall _ (htakeLength batch hbatchLe)
        rw [hall] at hfront ⊢
        rw [readEach_front hbatchLe hlength hfront, hnext batch hbatchPos hbatchLe]

/-- The flags say which values the default `readMany` has. -/
theorem readMany_isSome (proc : ProcessHandle) (size : ℕ) (addrs : List ℕ) (out : List UInt8) :
    (proc.readMany addrs size).map Option.isSome = (readEach proc.memory size addrs out).2 := by
  induction addrs generalizing out with
  | nil => rfl
  | cons addr rest ih =>
    rw [ProcessHandle.readMany, List.map_cons, List.map_cons, ← ProcessHandle.readMany, ih, readEach]
    refine congrArg (· :: _) ?_
    unfold ProcessHandle.read
    dsimp only
    by_cases hnone : size ≠ 0 ∧ readPrefix proc.memory addr size = []
    · rw [if_pos hnone, hnone.2, List.length_nil, decide_eq_false (Ne.symm hnone.1)]
      rfl
    · rw [if_neg hnone]
      dsimp only
      split_ifs with hfull
      · exact (decide_eq_true hfull).symm
      · exact (decide_eq_false hfull).symm

/-! ### Spans -/

/-- The first byte that a short transfer lacks cannot be read. -/
theorem eq_none_of_short {address n : ℕ} (hshort : (readPrefix memory address n).length < n) :
    memory (address + (readPrefix memory address n).length) = none := by
  induction n generalizing address with
  | zero => exact absurd hshort (Nat.not_lt_zero _)
  | succ n ih =>
    rw [readPrefix] at hshort ⊢
    cases hbyte : memory address with
    | none => exact hbyte
    | some byte =>
      rw [hbyte] at hshort
      dsimp only at hshort ⊢
      rw [List.length_cons] at hshort ⊢
      rw [Nat.add_comm _ 1, ← Nat.add_assoc]
      exact ih (by omega)

theorem short_of_eq_none {address n offset : ℕ} (hoffset : offset < n)
    (hnone : memory (address + offset) = none) : (readPrefix memory address n).length < n := by
  refine lt_of_le_of_ne (length_readPrefix_le memory address n) fun hfull ↦ ?_
  have := (length_readPrefix_eq_iff memory address n).mp hfull offset hoffset
  rw [hnone] at this
  exact absurd this (by decide)

/-- Memory is mapped by pages, which are larger than the gaps. -/
structure Paged (memory : ℕ → Option UInt8) (pageSize : ℕ) : Prop where
  large : maxGap < pageSize
  whole : ∀ first second, first / pageSize = second / pageSize →
    ((memory first).isSome ↔ (memory second).isSome)

/-- Behind readable memory, what cannot be read begins a page. -/
theorem Paged.none_of_gap {pageSize : ℕ} (h : Paged memory pageSize) {hole addr : ℕ}
    (hbefore : (memory hole).isSome) (hnone : memory (hole + 1) = none) (hle : hole + 1 ≤ addr)
    (hgap : addr ≤ hole + 1 + maxGap) : memory addr = none := by
  have hlarge := h.large
  have hpos : 0 < pageSize := by omega
  -- otherwise both bytes lie in one page
  have hstart : (hole + 1) % pageSize = 0 := by
    by_contra hinside
    have hsame : hole / pageSize = (hole + 1) / pageSize := by
      rw [Nat.succ_div_of_not_dvd fun hdvd ↦ hinside (Nat.mod_eq_zero_of_dvd hdvd)]
    have := (h.whole hole (hole + 1) hsame).mp hbefore
    rw [hnone] at this
    exact absurd this (by decide)
  have hpage : addr / pageSize = (hole + 1) / pageSize := by
    obtain ⟨page, hpage⟩ := Nat.dvd_of_mod_eq_zero hstart
    rw [hpage, Nat.mul_div_cancel_left page hpos]
    refine Nat.div_eq_of_lt_le ?_ ?_
    · rw [Nat.mul_comm]
      omega
    · rw [Nat.succ_mul, Nat.mul_comm]
      omega
  have := (h.whole addr (hole + 1) hpage).not.mpr (by rw [hnone]; decide)
  exact Option.not_isSome_iff_eq_none.mp this

/-- Neighbours in a dense cluster. -/
def Close (size prev addr : ℕ) : Prop := prev ≤ addr ∧ addr ≤ prev + size + maxGap

theorem isChain_of_isDense {addrs : List ℕ} (h : isDense size addrs = true) :
    addrs.IsChain (Close size) := by
  induction addrs with
  | nil => exact List.IsChain.nil
  | cons prev rest ih =>
    cases rest with
    | nil => exact List.IsChain.singleton prev
    | cons addr others =>
      rw [isDense] at h
      split_ifs at h with hfar
      refine List.isChain_cons_cons.mpr ⟨?_, ih h⟩
      unfold Close
      omega

theorem pairwise_of_isDense {addrs : List ℕ} (h : isDense size addrs = true) :
    addrs.Pairwise (· ≤ ·) :=
  List.isChain_iff_pairwise.mp ((isChain_of_isDense h).imp fun _ _ hclose ↦ hclose.1)

/-- Behind the addresses whose values are in the span stands one that cannot be read. -/
theorem short_behind_span {pageSize : ℕ} (hpaged : Paged memory pageSize) {first n : ℕ}
    {front behind : List ℕ} {addr : ℕ} (hdense : isDense size (front ++ addr :: behind) = true)
    (hhead : (front ++ addr :: behind).headD 0 = first)
    (hshort : (readPrefix memory first n).length < n)
    (hfront : ∀ earlier ∈ front, earlier - first + size ≤ (readPrefix memory first n).length)
    (haddr : (readPrefix memory first n).length < addr - first + size) (hsize : 0 < size) :
    (readPrefix memory addr size).length < size := by
  have hnone := eq_none_of_short hshort
  set got := (readPrefix memory first n).length with hgot
  have hsorted := pairwise_of_isDense hdense
  rcases List.eq_nil_or_concat front with rfl | ⟨others, prev, rfl⟩
  · obtain rfl : addr = first := hhead
    exact short_of_eq_none (by omega) hnone
  rw [List.concat_eq_append] at hdense hhead hfront hsorted
  have hclose : Close size prev addr := by
    have hchain := isChain_of_isDense hdense
    rw [List.append_assoc, List.singleton_append] at hchain
    exact (List.isChain_cons_cons.mp (List.isChain_append.mp hchain).2.1).1
  have hprev := hfront prev (by simp)
  have hfirst : first ≤ prev := by
    rw [List.append_assoc, List.singleton_append] at hhead hsorted
    cases others with
    | nil => exact (show prev = first from hhead).ge
    | cons head more =>
      obtain rfl : head = first := hhead
      exact (List.pairwise_cons.mp hsorted).1 prev (by simp)
  obtain ⟨hle, hgap⟩ := hclose
  by_cases hinside : addr ≤ first + got
  · refine @short_of_eq_none memory addr size (first + got - addr) (by omega) ?_
    rw [Nat.add_sub_cancel' hinside]
    exact hnone
  · have hbefore : (memory (first + got - 1)).isSome := by
      have hbyte := @getElem?_readPrefix memory first n (got - 1) (by omega)
      rw [show first + (got - 1) = first + got - 1 by omega] at hbyte
      rw [← hbyte, List.getElem?_eq_getElem (by omega)]
      rfl
    have hgone := @Paged.none_of_gap memory pageSize hpaged (first + got - 1) addr hbefore
      (by rw [show first + got - 1 + 1 = first + got by omega]; exact hnone) (by omega) (by omega)
    exact @short_of_eq_none memory addr size 0 hsize hgone

theorem length_values {addrs : List ℕ}
    (haddrs : ∀ addr ∈ addrs, (readPrefix memory addr size).length = size) :
    (addrs.flatMap (readPrefix memory · size)).length = addrs.length * size := by
  induction addrs with
  | nil => exact (Nat.zero_mul size).symm
  | cons addr rest ih =>
    rw [List.flatMap_cons, List.length_append, haddrs addr List.mem_cons_self,
      ih fun later hlater ↦ haddrs later (List.mem_cons_of_mem _ hlater), List.length_cons,
      Nat.add_mul, Nat.one_mul, Nat.add_comm]

/-- Addresses that can all be read leave their values. -/
theorem readEach_full {addrs : List ℕ} {out : List UInt8}
    (haddrs : ∀ addr ∈ addrs, (readPrefix memory addr size).length = size)
    (hout : out.length = addrs.length * size) :
    readEach memory size addrs out =
      (addrs.flatMap (readPrefix memory · size), List.replicate addrs.length true) := by
  induction addrs generalizing out with
  | nil =>
    obtain rfl := List.length_eq_zero_iff.mp (hout.trans (Nat.zero_mul size))
    rfl
  | cons addr rest ih =>
    have hfull := haddrs addr List.mem_cons_self
    have hrest : (out.drop size).length = rest.length * size := by
      rw [List.length_drop, hout, List.length_cons, Nat.add_mul, Nat.one_mul, Nat.add_sub_cancel]
    have hnone : (out.take size).drop size = [] :=
      List.drop_of_length_le (by rw [List.length_take]; omega)
    rw [readEach, ih (fun later hlater ↦ haddrs later (List.mem_cons_of_mem _ hlater)) hrest,
      decide_eq_true hfull, writeFront, hfull, hnone, List.append_nil, List.flatMap_cons,
      List.length_cons, List.replicate_succ]

/-- The element at which `takeWhile` stops. -/
theorem takeWhile_cut {α : Type} {p : α → Bool} {l : List α}
    (h : (l.takeWhile p).length < l.length) :
    ∃ a rest, l = l.takeWhile p ++ a :: rest ∧ p a = false := by
  induction l with
  | nil => exact absurd h (Nat.lt_irrefl 0)
  | cons head tail ih =>
    by_cases hp : p head = true
    · rw [List.takeWhile_cons, if_pos hp, List.length_cons, List.length_cons] at h
      obtain ⟨a, rest, hcut, hstop⟩ := ih (by omega)
      refine ⟨a, rest, ?_, hstop⟩
      rw [List.takeWhile_cons, if_pos hp, List.cons_append, ← hcut]
    · refine ⟨head, tail, ?_, Bool.eq_false_iff.mpr hp⟩
      rw [List.takeWhile_cons, if_neg hp, List.nil_append]

theorem le_getLastD {l : List ℕ} (hsorted : l.Pairwise (· ≤ ·)) {a : ℕ} (ha : a ∈ l) :
    a ≤ l.getLastD 0 := by
  induction l generalizing a with
  | nil => exact absurd ha List.not_mem_nil
  | cons head tail ih =>
    obtain ⟨hhead, htail⟩ := List.pairwise_cons.mp hsorted
    cases tail with
    | nil => exact (List.mem_singleton.mp ha).le
    | cons next more =>
      rcases List.mem_cons.mp ha with rfl | hlater
      · exact (hhead next List.mem_cons_self).trans (ih htail List.mem_cons_self)
      · exact ih htail hlater

/-- The bytes of the value at an index. -/
def slotAt (size : ℕ) (out : List UInt8) (i : ℕ) : List UInt8 := (out.drop (i * size)).take size

/-- Behind whole values, the slots are those of what follows. -/
theorem slotAt_append (front back : List UInt8) {n i : ℕ} (hfront : front.length = n * size) :
    slotAt size (front ++ back) i = if i < n then slotAt size front i else slotAt size back (i - n) := by
  unfold slotAt
  split_ifs with hi
  · have hle : (i + 1) * size ≤ n * size := Nat.mul_le_mul_right size hi
    rw [Nat.add_mul, Nat.one_mul] at hle
    rw [List.drop_append_of_le_length (by omega), List.take_append_of_le_length]
    rw [List.length_drop]
    omega
  · rw [List.drop_append, List.drop_of_length_le, List.nil_append, hfront, Nat.sub_mul]
    rw [hfront]
    exact Nat.mul_le_mul_right size (by omega)

/-- Whether the flags and slots agree but for the slot of the first address of a span that cannot be
read, which keeps its bytes. -/
def Agrees (size : ℕ) (span : Bool) (out : List UInt8) (linux each : List UInt8 × List Bool) : Prop :=
  linux.2 = each.2 ∧ ∀ i, slotAt size linux.1 i = slotAt size each.1 i ∨
    span = true ∧ each.2[i]? = some false ∧ (∀ j < i, each.2[j]? = some true) ∧
      slotAt size linux.1 i = slotAt size out i

theorem Agrees.refl (size : ℕ) (span : Bool) (out : List UInt8) (result : List UInt8 × List Bool) :
    Agrees size span out result result := ⟨rfl, fun _ ↦ Or.inl rfl⟩

/-- A dense cluster begins with its least address. -/
theorem headD_le_of_isDense {size : ℕ} {addrs : List ℕ} (hdense : isDense size addrs = true)
    {addr : ℕ} (haddr : addr ∈ addrs) : addrs.headD 0 ≤ addr := by
  have hsorted := pairwise_of_isDense hdense
  cases addrs with
  | nil => exact absurd haddr List.not_mem_nil
  | cons head rest =>
    rw [List.headD_cons]
    rcases List.mem_cons.mp haddr with rfl | hrest
    · exact le_rfl
    · exact (List.pairwise_cons.mp hsorted).1 addr hrest

/-- The batched read agrees with reading each address on its own. -/
theorem linuxReadMany_agrees {pageSize : ℕ} (hpaged : Paged memory pageSize) (hsize : 0 < size)
    {addrs : List ℕ} {out : List UInt8} (hout : out.length = addrs.length * size) :
    Agrees size (readsSpan size addrs) out (linuxReadMany memory size addrs out)
      (readEach memory size addrs out) := by
  unfold linuxReadMany
  rw [if_neg (by omega : ¬size = 0)]
  split_ifs with hspan
  swap
  · rw [readBatches_eq hsize le_rfl hout]
    exact Agrees.refl _ _ _ _
  have hdense : isDense size addrs = true := (Bool.and_eq_true_iff.mp hspan).2
  dsimp only
  set first := addrs.headD 0 with hfirst
  set scratch := readPrefix memory first (spanOf size addrs) with hscratch
  set read := inSpan first size scratch.length addrs with hread
  have hsorted := pairwise_of_isDense hdense
  have hlow : ∀ addr ∈ addrs, first ≤ addr := fun addr haddr ↦ headD_le_of_isDense hdense haddr
  have hinside : ∀ addr ∈ read, addr - first + size ≤ scratch.length := by
    intro addr haddr
    have := List.mem_takeWhile_imp haddr
    exact of_decide_eq_true this
  have hmem : ∀ addr ∈ read, addr ∈ addrs := fun addr haddr ↦
    (List.takeWhile_prefix _).subset haddr
  have hslice : ∀ addr ∈ read, (scratch.drop (addr - first)).take size =
      readPrefix memory addr size := by
    intro addr haddr
    have := hlow addr (hmem addr haddr)
    rw [hscratch, slice_readPrefix (hinside addr haddr), Nat.add_sub_cancel' this]
  have hfullRead : ∀ addr ∈ read, (readPrefix memory addr size).length = size := by
    intro addr haddr
    have := hinside addr haddr
    rw [← hslice addr haddr, List.length_take, List.length_drop]
    omega
  have hvalues : (read.flatMap fun addr ↦ (scratch.drop (addr - first)).take size) =
      read.flatMap (readPrefix memory · size) := List.flatMap_congr hslice
  rw [hvalues]
  by_cases hall : read.length = addrs.length
  · have hsame : read = addrs := (List.takeWhile_prefix _).eq_of_length hall
    rw [if_pos hall, hsame, ← readEach_full (by rw [← hsame]; exact hfullRead) hout]
    exact Agrees.refl _ _ _ _
  rw [if_neg hall]
  obtain ⟨addr, others, hcut, hstop⟩ := takeWhile_cut
    (lt_of_le_of_ne (List.takeWhile_prefix _).length_le hall)
  have hfails : scratch.length < addr - first + size := by
    rw [decide_eq_false_iff_not] at hstop
    omega
  rw [show List.takeWhile _ addrs = read from rfl] at hcut
  have hlow' : first ≤ addr := hlow addr (by rw [hcut]; simp)
  -- not even the span was read as a whole
  have hshort : scratch.length < spanOf size addrs := by
    have hlast := le_getLastD hsorted (show addr ∈ addrs by rw [hcut]; simp)
    unfold spanOf
    rw [← hfirst]
    omega
  have hgot : (readPrefix memory addr size).length < size :=
    short_behind_span hpaged (hcut ▸ hdense) (hcut ▸ hfirst.symm) hshort hinside hfails hsize
  set k := read.length with hk
  have hlength : addrs.length = k + 1 + others.length := by
    rw [hcut, List.length_append, List.length_cons]
    omega
  have hothers : addrs.drop (k + 1) = others := by
    conv_lhs => rw [hcut]
    rw [← List.drop_drop, List.drop_left' hk.symm]
    rfl
  have houtOthers : (out.drop ((k + 1) * size)).length = others.length * size := by
    rw [List.length_drop, hout, hlength, Nat.add_mul (k + 1), Nat.add_sub_cancel_left]
  have hnext : k * size + size = (k + 1) * size := by rw [Nat.add_mul, Nat.one_mul]
  have htakeOut : (out.take (k * size)).length = k * size := by
    rw [List.length_take, hout]
    exact Nat.min_eq_left (Nat.mul_le_mul_right size (by omega))
  have hslot : ((out.drop (k * size)).take size).length = size := by
    rw [List.length_take, List.length_drop, hout, hlength, Nat.add_mul, Nat.add_mul, Nat.one_mul]
    omega
  set values := read.flatMap (readPrefix memory · size) with hvaluesEq
  have hfront : readEach memory size read (out.take (k * size)) =
      (values, List.replicate k true) := readEach_full hfullRead htakeOut
  have hvaluesLength : values.length = k * size := length_values hfullRead
  set later := readEach memory size others (out.drop ((k + 1) * size)) with hlater
  have heach : readEach memory size addrs out =
      (values ++ (writeFront ((out.drop (k * size)).take size) (readPrefix memory addr size) ++
        later.1), List.replicate k true ++ false :: later.2) := by
    conv_lhs => rw [hcut]
    rw [readEach_append, ← hk, hfront, readEach, decide_eq_false (by omega), List.drop_drop, hnext]
  have hlinux : readBatches memory size (addrs.length - (k + 1)) (addrs.drop (k + 1))
      (out.drop ((k + 1) * size)) = later := by
    rw [hothers, readBatches_eq hsize (by omega) houtOthers]
  rw [hlinux, heach]
  refine ⟨rfl, fun i ↦ ?_⟩
  dsimp only
  rw [List.append_assoc]
  rw [slotAt_append _ _ hvaluesLength, slotAt_append values _ hvaluesLength]
  have hone : ((out.drop (k * size)).take size).length = 1 * size := hslot.trans (Nat.one_mul size).symm
  have hwritten : (writeFront ((out.drop (k * size)).take size)
      (readPrefix memory addr size)).length = 1 * size := by
    rw [writeFront, List.length_append, List.length_drop, hslot, Nat.one_mul,
      Nat.add_sub_cancel' hgot.le]
  split_ifs with hi
  · exact Or.inl rfl
  by_cases heq : i = k
  · subst heq
    refine Or.inr ⟨hspan, ?_, fun j hj ↦ ?_, ?_⟩
    · rw [List.getElem?_append_right (by rw [List.length_replicate]), List.length_replicate,
        Nat.sub_self]
      rfl
    · rw [List.getElem?_append_left (by rw [List.length_replicate]; exact hj),
        List.getElem?_replicate_of_lt hj]
    · rw [Nat.sub_self, slotAt_append _ _ hone, if_pos Nat.one_pos, slotAt, Nat.zero_mul,
        List.drop_zero, List.take_take, Nat.min_self]
      rfl
  · rw [slotAt_append _ _ hone, slotAt_append _ _ hwritten, if_neg (by omega), if_neg (by omega)]
    exact Or.inl rfl

/-- For elements of at least a byte, memory mapped by pages larger than the gaps and a buffer of the
right size, the batched read sets the flags of reading each address on its own and fills the same
bytes for every address that is read; and for the others too, but for the first of a span. -/
theorem linuxReadMany_eq {memory : ℕ → Option UInt8} {pageSize size : ℕ}
    (hpaged : Paged memory pageSize) (hsize : 0 < size) {addrs : List ℕ} {out : List UInt8}
    (hout : out.length = addrs.length * size) :
    (linuxReadMany memory size addrs out).2 = (readEach memory size addrs out).2 ∧
      (∀ i, (readEach memory size addrs out).2[i]? = some true →
        slotAt size (linuxReadMany memory size addrs out).1 i =
          slotAt size (readEach memory size addrs out).1 i) ∧
      Agrees size (readsSpan size addrs) out (linuxReadMany memory size addrs out)
        (readEach memory size addrs out) := by
  have hagrees := linuxReadMany_agrees hpaged hsize hout
  refine ⟨hagrees.1, fun i hread ↦ ?_, hagrees⟩
  rcases hagrees.2 i with hsame | ⟨-, hfailed, -⟩
  · exact hsame
  · rw [hread] at hfailed
    exact absurd hfailed (by decide)

/-- Memory that ends at the first page. -/
def onePage (address : ℕ) : Option UInt8 := if address < 4096 then some 1 else none

theorem onePage_paged : Paged onePage 4096 := by
  refine ⟨by decide, fun first second hsame ↦ ?_⟩
  have hlow : ∀ address, (onePage address).isSome ↔ address / 4096 = 0 := by
    intro address
    unfold onePage
    split_ifs with hlt
    · exact ⟨fun _ ↦ Nat.div_eq_of_lt hlt, fun _ ↦ rfl⟩
    · refine ⟨fun h ↦ absurd h (by decide), fun hzero ↦ ?_⟩
      omega
  rw [hlow, hlow, hsame]

theorem linuxReadMany_eq_one :
    (linuxReadMany onePage 4 [4094, 8] (List.replicate 8 0)).2 =
      (readEach onePage 4 [4094, 8] (List.replicate 8 0)).2 :=
  (linuxReadMany_eq onePage_paged (by decide) (by decide)).1

/-- The last of eight values lies on the border of the page: read on its own, it leaves its two
bytes in front of the border. And a value of no bytes is read on its own only. -/
theorem linuxReadMany_differs :
    slotAt 4 (linuxReadMany onePage 4 [4059, 4064, 4069, 4074, 4079, 4084, 4089, 4094]
        (List.replicate 32 0)).1 7 = [0, 0, 0, 0] ∧
      slotAt 4 (readEach onePage 4 [4059, 4064, 4069, 4074, 4079, 4084, 4089, 4094]
        (List.replicate 32 0)).1 7 = [1, 1, 0, 0] ∧
      (linuxReadMany onePage 0 [8] []).2 = [false] ∧ (readEach onePage 0 [8] []).2 = [true] := by
  decide

end Cecore.Platform
