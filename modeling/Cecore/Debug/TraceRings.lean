import Cecore.Library.LittleEndian
import Cecore.Library.RingBuffer

/-!
# Draining trace rings

`LbrTracer::drain` walks over the records of a perf ring, `IntelPtTracer::drain` copies bytes out
of an AUX ring. Records and bytes may pass the end of the ring. The records come out as those of the
unwrapped stream (`drainLbr_eq`). The AUX ring has no protection against a producer that laps the
consumer: the copy then starts at the consumer's position, which is behind newer bytes
(`drains_unwrapped_iff`).
-/

set_option autoImplicit false
set_option relaxedAutoImplicit false

namespace Cecore.Debug

open Library.LittleEndian Library.RingBuffer

/-! ### Branch records -/

/-- The fields of `perf_event_header` that are read. -/
structure EventHeader where
  type : ℕ
  size : ℕ
  deriving DecidableEq, Repr

structure LbrEntry where
  fromAddr : ℕ
  toAddr : ℕ
  mispred : Bool
  predicted : Bool
  deriving DecidableEq, Repr

def headerSize : ℕ := 8
def branchEntrySize : ℕ := 24
def maxBranches : ℕ := 256
def scratchSize : ℕ := headerSize + 8 + maxBranches * branchEntrySize

/-- `PERF_RECORD_SAMPLE`. -/
def recordSample : ℕ := 9

def eventHeader (bytes : List UInt8) : EventHeader :=
  ⟨leNat (bytes.take 4), leNat ((bytes.drop 6).take 2)⟩

/-- A `perf_branch_entry`, whose flags are the lowest bits of its last word. -/
def branchEntry (bytes : List UInt8) : LbrEntry :=
  let flags := leNat ((bytes.drop 16).take 8)
  ⟨leNat (bytes.take 8), leNat ((bytes.drop 8).take 8), flags.testBit 0, flags.testBit 1⟩

/-- The entries of a sample of `size` bytes that was copied to the front of `scratch`. -/
def sampleEntries (size : ℕ) (scratch : List UInt8) : List LbrEntry :=
  let nr := leNat ((scratch.drop headerSize).take 8)
  if nr ≤ maxBranches ∧ headerSize + 8 + nr * branchEntrySize ≤ size then
    (List.range nr).map fun i ↦ branchEntry (scratch.drop (headerSize + 8 + i * branchEntrySize))
  else []

/-- The loop of `LbrTracer::drain`: the entries and the tail it stops at. A record has at least a
header, so as many turns as there are bytes are enough. -/
def drainRecords (data : List UInt8) (head : ℕ) :
    (turns tail : ℕ) → (scratch : List UInt8) → List LbrEntry × ℕ
  | 0, tail, _ => ([], tail)
  | turns + 1, tail, scratch =>
    if tail < head then
      let avail := head - tail
      if avail < headerSize then ([], tail)
      else
        let hdr := eventHeader (copyFrom data tail headerSize)
        if hdr.size < headerSize ∨ data.length < hdr.size ∨ avail < hdr.size then ([], tail)
        else if hdr.type = recordSample ∧ hdr.size ≤ scratchSize then
          -- what an earlier record left in the scratch buffer stays behind this one
          let scratch := copyFrom data tail hdr.size ++ scratch.drop hdr.size
          let rest := drainRecords data head turns (tail + hdr.size) scratch
          (sampleEntries hdr.size scratch ++ rest.1, rest.2)
        else drainRecords data head turns (tail + hdr.size) scratch
    else ([], tail)

/-- `LbrTracer::drain` with the ring's data pages, and what is in its uninitialised buffer. -/
def drainLbr (data : List UInt8) (head tail : ℕ) (scratch : List UInt8) : List LbrEntry × ℕ :=
  drainRecords data head (head - tail) tail scratch

/-- `IntelPtTracer::drain`: the bytes and the tail it leaves. -/
def drainPt (aux : List UInt8) (head tail : ℕ) : List UInt8 × ℕ :=
  if head ≤ tail then ([], tail)
  else
    let available := if aux.length < head - tail then aux.length else head - tail
    let start := tail % aux.length
    if start + available ≤ aux.length then ((aux.drop start).take available, head)
    else
      let first := aux.length - start
      ((aux.drop start).take first ++ aux.take (available - first), head)

/-! ### The unwrapped stream -/

/-- The records at the front of a stream, each as long as its header says; `turns` bounds them. -/
def recordsFrom : (turns : ℕ) → List UInt8 → List (List UInt8)
  | 0, _ => []
  | turns + 1, bytes =>
    if bytes.length < headerSize then []
    else
      let size := (eventHeader bytes).size
      if size < headerSize ∨ bytes.length < size then []
      else bytes.take size :: recordsFrom turns (bytes.drop size)

def records (bytes : List UInt8) : List (List UInt8) := recordsFrom bytes.length bytes

/-- A record has a whole header, which says how long it is. -/
def IsRecord (record : List UInt8) : Prop :=
  headerSize ≤ record.length ∧ (eventHeader record).size = record.length

/-- The branches of one record. -/
def recordEntries (record : List UInt8) : List LbrEntry :=
  if (eventHeader record).type = recordSample ∧ record.length ≤ scratchSize then
    sampleEntries record.length record
  else []

/-- The last bytes of a stream that the consumer has not seen, at most as many as the ring holds. -/
def newest (stream : ℕ → UInt8) (size head tail : ℕ) : List UInt8 :=
  stretch stream (head - min (head - tail) size) (min (head - tail) size)

/-! ### Records -/

/-- A slice of a text is a slice of what the text is in front of. -/
theorem slice_append {bytes rest : List UInt8} {pos count : ℕ} (h : pos + count ≤ bytes.length) :
    ((bytes ++ rest).drop pos).take count = (bytes.drop pos).take count := by
  rw [List.drop_append_of_le_length (by omega), List.take_append_of_le_length]
  rw [List.length_drop]
  omega

theorem eventHeader_append {bytes rest : List UInt8} (h : headerSize ≤ bytes.length) :
    eventHeader (bytes ++ rest) = eventHeader bytes := by
  have hlength : 8 ≤ bytes.length := h
  have htype := @slice_append bytes rest 0 4 (by omega)
  rw [List.drop_zero, List.drop_zero] at htype
  rw [eventHeader, eventHeader, htype, slice_append (by omega)]

theorem branchEntry_append {bytes rest : List UInt8} (h : branchEntrySize ≤ bytes.length) :
    branchEntry (bytes ++ rest) = branchEntry bytes := by
  have hlength : 24 ≤ bytes.length := h
  have hfrom := @slice_append bytes rest 0 8 (by omega)
  rw [List.drop_zero, List.drop_zero] at hfrom
  rw [branchEntry, branchEntry, hfrom, slice_append (by omega), slice_append (by omega)]

/-- What is behind a record in the scratch buffer is not looked at. -/
theorem sampleEntries_append (record stale : List UInt8) :
    sampleEntries record.length (record ++ stale) = sampleEntries record.length record := by
  unfold sampleEntries
  dsimp only
  by_cases hlength : headerSize + 8 ≤ record.length
  · rw [slice_append hlength]
    split_ifs with hfits
    · refine List.map_congr_left fun i hi ↦ ?_
      have hi := List.mem_range.mp hi
      have hmul : (i + 1) * branchEntrySize ≤ leNat ((record.drop headerSize).take 8) *
          branchEntrySize := Nat.mul_le_mul_right _ hi
      rw [Nat.succ_mul] at hmul
      rw [List.drop_append_of_le_length (by omega), branchEntry_append]
      rw [List.length_drop]
      omega
    · rfl
  · rw [if_neg (by omega), if_neg (by omega)]

/-- Enough turns give every record. -/
theorem recordsFrom_eq {turns more : ℕ} {bytes : List UInt8} (hturns : bytes.length ≤ turns)
    (hmore : bytes.length ≤ more) : recordsFrom turns bytes = recordsFrom more bytes := by
  induction turns generalizing more bytes with
  | zero =>
    have hnil : bytes = [] := List.length_eq_zero_iff.mp (by omega)
    subst hnil
    cases more <;> rfl
  | succ turns ih =>
    cases more with
    | zero =>
      have hnil : bytes = [] := List.length_eq_zero_iff.mp (by omega)
      subst hnil
      rfl
    | succ more =>
      rw [recordsFrom, recordsFrom]
      dsimp only
      split_ifs with hshort hsize
      · rfl
      · rfl
      · have hpos : 0 < (eventHeader bytes).size := by
          have h8 : headerSize = 8 := rfl
          omega
        rw [@ih more] <;> rw [List.length_drop] <;> omega

theorem length_flatten_recordsFrom (turns : ℕ) (bytes : List UInt8) :
    (recordsFrom turns bytes).flatten.length ≤ bytes.length := by
  induction turns generalizing bytes with
  | zero => exact Nat.zero_le _
  | succ turns ih =>
    rw [recordsFrom]
    dsimp only
    split_ifs with hshort hsize
    · exact Nat.zero_le _
    · exact Nat.zero_le _
    · have hrest := ih (bytes.drop (eventHeader bytes).size)
      rw [List.length_drop] at hrest
      rw [List.flatten_cons, List.length_append, List.length_take]
      omega

/-- A stream that is put together from records falls into these records. -/
theorem records_flatten {parts : List (List UInt8)} (h : ∀ record ∈ parts, IsRecord record) :
    records parts.flatten = parts := by
  induction parts with
  | nil => rfl
  | cons record rest ih =>
    obtain ⟨hlength, hsize⟩ := h record List.mem_cons_self
    have hheader : (eventHeader (record ++ rest.flatten)).size = record.length := by
      rw [eventHeader_append hlength, hsize]
    have hrest := ih fun other hother ↦ h other (List.mem_cons_of_mem _ hother)
    have h8 : headerSize = 8 := rfl
    rw [List.flatten_cons, records,
      @recordsFrom_eq _ ((record ++ rest.flatten).length + 1) _ le_rfl (Nat.le_succ _), recordsFrom]
    dsimp only
    rw [hheader, List.take_left, List.drop_left, if_neg (by rw [List.length_append]; omega),
      if_neg (by rw [List.length_append]; omega)]
    rw [@recordsFrom_eq _ rest.flatten.length _ (by rw [List.length_append]; omega) le_rfl]
    exact congrArg (record :: ·) hrest

/-! ### The perf ring -/

/-- A header is read from the front of a stretch. -/
theorem eventHeader_stretch {stream : ℕ → UInt8} {pos count more : ℕ} (hcount : headerSize ≤ count)
    (hmore : count ≤ more) :
    eventHeader (stretch stream pos count) = eventHeader (stretch stream pos more) := by
  obtain ⟨rest, rfl⟩ := Nat.exists_eq_add_of_le hmore
  rw [stretch_add, eventHeader_append]
  rwa [length_stretch]

/-- The loop gives the records of the stream in front of the head. -/
theorem drainRecords_eq {data : List UInt8} {stream : ℕ → UInt8} {low head : ℕ}
    (hdata : Holds data stream low head) (turns : ℕ) {tail : ℕ} (hlow : low ≤ tail)
    (htail : tail ≤ head) (hfits : head - tail ≤ data.length) (hturns : head - tail ≤ turns)
    (scratch : List UInt8) :
    drainRecords data head turns tail scratch =
      ((records (stretch stream tail (head - tail))).flatMap recordEntries,
        tail + (records (stretch stream tail (head - tail))).flatten.length) := by
  induction turns generalizing tail scratch with
  | zero =>
    have hnone : head - tail = 0 := by omega
    rw [hnone]
    rfl
  | succ turns ih =>
    have h8 : headerSize = 8 := rfl
    set avail := head - tail with havail
    rw [drainRecords]
    by_cases hlt : tail < head
    case neg =>
      have hnone : avail = 0 := by omega
      rw [if_neg hlt, hnone]
      rfl
    rw [if_pos hlt]
    dsimp only
    rw [← havail, records, @recordsFrom_eq _ (avail + 1) _ le_rfl (by simp), recordsFrom]
    dsimp only
    rw [length_stretch]
    by_cases hshort : avail < headerSize
    · rw [if_pos hshort, if_pos hshort]
      rfl
    rw [if_neg hshort, if_neg hshort]
    have hcopy : ∀ count, count ≤ avail → copyFrom data tail count = stretch stream tail count :=
      fun count hcount ↦ copyFrom_eq_stretch hdata (by omega) hlow (by omega)
    rw [hcopy headerSize (by omega), eventHeader_stretch le_rfl (by omega : headerSize ≤ avail)]
    set hdr := eventHeader (stretch stream tail avail) with hhdr
    by_cases hsize : hdr.size < headerSize ∨ avail < hdr.size
    · rw [if_pos (by omega), if_pos hsize]
      rfl
    rw [if_neg (by omega), if_neg hsize, take_stretch stream tail (by omega),
      drop_stretch stream tail (by omega), @recordsFrom_eq _ (avail - hdr.size) _ (by simp)
        (by simp)]
    have hrecord := hcopy hdr.size (by omega)
    have hrecordHeader : eventHeader (stretch stream tail hdr.size) = hdr :=
      eventHeader_stretch (by omega) (by omega)
    have hnext : head - (tail + hdr.size) = avail - hdr.size := by omega
    have hrest := fun scratch ↦ @ih (tail + hdr.size) (by omega) (by omega) (by omega) (by omega)
      scratch
    rw [hnext, records, length_stretch] at hrest
    rw [List.flatMap_cons, List.flatten_cons, List.length_append, length_stretch, recordEntries,
      hrecordHeader, length_stretch]
    by_cases hsample : hdr.type = recordSample ∧ hdr.size ≤ scratchSize
    · rw [if_pos hsample, if_pos hsample, hrest, hrecord]
      have hentries := sampleEntries_append (stretch stream tail hdr.size) (scratch.drop hdr.size)
      rw [length_stretch] at hentries
      rw [hentries, Nat.add_assoc]
    · rw [if_neg hsample, if_neg hsample, hrest, List.nil_append, Nat.add_assoc]

/-- The entries and the tail that draining gives are those of the unwrapped stream. -/
theorem drainLbr_eq {data : List UInt8} {stream : ℕ → UInt8} {head tail : ℕ}
    (hdata : Holds data stream tail head) (htail : tail ≤ head)
    (hfits : head - tail ≤ data.length) (scratch : List UInt8) :
    drainLbr data head tail scratch =
      ((records (stretch stream tail (head - tail))).flatMap recordEntries,
        tail + (records (stretch stream tail (head - tail))).flatten.length) :=
  drainRecords_eq hdata (head - tail) le_rfl htail hfits le_rfl scratch

theorem drainLbr_tail_le {data : List UInt8} {stream : ℕ → UInt8} {head tail : ℕ}
    (hdata : Holds data stream tail head) (htail : tail ≤ head)
    (hfits : head - tail ≤ data.length) (scratch : List UInt8) :
    (drainLbr data head tail scratch).2 ≤ head := by
  have hlength := length_flatten_recordsFrom (stretch stream tail (head - tail)).length
    (stretch stream tail (head - tail))
  rw [length_stretch] at hlength
  rw [drainLbr_eq hdata htail hfits, records, length_stretch]
  dsimp only
  omega

theorem drainLbr_flatten {data : List UInt8} {stream : ℕ → UInt8} {head tail : ℕ}
    (hdata : Holds data stream tail head) (htail : tail ≤ head)
    (hfits : head - tail ≤ data.length) (scratch : List UInt8) {parts : List (List UInt8)}
    (hparts : ∀ record ∈ parts, IsRecord record)
    (hstream : stretch stream tail (head - tail) = parts.flatten) :
    drainLbr data head tail scratch = (parts.flatMap recordEntries, head) := by
  have hlength := congrArg List.length hstream
  rw [length_stretch] at hlength
  rw [drainLbr_eq hdata htail hfits, hstream, records_flatten hparts, ← hlength,
    Nat.add_sub_cancel' htail]

/-! ### The AUX ring -/

/-- The bytes are those from the consumer's position on, as far as the ring goes. -/
theorem drainPt_eq {aux : List UInt8} (hsize : 0 < aux.length) {head tail : ℕ} (h : tail < head) :
    (drainPt aux head tail).1 = copyFrom aux tail (min (head - tail) aux.length) := by
  have hstart : tail % aux.length < aux.length := Nat.mod_lt tail hsize
  have havailable : (if aux.length < head - tail then aux.length else head - tail) =
      min (head - tail) aux.length := by
    split_ifs <;> omega
  rw [drainPt, if_neg (by omega), havailable]
  dsimp only
  unfold copyFrom
  dsimp only
  set start := tail % aux.length
  set available := min (head - tail) aux.length
  by_cases hfits : start + available ≤ aux.length
  · have hfirst : (if available < aux.length - start then available else aux.length - start) =
        available := by
      split_ifs <;> omega
    rw [if_pos hfits, hfirst, Nat.sub_self, List.take_zero, List.append_nil]
  · rw [if_neg hfits, if_neg (by omega)]

/-- A ring that was not lapped, or by whole rounds, gives the newest bytes in order. -/
theorem drainPt_newest {initial : List UInt8} (hsize : 0 < initial.length) (stream : ℕ → UInt8)
    {head tail : ℕ} (h : head - tail ≤ initial.length ∨ initial.length ∣ head - tail) :
    (drainPt (written initial stream head) head tail).1 =
      newest stream initial.length head tail := by
  have hholds := holds_written hsize stream head
  have hlength := length_written initial stream head
  by_cases hlt : tail < head
  case neg =>
    have hnone : min (head - tail) initial.length = 0 := by omega
    rw [drainPt, if_pos (by omega), newest, hnone]
    rfl
  rw [drainPt_eq (by omega) hlt, hlength, newest]
  by_cases hfits : head - tail ≤ initial.length
  · rw [Nat.min_eq_left hfits, show head - (head - tail) = tail by omega]
    exact copyFrom_eq_stretch hholds (by omega) (by omega) (by omega)
  · obtain ⟨rounds, hrounds⟩ := h.resolve_left hfits
    have hsame : (tail + initial.length * (rounds - 1)) % initial.length = tail % initial.length :=
      Nat.add_mul_mod_self_left _ _ _
    have hpos : 1 ≤ rounds := by
      rcases Nat.eq_zero_or_pos rounds with rfl | hpos
      · omega
      · exact hpos
    have hback : tail + initial.length * (rounds - 1) = head - initial.length := by
      rw [Nat.mul_sub_one]
      have hle := Nat.le_mul_of_pos_right initial.length hpos
      omega
    rw [Nat.min_eq_right (by omega), @copyFrom_congr _ _ tail (head - initial.length)]
    · exact copyFrom_eq_stretch hholds (by omega) le_rfl (by omega)
    · rw [hlength, ← hsame, hback]

/-- The stream that has a one at `place` only. -/
def oneAt (place : ℕ) : ℕ → UInt8 := fun pos ↦ if pos = place then 1 else 0

/-- A ring that was lapped by a part of a round gives another byte first. -/
theorem drainPt_ne_newest {initial : List UInt8} (hsize : 0 < initial.length) {head tail : ℕ}
    (hlapped : initial.length < head - tail) (hpart : ¬initial.length ∣ head - tail) :
    (drainPt (written initial (oneAt (head - initial.length)) head) head tail).1 ≠
      newest (oneAt (head - initial.length)) initial.length head tail := by
  intro heq
  set size := initial.length with hsizeEq
  set stream : ℕ → UInt8 := oneAt (head - size) with hstream
  have hlength := length_written initial stream head
  have hmin : min (head - tail) size = size := by omega
  -- the position that the ring holds where the consumer stands
  obtain ⟨pos, hcell, hlow, hhigh⟩ : ∃ pos, pos % size = tail % size ∧ head - size < pos ∧
      pos < head := by
    have hdivMod := Nat.div_add_mod (head - size - tail) size
    have hmodLt := Nat.mod_lt (head - size - tail) hsize
    have hmodPos : 0 < (head - size - tail) % size := by
      refine Nat.pos_of_ne_zero fun hzero ↦ hpart ?_
      rw [show head - tail = head - size - tail + size by omega]
      exact Nat.dvd_add (Nat.dvd_of_mod_eq_zero hzero) dvd_rfl
    refine ⟨tail + size * ((head - size - tail) / size + 1), Nat.add_mul_mod_self_left _ _ _, ?_,
      ?_⟩
    · rw [Nat.mul_add_one]
      omega
    · rw [Nat.mul_add_one]
      omega
  have hfirst := congrArg (·[0]?) heq
  have hheld := holds_written hsize stream head pos hlow.le hhigh
  rw [hlength, ← hsizeEq, hcell] at hheld
  have hcopied := @getElem?_copyFrom _ (written initial stream head) tail size 0 (by omega) hsize
  rw [Nat.add_zero, hlength, ← hsizeEq, hheld] at hcopied
  have hexpected := @getElem?_stretch UInt8 stream (head - size) size 0 hsize
  rw [drainPt_eq (by omega) (by omega), hlength, newest, ← hsizeEq, hmin, hcopied, hexpected,
    Nat.add_zero] at hfirst
  have hvalue := Option.some.inj hfirst
  rw [hstream, oneAt, oneAt] at hvalue
  rw [if_neg (by omega), if_pos rfl] at hvalue
  exact absurd hvalue (by decide)

/-! ### Both drains -/

/-- The perf ring is drained like the unwrapped stream wherever its records lie, to its end if it
holds whole records. The AUX ring gives the newest bytes in order exactly if the producer has not
lapped the consumer, or by whole rounds. -/
theorem drains_unwrapped_iff (data : List UInt8) (stream : ℕ → UInt8) (head tail : ℕ)
    (scratch initial : List UInt8) (auxHead auxTail : ℕ) :
    (Holds data stream tail head → tail ≤ head → head - tail ≤ data.length →
      (drainLbr data head tail scratch).1 =
          (records (stretch stream tail (head - tail))).flatMap recordEntries ∧
        (drainLbr data head tail scratch).2 ≤ head ∧
        ∀ parts : List (List UInt8), (∀ record ∈ parts, IsRecord record) →
          stretch stream tail (head - tail) = parts.flatten →
            drainLbr data head tail scratch = (parts.flatMap recordEntries, head)) ∧
      (0 < initial.length →
        ((∀ produced, (drainPt (written initial produced auxHead) auxHead auxTail).1 =
            newest produced initial.length auxHead auxTail) ↔
          auxHead - auxTail ≤ initial.length ∨ initial.length ∣ auxHead - auxTail)) := by
  refine ⟨fun hdata htail hfits ↦ ⟨?_, ?_, ?_⟩,
    fun hsize ↦ ⟨fun h ↦ ?_, fun h produced ↦ drainPt_newest hsize produced h⟩⟩
  · rw [drainLbr_eq hdata htail hfits]
  · exact drainLbr_tail_le hdata htail hfits scratch
  · exact fun parts hparts hstream ↦ drainLbr_flatten hdata htail hfits scratch hparts hstream
  · by_contra hnot
    rw [not_or, Nat.not_le] at hnot
    exact drainPt_ne_newest hsize hnot.1 hnot.2 (h _)

/-- An empty perf ring, and an AUX ring that was not lapped. -/
theorem drains_unwrapped_iff_unlapped :
    (drainLbr [] 0 0 []).2 ≤ 0 ∧
      (drainPt (written (List.replicate 4 0) (oneAt 1) 3) 3 0).1 = newest (oneAt 1) 4 3 0 := by
  have hdrains := drains_unwrapped_iff [] (oneAt 1) 0 0 [] (List.replicate 4 0) 3 0
  have hempty : Holds [] (oneAt 1) 0 0 := fun pos hlow hhigh ↦ by omega
  exact ⟨(hdrains.1 hempty le_rfl (by decide)).2.1,
    (hdrains.2 (by decide)).mpr (Or.inl (by decide)) (oneAt 1)⟩

/-- An AUX ring of one page that was lapped by one byte, the oldest unread one. -/
theorem drainPt_lapped :
    (drainPt (written (List.replicate 4096 0) (oneAt 1) 4097) 4097 0).1 ≠
      newest (oneAt 1) 4096 4097 0 := by
  have hne := @drainPt_ne_newest (List.replicate 4096 0)
    (by rw [List.length_replicate]; decide) 4097 0 (by rw [List.length_replicate]; decide)
    (by rw [List.length_replicate]; decide)
  rw [List.length_replicate] at hne
  exact hne

end Cecore.Debug
