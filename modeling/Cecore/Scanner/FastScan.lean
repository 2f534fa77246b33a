import Cecore.Scanner.NaiveScan

/-!
# The fast scans and the comparison at one offset

The exact scan of integers has vector forms, and the scans for byte patterns and strings look for an
anchor byte first. What each of them compares at one offset is said here without the loops around
it: `fast_scan_naive` is that a scan reports the offsets of a buffer where the comparison succeeds,
each once and in ascending order.
-/

set_option autoImplicit false
set_option relaxedAutoImplicit false

namespace Cecore.Scanner

open Library.LittleEndian Library.Stride

/-- A search of one buffer that has a fast form. -/
inductive FastScan
  | exactInteger (type : {type : IntType // type.Standard}) (alignment : ℕ) (needle : ℤ)
  | byteArray (pattern mask : List UInt8)
  | string (needle : List UInt8) (caseInsensitive : Bool)

namespace FastScan

def hits (simd : SimdMode) (buf : List UInt8) (base : ℕ) : FastScan → List Hit
  | exactInteger type alignment needle => scanExactInteger simd type buf base alignment needle
  | byteArray pattern mask => scanBufferAOB simd buf base pattern mask
  | string needle caseInsensitive => scanBufferString simd buf base needle caseInsensitive

/-- The bytes that are compared. -/
def width : FastScan → ℕ
  | exactInteger type _ _ => type.val.width
  | byteArray pattern _ => pattern.length
  | string needle _ => needle.length

/-- The searches that look for something: not for an empty string or pattern, nor with a mask that
is not one byte for each of the pattern. -/
def Searches : FastScan → Prop
  | exactInteger _ _ _ => True
  | byteArray pattern mask => pattern ≠ [] ∧ mask.length = pattern.length
  | string needle _ => needle ≠ []

/-- The offsets that are looked at: every one, or every multiple of the alignment. -/
def Candidate (offset : ℕ) : FastScan → Prop
  | exactInteger _ alignment _ => max 1 alignment ∣ offset
  | byteArray _ _ => True
  | string _ _ => True

/-- The comparison at an offset. -/
def Compares (buf : List UInt8) (offset : ℕ) : FastScan → Prop
  | exactInteger type _ needle =>
    type.val.decode (slice buf offset type.val.width) = type.val.cast needle
  | byteArray pattern mask => ∀ j < pattern.length,
    buf.getD (offset + j) 0 &&& mask.getD j 0 = pattern.getD j 0 &&& mask.getD j 0
  | string needle caseInsensitive => ∀ j < needle.length,
    if caseInsensitive then toLowerByte (buf.getD (offset + j) 0) = toLowerByte (needle.getD j 0)
    else buf.getD (offset + j) 0 = needle.getD j 0

/-- The comparison succeeds at an offset that is looked at, with all its bytes in the buffer. -/
structure MatchesAt (scan : FastScan) (buf : List UInt8) (offset : ℕ) : Prop where
  searches : scan.Searches
  inside : offset + scan.width ≤ buf.length
  candidate : scan.Candidate offset
  compares : scan.Compares buf offset

end FastScan

/-! ### One offset -/

theorem getD_slice {buf : List UInt8} {offset width j : ℕ} (hj : j < width) :
    (slice buf offset width).getD j 0 = buf.getD (offset + j) 0 := by
  rw [List.getD_eq_getElem?_getD, List.getD_eq_getElem?_getD, getElem?_slice hj]

/-- Byte strings of one length agree under a function exactly if they do so at every index. -/
theorem map_eq_map_iff_getD {α : Type} (f : UInt8 → α) {first second : List UInt8}
    (hlength : first.length = second.length) :
    first.map f = second.map f ↔ ∀ j < second.length, f (first.getD j 0) = f (second.getD j 0) := by
  constructor
  · intro hmap j hj
    have hget := congrArg (fun bytes ↦ bytes[j]?) hmap
    simp only [List.getElem?_map, List.getElem?_eq_getElem hj,
      List.getElem?_eq_getElem (hlength ▸ hj : j < first.length), Option.map_some] at hget
    rw [List.getD_eq_getElem _ _ (hlength ▸ hj), List.getD_eq_getElem _ _ hj]
    exact Option.some.inj hget
  · intro hbytes
    refine List.ext_getElem
      (by rw [List.length_map, List.length_map, hlength]) fun j hfirst hsecond ↦ ?_
    rw [List.length_map] at hfirst hsecond
    have hbyte := hbytes j hsecond
    rw [List.getD_eq_getElem _ _ hfirst, List.getD_eq_getElem _ _ hsecond] at hbyte
    rw [List.getElem_map, List.getElem_map, hbyte]

/-- The masked compare looks at every byte of the pattern. -/
theorem maskedMatch_iff {bytes pattern mask : List UInt8} (hbytes : bytes.length = pattern.length)
    (hmask : mask.length = pattern.length) : maskedMatch bytes pattern mask = true ↔
      ∀ j < pattern.length, bytes.getD j 0 &&& mask.getD j 0 = pattern.getD j 0 &&& mask.getD j 0 := by
  induction pattern generalizing bytes mask with
  | nil => simp [maskedMatch]
  | cons value pattern ih =>
    cases bytes with
    | nil => simp at hbytes
    | cons byte bytes =>
      cases mask with
      | nil => simp at hmask
      | cons bits mask =>
        rw [maskedMatch, Bool.and_eq_true, decide_eq_true_iff,
          ih (Nat.succ.inj hbytes) (Nat.succ.inj hmask)]
        constructor
        · rintro ⟨hfirst, hrest⟩ j hj
          cases j with
          | zero => exact hfirst
          | succ j => exact hrest j (Nat.lt_of_succ_lt_succ hj)
        · intro hall
          exact ⟨hall 0 (Nat.succ_pos _), fun j hj ↦ hall (j + 1) (Nat.succ_lt_succ hj)⟩

/-! ### A whole buffer -/

/-- The hits of a loop are those of its offsets. -/
theorem strideScan_offsets (buf : List UInt8) (base alignment width : ℕ) (pred : List UInt8 → Bool) :
    ∃ found : List ℕ, found.Pairwise (· < ·) ∧
      (∀ offset, offset ∈ found ↔ offset + width ≤ buf.length ∧ max 1 alignment ∣ offset ∧
        pred (slice buf offset width) = true) ∧
      strideScan buf base alignment width pred = found.map (emitAt buf base width) := by
  unfold strideScan
  split_ifs with hshort
  · exact ⟨[], List.Pairwise.nil, fun offset ↦ by simp; omega, rfl⟩
  · have hpos : 0 < max 1 alignment := by omega
    refine ⟨_, (offsets_pairwise hpos).filter _, fun offset ↦ ?_, rfl⟩
    rw [List.mem_filter, mem_offsets hpos, and_assoc]
    refine and_congr_left fun _ ↦ ?_
    omega

/-- A fast scan is one loop with the comparison of its kind. -/
theorem FastScan.hits_eq_strideScan (simd : SimdMode) {scan : FastScan} (hsearches : scan.Searches)
    (buf : List UInt8) (base : ℕ) : ∃ (alignment : ℕ) (pred : List UInt8 → Bool),
      scan.hits simd buf base = strideScan buf base alignment scan.width pred ∧
      ∀ offset, offset + scan.width ≤ buf.length →
        (max 1 alignment ∣ offset ∧ pred (slice buf offset scan.width) = true ↔
          scan.Candidate offset ∧ scan.Compares buf offset) := by
  cases scan with
  | exactInteger type alignment needle =>
    refine ⟨alignment, _, scanExactInteger_eq type.property simd buf base alignment needle,
      fun offset _ ↦ and_congr_right fun _ ↦ ?_⟩
    exact decide_eq_true_iff
  | byteArray pattern mask =>
    refine ⟨1, _, scanBufferAOB_eq simd buf base hsearches.1 hsearches.2, fun offset hfit ↦ ?_⟩
    refine and_congr (iff_of_true (one_dvd offset) trivial) ?_
    refine (maskedMatch_iff (length_slice hfit) hsearches.2).trans (forall₂_congr fun j hj ↦ ?_)
    exact iff_of_eq (congrArg (· &&& mask.getD j 0 = _) (getD_slice hj))
  | string needle caseInsensitive =>
    refine ⟨1, _, scanBufferString_eq simd buf base hsearches caseInsensitive, fun offset hfit ↦ ?_⟩
    refine and_congr (iff_of_true (one_dvd offset) trivial) ?_
    have hfold := map_eq_map_iff_getD toLowerByte (length_slice hfit)
    have hsame := map_eq_map_iff_getD id (length_slice hfit)
    rw [List.map_id, List.map_id] at hsame
    cases caseInsensitive with
    | true =>
      refine decide_eq_true_iff.trans (hfold.trans (forall₂_congr fun j hj ↦ ?_))
      rw [getD_slice hj]
      exact Iff.rfl
    | false =>
      refine decide_eq_true_iff.trans (hsame.trans (forall₂_congr fun j hj ↦ ?_))
      rw [getD_slice hj]
      exact Iff.rfl

/-- A search for nothing reports nothing. -/
theorem FastScan.hits_of_not_searches (simd : SimdMode) {scan : FastScan} (hsearches : ¬ scan.Searches)
    (buf : List UInt8) (base : ℕ) : scan.hits simd buf base = [] := by
  cases scan with
  | exactInteger type alignment needle => exact absurd trivial hsearches
  | byteArray pattern mask =>
    refine if_pos ?_
    by_cases hpattern : pattern = []
    · exact .inl hpattern
    · exact .inr (.inl fun hmask ↦ hsearches ⟨hpattern, hmask⟩)
  | string needle caseInsensitive =>
    obtain rfl := not_not.mp hsearches
    rfl

/-- The vector scans and the anchored scans report exactly the offsets where the comparison
succeeds, each once and in ascending order. -/
theorem fast_scan_naive (simd : SimdMode) (scan : FastScan) (buf : List UInt8) (base : ℕ) :
    ∃ found : List ℕ, found.Pairwise (· < ·) ∧
      (∀ offset, offset ∈ found ↔ scan.MatchesAt buf offset) ∧
      scan.hits simd buf base = found.map (emitAt buf base scan.width) := by
  by_cases hsearches : scan.Searches
  · obtain ⟨alignment, pred, hhits, hcompares⟩ := FastScan.hits_eq_strideScan simd hsearches buf base
    obtain ⟨found, hsorted, hmem, hfound⟩ := strideScan_offsets buf base alignment scan.width pred
    refine ⟨found, hsorted, fun offset ↦ (hmem offset).trans ⟨?_, ?_⟩, hhits.trans hfound⟩
    · rintro ⟨hfit, hmatch⟩
      obtain ⟨hcandidate, hcompare⟩ := (hcompares offset hfit).mp hmatch
      exact ⟨hsearches, hfit, hcandidate, hcompare⟩
    · intro hmatch
      exact ⟨hmatch.inside, (hcompares offset hmatch.inside).mpr ⟨hmatch.candidate, hmatch.compares⟩⟩
  · refine ⟨[], List.Pairwise.nil, fun offset ↦ ?_,
      FastScan.hits_of_not_searches simd hsearches buf base⟩
    exact iff_of_false List.not_mem_nil fun hmatch ↦ hsearches hmatch.searches

end Cecore.Scanner
