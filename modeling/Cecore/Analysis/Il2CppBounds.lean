import Cecore.Analysis.Il2CppLayout

/-!
# What the IL2CPP resolvers read

Every read of the resolvers stays inside the file, but for two: the fields of an optional header
that ends before them, and a scan that begins in a segment so near the end of the numbers that its
test wraps.
-/

set_option autoImplicit false
set_option relaxedAutoImplicit false

namespace Cecore.Analysis.Il2Cpp

open Library.CheckedBuffer

/-! ### Ranges and addresses -/

theorem add64_lt (x y : ℕ) : add64 x y < 2 ^ 64 := Nat.mod_lt _ (by decide)

theorem add64_of_lt {x y : ℕ} (h : x + y < 2 ^ 64) : add64 x y = x + y := Nat.mod_eq_of_lt h

/-- The test of a range holds of no sum that wraps. -/
theorem inRange_le {b : Buffer} {off n : ℕ} (hoff : off < 2 ^ 64) (hn : n < 2 ^ 64)
    (h : inRange b off n = true) : off + n ≤ b.size := by
  rw [inRange, Bool.and_eq_true, decide_eq_true_eq, decide_eq_true_eq, add64] at h
  omega

namespace Image

variable {img : Image}

theorem vaToOff_lt {va o : ℕ} (h : img.vaToOff va = some o) : o < 2 ^ 64 ∧ o < img.buf.size := by
  rw [vaToOff] at h
  split at h
  · cases h
  · rw [rvaToOff] at h
    split at h
    · cases h
    · next s _ =>
      dsimp only at h
      split at h
      · next hin =>
        cases h
        exact ⟨add64_lt .., hin.2⟩
      · cases h

/-- What the readers of addresses return. -/
def wordAt (img : Image) (width va : ℕ) : Option ℕ :=
  (img.vaToOff va).bind fun o ↦ if inRange img.buf o width then some (img.buf.nat width o) else none

theorem readVA_eq {width : ℕ} (hwidth : width < 2 ^ 64) (va : ℕ) :
    img.readVA width va = .ok (img.wordAt width va) := by
  rw [readVA, wordAt]
  cases hoff : img.vaToOff va with
  | none => rfl
  | some o =>
    dsimp only [Option.bind_some]
    by_cases hin : inRange img.buf o width = true
    · have hle := inRange_le (vaToOff_lt hoff).1 hwidth hin
      rw [hin, Buffer.readNat_ok (by omega) (by omega)]
      rfl
    · rw [Bool.not_eq_true] at hin
      rw [hin]
      rfl

theorem readVA_runs {β : Type} {width va : ℕ} {f : Option ℕ → Checked β} {q : β → Prop}
    (hwidth : width < 2 ^ 64) (hf : Runs (f (img.wordAt width va)) q) :
    Runs (img.readVA width va >>= f) q := by
  rw [readVA_eq hwidth]
  exact hf

theorem cstrFrom_runs (o maxLen : ℕ) : Runs (img.cstrFrom o maxLen) fun _ ↦ True := by
  induction maxLen generalizing o with
  | zero => exact .ret trivial
  | succ maxLen ih =>
    rw [cstrFrom]
    split
    · next hlt =>
      refine .readNat o rfl (by omega) ?_
      split
      · exact .ret trivial
      · exact (ih (o + 1)).bind fun rest _ ↦ .ret trivial
    · exact .ret trivial

theorem readCStrVA_runs (va : ℕ) : Runs (img.readCStrVA va) fun _ ↦ True := by
  rw [readCStrVA]
  split
  · exact .ret trivial
  · exact cstrFrom_runs ..

end Image

/-! ### Loading -/

/-- Offsets and sizes of segments are 64-bit numbers. -/
def Segment.Fits (s : Segment) : Prop := s.fileOff < 2 ^ 64 ∧ s.fileSize < 2 ^ 64

/-- An image of a buffer, as the loaders leave it. -/
structure Loaded (b : Buffer) (img : Image) : Prop where
  buf : img.buf = b
  long : 0x40 ≤ b.size
  segs : ∀ s ∈ img.segs, s.Fits

theorem peSections_runs (b : Buffer) (secTbl k left : ℕ) :
    Runs (peSections b secTbl k left) fun segs ↦ ∀ s ∈ segs, s.Fits := by
  induction left generalizing k with
  | zero => exact .ret fun s h ↦ absurd h List.not_mem_nil
  | succ left ih =>
    rw [peSections]
    split
    · exact .ret fun s h ↦ absurd h List.not_mem_nil
    · next hin =>
      rw [Bool.not_eq_true, Bool.not_eq_false'] at hin
      have hle := inRange_le (add64_lt ..) (by decide) hin
      refine .readNat (add64 secTbl (k * 40) + 8) rfl (by omega) ?_
      refine .readNat (add64 secTbl (k * 40) + 12) rfl (by omega) ?_
      refine .readNat (add64 secTbl (k * 40) + 16) rfl (by omega) ?_
      refine .readNat (add64 secTbl (k * 40) + 20) rfl (by omega) ?_
      refine (ih (k + 1)).bind fun rest hrest ↦ .ret ?_
      intro s hs
      rcases List.mem_cons.mp hs with rfl | hs
      · exact ⟨(Buffer.nat_lt ..).trans (by decide), (Buffer.nat_lt ..).trans (by decide)⟩
      · exact hrest s hs

theorem elfSegments_runs (b : Buffer) (phoff phentsize k left : ℕ) :
    Runs (elfSegments b phoff phentsize k left) fun segs ↦ ∀ s ∈ segs, s.Fits := by
  induction left generalizing k with
  | zero => exact .ret fun s h ↦ absurd h List.not_mem_nil
  | succ left ih =>
    rw [elfSegments]
    split
    · exact .ret fun s h ↦ absurd h List.not_mem_nil
    · next hin =>
      rw [Bool.not_eq_true, Bool.not_eq_false'] at hin
      have hle := inRange_le (add64_lt ..) (by decide) hin
      refine .readNat _ rfl (by omega) ?_
      split
      · exact ih (k + 1)
      · refine .readNat (add64 phoff (k * phentsize) + 8) rfl (by omega) ?_
        refine .readNat (add64 phoff (k * phentsize) + 16) rfl (by omega) ?_
        refine .readNat (add64 phoff (k * phentsize) + 32) rfl (by omega) ?_
        refine .readNat (add64 phoff (k * phentsize) + 40) rfl (by omega) ?_
        refine (ih (k + 1)).bind fun rest hrest ↦ .ret ?_
        intro s hs
        rcases List.mem_cons.mp hs with rfl | hs
        · exact ⟨(Buffer.nat_lt ..).trans_le (by decide), (Buffer.nat_lt ..).trans_le (by decide)⟩
        · exact hrest s hs

theorem loadELF64_runs (b : Buffer) :
    Runs (loadELF64 b) fun result ↦ ∀ img ∈ result, Loaded b img := by
  have hnone : Runs (pure none) fun result : Option Image ↦ ∀ img ∈ result, Loaded b img := by
    refine .ret ?_
    rintro img ⟨⟩
  rw [loadELF64]
  split
  · exact hnone
  · rw [Buffer.read_ok (by omega) (by omega), ok_bind]
    split
    · exact hnone
    · refine .readNat 4 rfl (by omega) ?_
      split
      · exact hnone
      · refine .readNat 0x20 rfl (by omega) ?_
        refine .readNat 0x36 rfl (by omega) ?_
        refine .readNat 0x38 rfl (by omega) ?_
        refine (elfSegments_runs ..).bind fun segs hsegs ↦ .ret ?_
        split
        · rintro img ⟨⟩
        · rintro img ⟨⟩
          exact ⟨rfl, by omega, hsegs⟩

/-- The offset of the optional header. -/
def optionalHeader (b : Buffer) : ℕ := (b.nat 4 0x3C + 4) % 2 ^ 32 + 20

/-- A file that passes the tests in front of the optional header, and ends before the fields of that
header which are read. -/
structure OptionalHeaderCut (b : Buffer) : Prop where
  long : 0x40 ≤ b.size
  magic : b.bytes 0 2 = ascii "MZ"
  header : inRange b (b.nat 4 0x3C) 24 = true
  signature : b.bytes (b.nat 4 0x3C) 4 = [0x50, 0x45, 0, 0]
  coff : inRange b ((b.nat 4 0x3C + 4) % 2 ^ 32) 20 = true
  machine : b.nat 2 ((b.nat 4 0x3C + 4) % 2 ^ 32) = 0x8664
  size : inRange b (optionalHeader b) (b.nat 2 ((b.nat 4 0x3C + 4) % 2 ^ 32 + 16)) = true
  cut : b.size < optionalHeader b + 2 ∨
    b.nat 2 (optionalHeader b) = 0x20B ∧ b.size < optionalHeader b + 32

theorem loadPE_outside (b : Buffer) :
    OutsideIff (OptionalHeaderCut b) (loadPE b) fun result ↦ ∀ img ∈ result, Loaded b img := by
  have hnone : Runs (pure none) fun result : Option Image ↦ ∀ img ∈ result, Loaded b img := by
    refine .ret ?_
    rintro img ⟨⟩
  have he : b.nat 4 0x3C < 2 ^ 32 := Buffer.nat_lt ..
  rw [loadPE]
  refine .test (fun h ↦ not_lt.mpr h.long) hnone fun hlong ↦ ?_
  refine .read 0 rfl (by omega) ?_
  refine .test (fun h ↦ not_not.mpr h.magic) hnone fun hmagic ↦ ?_
  refine .readNat 0x3C rfl (by omega) ?_
  refine .test (fun h ↦ by rw [h.header]; decide) hnone fun hheader ↦ ?_
  rw [Bool.not_eq_true, Bool.not_eq_false'] at hheader
  have hlast := inRange_le (he.trans (by decide)) (by decide) hheader
  refine .read _ rfl (by omega) ?_
  refine .test (fun h ↦ not_not.mpr h.signature) hnone fun hsignature ↦ ?_
  refine .test (fun h ↦ by rw [h.coff]; decide) hnone fun hcoff ↦ ?_
  rw [Bool.not_eq_true, Bool.not_eq_false'] at hcoff
  have hcoffEnd := inRange_le ((Nat.mod_lt _ (by decide)).trans (by decide)) (by decide) hcoff
  refine .readNat _ rfl (by omega) ?_
  refine .test (fun h ↦ not_not.mpr h.machine) hnone fun hmachine ↦ ?_
  refine .readNat ((b.nat 4 0x3C + 4) % 2 ^ 32 + 2) rfl (by omega) ?_
  refine .readNat ((b.nat 4 0x3C + 4) % 2 ^ 32 + 16) rfl (by omega) ?_
  refine .test (fun h ↦ by rw [← optionalHeader, h.size]; decide) hnone fun hsize ↦ ?_
  rw [Bool.not_eq_true, Bool.not_eq_false', ← optionalHeader] at hsize
  rw [← optionalHeader]
  have hcutIff : OptionalHeaderCut b ↔ b.size < optionalHeader b + 2 ∨
      b.nat 2 (optionalHeader b) = 0x20B ∧ b.size < optionalHeader b + 32 :=
    ⟨fun h ↦ h.cut, fun h ↦ ⟨not_lt.mp hlong, not_not.mp hmagic, hheader, not_not.mp hsignature,
      hcoff, not_not.mp hmachine, hsize, h⟩⟩
  by_cases hmagicCut : b.size < optionalHeader b + 2
  · rw [Buffer.readNat_outside _ rfl hmagicCut]
    exact .inr ⟨hcutIff.mpr (.inl hmagicCut), rfl⟩
  refine .readNat _ rfl (not_lt.mp hmagicCut) ?_
  refine .test (fun h ↦ not_not.mpr ((hcutIff.mp h).resolve_left hmagicCut).1) hnone fun hplus ↦ ?_
  by_cases hbaseCut : b.size < optionalHeader b + 32
  · have hfault : b.readNat 8 ((optionalHeader b : ℤ) + 24) = .error .outside :=
      Buffer.readNat_outside (optionalHeader b + 24) rfl hbaseCut
    rw [hfault]
    exact .inr ⟨hcutIff.mpr (.inr ⟨not_not.mp hplus, hbaseCut⟩), rfl⟩
  refine .readNat (optionalHeader b + 24) rfl (not_lt.mp hbaseCut) ?_
  refine .of_runs (fun h ↦ ?_) ?_
  · exact (hcutIff.mp h).elim hmagicCut fun h ↦ hbaseCut h.2
  · refine (peSections_runs ..).bind fun segs hsegs ↦ .ret ?_
    split
    · rintro img ⟨⟩
    · rintro img ⟨⟩
      exact ⟨rfl, not_lt.mp hlong, hsegs⟩

theorem loadImage_outside (b : Buffer) :
    OutsideIff (OptionalHeaderCut b) (loadImage b) fun result ↦ ∀ img ∈ result, Loaded b img := by
  refine (loadPE_outside b).andThen fun result hresult ↦ ?_
  cases result with
  | none => exact loadELF64_runs b
  | some img => exact .ret hresult

/-! ### Scans -/

/-- `scanWords` of a segment, unless that is too short. -/
def scanSegment {α : Type} (b : Buffer) (least width : ℕ) (body : ℕ → Checked (Option α))
    (s : Segment) : Checked (Option α) :=
  if s.fileSize < least then pure none
  else scanWords b width (min (add64 s.fileOff s.fileSize) b.size) body s.fileOff

/-- The positions of a segment at which a scan looks. -/
def Scanned (b : Buffer) (least width : ℕ) (s : Segment) (p : ℕ) : Prop :=
  least ≤ s.fileSize ∧ ∃ i, p = s.fileOff + 8 * i ∧
    p + width ≤ min (add64 s.fileOff s.fileSize) b.size

/-- Nothing is found in front of a segment that is long enough, and begins so near the end of the
64-bit numbers that the test of its first word wraps. -/
def ScanLeaves {α : Type} (b : Buffer) (least width : ℕ) (body : ℕ → Checked (Option α))
    (segs : List Segment) : Prop :=
  ∃ before s after, segs = before ++ s :: after ∧
    (∀ s' ∈ before, ∀ p, Scanned b least width s' p → body p = .ok none) ∧
    least ≤ s.fileSize ∧ 2 ^ 64 ≤ s.fileOff + width

section

variable {α : Type} {b : Buffer} {least width : ℕ} {body : ℕ → Checked (Option α)}
  {found : α → Prop}

/-- A scan that begins away from the end of the numbers has a result: none exactly if there is
nothing at any of its words. -/
theorem scanWords_runs (hsize : b.size < 2 ^ 63)
    (hbody : ∀ p, p + width ≤ b.size → Runs (body p) fun r ↦ ∀ x ∈ r, found x) {stop : ℕ}
    (hstop : stop ≤ b.size) (hwidth : 0 < width) (hsmall : width < 2 ^ 62) (p : ℕ)
    (hp : p + width < 2 ^ 64) :
    Runs (scanWords b width stop body p) fun r ↦ (∀ x ∈ r, found x) ∧
      (r = none ↔ ∀ i, p + 8 * i + width ≤ stop → body (p + 8 * i) = .ok none) := by
  induction h : b.size - p using Nat.strong_induction_on generalizing p with
  | _ n ih =>
    rw [scanWords, add64_of_lt hp]
    by_cases hin : p + width ≤ stop
    · rw [if_pos hin, dif_pos (by omega)]
      obtain ⟨r, hr, hfound⟩ := hbody p (hin.trans hstop)
      rw [hr]
      cases r with
      | some x =>
        refine .ret ⟨hfound, iff_of_false (by simp) fun hall ↦ ?_⟩
        have hfirst := hall 0 hin
        rw [Nat.mul_zero, Nat.add_zero, hr] at hfirst
        cases hfirst
      | none =>
        refine (ih _ (by omega) (p + 8) (by omega) rfl).mono fun r hrest ↦ ⟨hrest.1, ?_⟩
        rw [hrest.2]
        constructor
        · intro hall i hi
          cases i with
          | zero => exact hr
          | succ i =>
            have hword : p + 8 * (i + 1) = p + 8 + 8 * i := by omega
            rw [hword] at hi ⊢
            exact hall i hi
        · intro hall i hi
          have hword : p + 8 + 8 * i = p + 8 * (i + 1) := by omega
          rw [hword] at hi ⊢
          exact hall (i + 1) hi
    · rw [if_neg hin]
      refine .ret ⟨?_, iff_of_true rfl fun i hi ↦ absurd hi (by omega)⟩
      rintro x ⟨⟩

/-- The segment of which the first word wraps is left at once. -/
theorem scanSegment_leaves (hsize : b.size < 2 ^ 63) (hlong : width ≤ b.size)
    (hleast : width ≤ least) {s : Segment} (hfits : s.Fits) (hle : least ≤ s.fileSize)
    (hwrap : 2 ^ 64 ≤ s.fileOff + width) :
    scanSegment b least width body s = .error .outside := by
  obtain ⟨hoff, hlen⟩ := hfits
  have hin : add64 s.fileOff width ≤ min (add64 s.fileOff s.fileSize) b.size := by
    rw [add64, add64]
    omega
  rw [scanSegment, if_neg (not_lt.mpr hle), scanWords, if_pos hin, dif_neg (by omega)]
  rfl

theorem scanSegment_runs (hsize : b.size < 2 ^ 63)
    (hbody : ∀ p, p + width ≤ b.size → Runs (body p) fun r ↦ ∀ x ∈ r, found x)
    (hwidth : 0 < width) (hsmall : width < 2 ^ 62) {s : Segment}
    (hwrap : ¬(least ≤ s.fileSize ∧ 2 ^ 64 ≤ s.fileOff + width)) :
    Runs (scanSegment b least width body s) fun r ↦ (∀ x ∈ r, found x) ∧
      (r = none ↔ ∀ p, Scanned b least width s p → body p = .ok none) := by
  rw [scanSegment]
  by_cases hshort : s.fileSize < least
  · rw [if_pos hshort]
    refine .ret ⟨?_, iff_of_true rfl fun p hp ↦ absurd hp.1 (not_le.mpr hshort)⟩
    rintro x ⟨⟩
  · rw [if_neg hshort]
    refine (scanWords_runs hsize hbody (min_le_right ..) hwidth hsmall _ (by omega)).mono
      fun r hr ↦ ⟨hr.1, hr.2.trans ?_⟩
    constructor
    · rintro hall p ⟨-, i, rfl, hp⟩
      exact hall i hp
    · intro hall i hi
      exact hall _ ⟨not_lt.mp hshort, i, rfl, hi⟩

/-- A scan of all segments leaves the buffer exactly in a segment whose first word wraps. -/
theorem firstFound_outside (hsize : b.size < 2 ^ 63) (hlong : width ≤ b.size)
    (hleast : width ≤ least)
    (hbody : ∀ p, p + width ≤ b.size → Runs (body p) fun r ↦ ∀ x ∈ r, found x)
    (hwidth : 0 < width) (hsmall : width < 2 ^ 62) {segs : List Segment}
    (hsegs : ∀ s ∈ segs, s.Fits) :
    OutsideIff (ScanLeaves b least width body segs)
      (firstFound (scanSegment b least width body) segs) fun r ↦ ∀ x ∈ r, found x := by
  induction segs with
  | nil =>
    refine .of_runs ?_ (.ret ?_)
    · rintro ⟨before, s, after, hsplit, -⟩
      exact absurd hsplit.symm (by simp)
    · rintro x ⟨⟩
  | cons s rest ih =>
    by_cases hwrap : least ≤ s.fileSize ∧ 2 ^ 64 ≤ s.fileOff + width
    · rw [firstFound, scanSegment_leaves hsize hlong hleast (hsegs s List.mem_cons_self) hwrap.1
        hwrap.2]
      exact .inr ⟨⟨[], s, rest, rfl, fun s' h ↦ absurd h List.not_mem_nil, hwrap⟩, rfl⟩
    · rw [firstFound]
      obtain ⟨r, hr, hfound, hnone⟩ := scanSegment_runs hsize hbody hwidth hsmall hwrap
      rw [hr]
      -- A segment in front of the one that wraps.
      have hsplits : ScanLeaves b least width body (s :: rest) ↔
          (∀ p, Scanned b least width s p → body p = .ok none) ∧
            ScanLeaves b least width body rest := by
        constructor
        · rintro ⟨before, s', after, hsplit, hbefore, hleaves⟩
          cases before with
          | nil =>
            cases hsplit
            exact absurd hleaves hwrap
          | cons first before =>
            cases hsplit
            exact ⟨hbefore _ List.mem_cons_self, before, s', after, rfl,
              fun s' hs' ↦ hbefore s' (List.mem_cons_of_mem _ hs'), hleaves⟩
        · rintro ⟨hs, before, s', after, rfl, hbefore, hleaves⟩
          exact ⟨s :: before, s', after, rfl, List.forall_mem_cons.mpr ⟨hs, hbefore⟩, hleaves⟩
      cases r with
      | some x =>
        refine .of_runs (fun h ↦ ?_) (.ret hfound)
        cases hnone.mpr (hsplits.mp h).1
      | none =>
        refine (ih fun s' hs' ↦ hsegs s' (List.mem_cons_of_mem _ hs')).congr ?_
        rw [hsplits]
        exact (and_iff_right (hnone.mp rfl)).symm

end

section

variable {img : Image}

theorem plausibleEntries_runs (foVA k left ok tot : ℕ) :
    Runs (plausibleEntries img foVA k left ok tot) fun _ ↦ True := by
  induction left generalizing k ok tot with
  | zero => exact .ret trivial
  | succ left ih =>
    rw [plausibleEntries]
    refine Image.readVA_runs (by decide) ?_
    cases img.wordAt 8 (add64 foVA (k * 8)) with
    | none => exact .ret trivial
    | some e => exact ih ..

/-- Behind a registration that is found, all that is read of it is in the buffer. -/
theorem registrationAt_runs {nTypes p : ℕ} (hlong : 0x40 ≤ img.buf.size)
    (hsize : img.buf.size < 2 ^ 63) (hp : p + 0x18 ≤ img.buf.size) :
    Runs (registrationAt img nTypes p) fun r ↦ ∀ base ∈ r, base + 0x70 ≤ img.buf.size := by
  have hnone : Runs (pure none) fun r : Option ℕ ↦ ∀ base ∈ r, base + 0x70 ≤ img.buf.size := by
    refine .ret ?_
    rintro base ⟨⟩
  rw [registrationAt]
  refine .readNat p rfl (by omega) ?_
  split
  · exact hnone
  refine .readNat (p + 0x10) rfl (by omega) ?_
  split
  · exact hnone
  refine .readNat (p + 8) rfl (by omega) ?_
  split
  · exact hnone
  refine (plausibleEntries_runs ..).bind fun ⟨ok, tot⟩ _ ↦ ?_
  dsimp only
  split
  · exact hnone
  split
  · exact hnone
  split
  · exact hnone
  · next hin =>
    rw [Bool.not_eq_true, Bool.not_eq_false'] at hin
    have hle := inRange_le (by omega) (by decide) hin
    refine .readInt (p - kMR_fieldOffsetsCount + kMR_typesCount) rfl ?_ ?_
    · rw [kMR_typesCount]
      omega
    refine .readNat (p - kMR_fieldOffsetsCount + kMR_types) rfl ?_ ?_
    · rw [kMR_types]
      omega
    split
    · exact hnone
    split
    · exact hnone
    · refine .ret ?_
      rintro base ⟨⟩
      exact hle

theorem namedModules_runs (arrVA i left ok tot : ℕ) :
    Runs (namedModules img arrVA i left ok tot) fun _ ↦ True := by
  induction left generalizing i ok tot with
  | zero => exact .ret trivial
  | succ left ih =>
    rw [namedModules]
    refine Image.readVA_runs (by decide) ?_
    cases img.wordAt 8 (add64 arrVA (i * 8)) with
    | none => exact .ret trivial
    | some m =>
      change Runs (if _ then _ else _) _
      split
      · exact ih ..
      · refine Image.readVA_runs (by decide) ?_
        cases img.wordAt 8 (add64 m kCGM_moduleName) with
        | none => exact ih ..
        | some nmp =>
          change Runs (if _ then _ else _) _
          split
          · exact ih ..
          · exact (Image.readCStrVA_runs nmp).bind fun name _ ↦ ih ..

theorem modulesAt_runs {imageCount p : ℕ} (hp : p + 16 ≤ img.buf.size) :
    Runs (modulesAt img imageCount p) fun _ ↦ True := by
  rw [modulesAt]
  refine .readNat p rfl (by omega) ?_
  split
  · exact .ret trivial
  refine .readNat (p + 8) rfl (by omega) ?_
  split
  · exact .ret trivial
  · exact (namedModules_runs ..).bind fun counts _ ↦ .ret trivial

theorem findMetadataRegistration_outside {b : Buffer} (hloaded : Loaded b img)
    (hsize : b.size < 2 ^ 63) (nTypes : ℕ) :
    OutsideIff (ScanLeaves b 0x70 0x18 (registrationAt img nTypes) img.segs)
      (findMetadataRegistration img nTypes) fun r ↦ ∀ base ∈ r, base + 0x70 ≤ b.size := by
  obtain ⟨rfl, hlong, hsegs⟩ := hloaded
  exact firstFound_outside hsize (by omega) (by decide)
    (fun p hp ↦ registrationAt_runs hlong hsize hp) (by decide) (by decide) hsegs

theorem findCodeGenModules_outside {b : Buffer} (hloaded : Loaded b img) (hsize : b.size < 2 ^ 63)
    (imageCount : ℕ) :
    OutsideIff (ScanLeaves b 16 16 (modulesAt img imageCount) img.segs)
      (findCodeGenModules img imageCount) fun _ ↦ True := by
  obtain ⟨rfl, hlong, hsegs⟩ := hloaded
  have hscan : OutsideIff (ScanLeaves img.buf 16 16 (modulesAt img imageCount) img.segs)
      (findCodeGenModules img imageCount) fun r ↦ ∀ x ∈ r, True :=
    firstFound_outside hsize (by omega) le_rfl
      (fun p hp ↦ (modulesAt_runs hp).mono fun r _ x _ ↦ trivial) (by decide) (by decide) hsegs
  exact hscan.mono fun r _ ↦ trivial

/-! ### Types, classes and methods -/

theorem typeVAForIndex_runs (reg : Registration) (typeIndex : ℤ) :
    Runs (typeVAForIndex img reg typeIndex) fun _ ↦ True := by
  rw [typeVAForIndex]
  split
  · exact .ret trivial
  · exact Image.readVA_runs (by decide) (.ret trivial)

theorem typeWordAt_runs (typeVA : ℕ) : Runs (typeWordAt img typeVA) fun _ ↦ True := by
  rw [typeWordAt]
  split
  · exact .ret trivial
  · exact Image.readVA_runs (by decide) (.ret trivial)

theorem nameOfTypeVA_runs (types : List TypeDef) (left typeVA : ℕ) :
    Runs (nameOfTypeVA img types left typeVA) fun _ ↦ True := by
  induction left generalizing typeVA with
  | zero => exact .ret trivial
  | succ left ih =>
    have hoption : ∀ va : Option ℕ,
        Runs (va.elim (pure []) (nameOfTypeVA img types left)) fun _ ↦ True := by
      rintro (_ | va)
      · exact .ret trivial
      · exact ih va
    rw [nameOfTypeVA]
    split
    · exact .ret trivial
    refine (typeWordAt_runs typeVA).bind fun word _ ↦ Image.readVA_runs (by decide) ?_
    split
    · exact .ret trivial
    · exact .ret trivial
    · exact (ih _).bind fun n _ ↦ .ret trivial
    · exact (ih _).bind fun n _ ↦ .ret trivial
    · exact Image.readVA_runs (by decide) ((hoption _).bind fun n _ ↦ .ret trivial)
    · refine Image.readVA_runs (by decide) ((hoption _).bind fun base _ ↦ ?_)
      split
      · exact .ret trivial
      refine Image.readVA_runs (by decide) ?_
      dsimp only
      split
      · exact .ret trivial
      refine Image.readVA_runs (by decide) (Image.readVA_runs (by decide) ?_)
      split
      · exact .ret trivial
      · refine (runs_mapM_of_runs fun a _ ↦ ?_).bind fun names _ ↦ .ret trivial
        exact Image.readVA_runs (by decide) ((hoption _).bind fun an _ ↦ .ret trivial)
    · exact .ret trivial

theorem parentNameOf_runs (reg : Registration) (types : List TypeDef) (parentTypeIndex : ℤ) :
    Runs (parentNameOf img reg types parentTypeIndex) fun _ ↦ True := by
  rw [parentNameOf]
  split
  · exact .ret trivial
  refine (typeVAForIndex_runs ..).bind fun pva _ ↦ ?_
  split
  · exact .ret trivial
  · exact Image.readVA_runs (by decide) (.ret trivial)

theorem resolvedField_runs (reg : Registration) (types : List TypeDef) (entryVA : Option ℕ)
    (f : FieldDef) (i : ℕ) : Runs (resolvedField img reg types entryVA f i) fun _ ↦ True := by
  rw [resolvedField]
  refine (typeVAForIndex_runs ..).bind fun typeVA _ ↦ ?_
  refine (typeWordAt_runs typeVA).bind fun word _ ↦ ?_
  refine (nameOfTypeVA_runs ..).bind fun typeName _ ↦ ?_
  split
  · exact .ret trivial
  · exact Image.readVA_runs (by decide) (.ret trivial)

theorem classLayout_runs (reg : Registration) (md : Metadata) (mt : TypeDef) (t : ℕ) :
    Runs (classLayout img reg md mt t) fun _ ↦ True := by
  rw [classLayout]
  refine (parentNameOf_runs ..).bind fun parentName _ ↦ Image.readVA_runs (by decide) ?_
  refine (runs_mapM_of_runs ?_).bind fun fields _ ↦ .ret trivial
  rintro ⟨f, i⟩ -
  exact resolvedField_runs ..

theorem moduleName_runs (arrVA k : ℕ) : Runs (moduleName img arrVA k) fun _ ↦ True := by
  rw [moduleName]
  refine Image.readVA_runs (by decide) ?_
  dsimp only
  split
  · exact .ret trivial
  refine Image.readVA_runs (by decide) ?_
  split
  · exact .ret trivial
  · exact (Image.readCStrVA_runs _).bind fun name _ ↦ .ret trivial

theorem moduleTable_runs (m : ℕ) : Runs (moduleTable img m) fun _ ↦ True := by
  rw [moduleTable]
  exact Image.readVA_runs (by decide) (Image.readVA_runs (by decide) (.ret trivial))

theorem resolvedMethod_runs (table : ℕ × ℕ) (method : MethodDef) :
    Runs (resolvedMethod img table method) fun _ ↦ True := by
  rw [resolvedMethod]
  split
  · exact .ret trivial
  refine Image.readVA_runs (by decide) ?_
  dsimp only
  split
  · exact .ret trivial
  · exact .ret trivial

theorem resolvedMethods_runs (table : ℕ × ℕ) (methods : List MethodDef) :
    Runs (resolvedMethods img table methods) fun _ ↦ True := by
  rw [resolvedMethods]
  exact (runs_mapM_of_runs fun method _ ↦ resolvedMethod_runs table method).bind
    fun found _ ↦ .ret trivial

theorem collectModules_runs (arrVA k left : ℕ) (mods : List (List UInt8 × ℕ × ℕ)) :
    Runs (collectModules img arrVA k left mods) fun _ ↦ True := by
  induction left generalizing k mods with
  | zero => exact .ret trivial
  | succ left ih =>
    rw [collectModules]
    refine (moduleName_runs arrVA k).bind fun entry _ ↦ ?_
    cases entry with
    | none => exact ih ..
    | some entry => exact (moduleTable_runs entry.1).bind fun table _ ↦ ih ..

theorem withMethods_runs (mods : List (List UInt8 × ℕ × ℕ)) (cl : ClassLayout) (mt : TypeDef) :
    Runs (withMethods img mods cl mt) fun _ ↦ True := by
  rw [withMethods]
  split
  · exact .ret trivial
  split
  · exact .ret trivial
  · exact (resolvedMethods_runs ..).bind fun methods _ ↦ .ret trivial

theorem moduleNamed_runs (arrVA : ℕ) (imageName : List UInt8) (k left : ℕ) :
    Runs (moduleNamed img arrVA imageName k left) fun _ ↦ True := by
  induction left generalizing k with
  | zero => exact .ret trivial
  | succ left ih =>
    rw [moduleNamed]
    refine (moduleName_runs arrVA k).bind fun entry _ ↦ ?_
    cases entry with
    | none => exact ih ..
    | some entry =>
      change Runs (if _ then _ else _) _
      split
      · exact ih ..
      · exact moduleTable_runs entry.1

/-! ### The resolvers -/

theorem layoutAt_outside {b : Buffer} (hloaded : Loaded b img) (hsize : b.size < 2 ^ 63)
    (md : Metadata) {mr : ℕ} (hmr : mr + 0x70 ≤ b.size) :
    OutsideIff (ScanLeaves b 16 16 (modulesAt img md.images.length) img.segs)
      (layoutAt img md mr) fun _ ↦ True := by
  have hmodules := findCodeGenModules_outside hloaded hsize md.images.length
  have hin : inRange img.buf (mr + 0x60 + 4) 0 = true := by
    rw [hloaded.buf, inRange, add64_of_lt (by omega), Bool.and_eq_true, decide_eq_true_eq,
      decide_eq_true_eq]
    omega
  rw [layoutAt, hin, hloaded.buf]
  refine .test (fun _ ↦ by decide) (.ret trivial) fun _ ↦ ?_
  refine .readNat (mr + kMR_fieldOffsets) rfl ?_ ?_
  · rw [kMR_fieldOffsets]
    omega
  refine .readNat (mr + kMR_types) rfl ?_ ?_
  · rw [kMR_types]
    omega
  refine .readInt (mr + kMR_typesCount) rfl ?_ ?_
  · rw [kMR_typesCount]
    omega
  refine .bind (runs_mapM_of_runs ?_) fun classes _ ↦ hmodules.andThen fun r _ ↦ ?_
  · rintro ⟨mt, t⟩ -
    exact classLayout_runs ..
  cases r with
  | none => exact .ret trivial
  | some arrVA =>
    refine (collectModules_runs ..).bind fun mods _ ↦ ?_
    refine (runs_mapM_of_runs ?_).bind fun classes _ ↦ .ret trivial
    rintro ⟨cl, mt⟩ -
    exact withMethods_runs ..

end

/-- The file is one whose optional header is cut, or it is loaded and one of the two scans comes to a
segment whose first word wraps. -/
def LeavesFile (b : Buffer) (md : Metadata) : Prop :=
  OptionalHeaderCut b ∨ ∃ img, loadImage b = .ok (some img) ∧
    (ScanLeaves b 0x70 0x18 (registrationAt img md.types.length) img.segs ∨
      ScanLeaves b 16 16 (modulesAt img md.images.length) img.segs)

section

variable {files : List UInt8 → Option Buffer} {binaryPath : List UInt8} {b : Buffer} {md : Metadata}

theorem loadImage_runs (hin : ¬LeavesFile b md) :
    Runs (loadImage b) fun result ↦ ∀ img ∈ result, Loaded b img :=
  (loadImage_outside b).runs fun h ↦ hin (.inl h)

theorem resolveIl2CppLayout_runs (hfile : files binaryPath = some b) (hsize : b.size < 2 ^ 63)
    (hin : ¬LeavesFile b md) :
    Runs (resolveIl2CppLayout files md binaryPath) fun _ ↦ True := by
  rw [resolveIl2CppLayout, hfile]
  split
  · exact .ret trivial
  change Runs (if _ then _ else _) _
  split
  · exact .ret trivial
  obtain ⟨result, hresult, hloaded⟩ := loadImage_runs hin
  rw [hresult]
  cases result with
  | none => exact .ret trivial
  | some img =>
    have himg := hloaded img rfl
    have hscan := (findMetadataRegistration_outside himg hsize md.types.length).runs fun h ↦
      hin (.inr ⟨img, hresult, .inl h⟩)
    refine hscan.bind fun found hfound ↦ ?_
    cases found with
    | none => exact .ret trivial
    | some mr =>
      exact (layoutAt_outside himg hsize md (hfound mr rfl)).runs fun h ↦
        hin (.inr ⟨img, hresult, .inr h⟩)

theorem resolveIl2CppMethods_runs (hfile : files binaryPath = some b) (hsize : b.size < 2 ^ 63)
    (hin : ¬LeavesFile b md) (className : List UInt8) :
    Runs (resolveIl2CppMethods files md binaryPath className) fun _ ↦ True := by
  rw [resolveIl2CppMethods, hfile]
  split
  · exact .ret trivial
  split
  · exact .ret trivial
  next cls classIndex _ =>
  dsimp only
  split
  · exact .ret trivial
  obtain ⟨result, hresult, hloaded⟩ := loadImage_runs hin
  rw [hresult]
  cases result with
  | none => exact .ret trivial
  | some img =>
    have hscan := (findCodeGenModules_outside (hloaded img rfl) hsize md.images.length).runs
      fun h ↦ hin (.inr ⟨img, hresult, .inr h⟩)
    refine hscan.bind fun found _ ↦ ?_
    cases found with
    | none => exact .ret trivial
    | some arrVA =>
      refine (moduleNamed_runs ..).bind fun table _ ↦ ?_
      split
      · exact .ret trivial
      · exact resolvedMethods_runs ..

/-- The loaders, the two scans and the two resolvers read nothing outside the file. -/
structure ReadsInside (files : List UInt8 → Option Buffer) (md : Metadata) (binaryPath : List UInt8)
    (b : Buffer) : Prop where
  pe : loadPE b ≠ .error .outside
  elf : loadELF64 b ≠ .error .outside
  registration : ∀ img, loadImage b = .ok (some img) →
    findMetadataRegistration img md.types.length ≠ .error .outside
  modules : ∀ img, loadImage b = .ok (some img) →
    findCodeGenModules img md.images.length ≠ .error .outside
  layout : resolveIl2CppLayout files md binaryPath ≠ .error .outside
  methods : ∀ className, resolveIl2CppMethods files md binaryPath className ≠ .error .outside

end

/-- A PE file that ends behind the COFF header, which names an optional header of no bytes. -/
def cutHeader : Buffer :=
  .ofList ([0x4D, 0x5A] ++ List.replicate 58 0 ++ [0x40, 0, 0, 0] ++
    [0x50, 0x45, 0, 0, 0x64, 0x86, 1, 0] ++ List.replicate 16 0)

/-- An ELF file of one segment, of `0x70` bytes at the offset `2 ^ 64 - 8`. -/
def lateSegment : Buffer :=
  .ofList ([0x7F, 0x45, 0x4C, 0x46, 2] ++ List.replicate 27 0 ++ [0x40] ++ List.replicate 21 0 ++
    [0x38, 0, 1] ++ List.replicate 7 0 ++
    [1, 0, 0, 0, 5, 0, 0, 0, 0xF8, 0xFF, 0xFF, 0xFF, 0xFF, 0xFF, 0xFF, 0xFF] ++
    List.replicate 16 0 ++ [0x70] ++ List.replicate 23 0)

theorem lateSegment_loaded :
    loadImage lateSegment = .ok (some ⟨lateSegment, 0, [⟨0, 0x70, 2 ^ 64 - 8, 0x70⟩]⟩) := rfl

end Cecore.Analysis.Il2Cpp
