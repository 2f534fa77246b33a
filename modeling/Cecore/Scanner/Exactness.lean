import Cecore.Scanner.Visits

/-!
# Exactness of integer first scans

The purpose of a first scan over integers, in its own words: walk every scanned region from its
base in steps of the alignment and keep the addresses whose whole value lies in the region and
satisfies the search. `firstScan_exact` says when chunks, vectors, workers and result files give
exactly that.
-/

set_option autoImplicit false
set_option relaxedAutoImplicit false

namespace Cecore.Scanner

open Library.LittleEndian Library.Stride Platform

/-! ### The specification -/

/-- The integer type a value type is scanned as. -/
def intTypeOf : ValueType → Option IntType
  | .byte => some .uint8
  | .int16 => some .int16
  | .int32 => some .int32
  | .int64 => some .int64
  | .pointer => some .uintptr
  | _ => none

/-- A value satisfies a first search. Compares with a past value compare with the needle, since
there is no past value yet. -/
def Satisfies (cmp : ScanCompare) (needle needle2 current : ℤ) : Prop :=
  match cmp with
  | .exact | .unchanged | .sameAsFirst | .increasedBy | .decreasedBy => current = needle
  | .greater | .increased => needle < current
  | .less | .decreased => current < needle
  | .between => min needle needle2 ≤ current ∧ current ≤ max needle needle2
  | .changed => current ≠ needle
  | .unknown => True

instance (cmp : ScanCompare) (needle needle2 current : ℤ) :
    Decidable (Satisfies cmp needle needle2 current) := by
  cases cmp <;> unfold Satisfies <;> infer_instance

/-- The addresses of one region that a first scan is to yield. -/
def regionMatches (type : IntType) (config : ScanConfig) (memory : ℕ → Option UInt8)
    (region : MemoryRegion) : List ℕ :=
  ((List.range region.size).map (region.base + · * config.alignment)).filter fun address ↦
    decide (address + type.width ≤ region.base + region.size) &&
      decide (Satisfies config.compareType (type.cast config.intValue) (type.cast config.intValue2)
        (type.decode (readPrefix memory address type.width)))

/-- The addresses a first scan is to yield, in region order. -/
def expectedAddresses (type : IntType) (config : ScanConfig) (proc : ProcessHandle) : List ℕ :=
  (scanRegions config proc.queryRegions).flatMap (regionMatches type config proc.memory)

theorem relationalPredicate_iff (cmp : ScanCompare) (v v2 c : ℤ) :
    relationalPredicate cmp v v2 c = true ↔ Satisfies cmp v v2 c := by
  cases cmp
  case between =>
    simp only [relationalPredicate, Satisfies]
    split_ifs with hle
    · simp [min_eq_left hle, max_eq_right hle]
    · have hge : v2 ≤ v := by omega
      simp [min_eq_right hge, max_eq_left hge]
  all_goals simp [relationalPredicate, Satisfies]

/-! ### Chunks of a range are the range -/

section Range

variable {host : Host} {config : ScanConfig} {proc : ProcessHandle} {size : ℕ}

/-- The windows of an interval looked at from its base. -/
def gridVisits (m : Matcher) (range : ℕ × ℕ) : List Visit :=
  (offsets (range.2 - range.1) m.stride).map fun offset ↦
    ⟨range.1 + offset, min m.width (range.2 - range.1 - offset)⟩

/-- The chunks of a readable range look at the windows of the range. -/
theorem rangeVisits_eq_gridVisits (hsize : valueSizeForConfig host config = .ok size)
    (hstride : (matcher host config).stride ∣ ownedLen host config)
    (hfits : ownedLen host config + (size - 1) < sizeModulus) {range : ℕ × ℕ}
    (hread : Readable proc.memory range.1 (range.2 - range.1)) :
    rangeVisits host config proc size range = gridVisits (matcher host config) range := by
  have hpos := one_le_of_valueSizeForConfig hsize
  have hwidth := width_matcher hsize
  have hstep := Matcher.one_le_stride host config
  have howned := ownedLen_pos host config
  set m := matcher host config
  set owned := ownedLen host config
  set limit := range.2 - range.1 with hlimit
  unfold rangeVisits chunksOf
  by_cases hempty : range.2 ≤ range.1
  · have hzero : limit = 0 := by omega
    rw [if_pos hempty, gridVisits, ← hlimit, hzero, offsets_zero hstep]
    rfl
  · rw [if_neg hempty, List.flatMap_map, Nat.mod_eq_of_lt hfits]
    have hchunk : ∀ ws ∈ offsets limit owned,
        chunkVisits m (chunkGot proc ⟨range.1 + ws, min owned (limit - ws),
          min (owned + (size - 1)) (limit - ws)⟩) ⟨range.1 + ws, min owned (limit - ws),
          min (owned + (size - 1)) (limit - ws)⟩ =
        ((offsets (min owned (limit - ws)) m.stride).map (ws + ·)).map fun offset ↦
          ⟨range.1 + offset, min m.width (limit - offset)⟩ := by
      intro ws hws
      have hlt := ((mem_offsets howned).mp hws).1
      have hgot : chunkGot proc ⟨range.1 + ws, min owned (limit - ws),
          min (owned + (size - 1)) (limit - ws)⟩ = min (owned + (size - 1)) (limit - ws) := by
        rw [chunkGot, length_readPrefix_eq_iff]
        intro offset hoffset
        have hinside : offset < min (owned + (size - 1)) (limit - ws) := hoffset
        rw [Nat.add_assoc]
        exact hread (ws + offset) (by omega)
      rw [hgot, chunkVisits, List.map_map]
      have hmin : min (min (owned + (size - 1)) (limit - ws)) (min owned (limit - ws)) =
          min owned (limit - ws) := by omega
      rw [hmin]
      refine List.map_congr_left fun offset hoffset ↦ ?_
      have hoff := ((mem_offsets hstep).mp hoffset).1
      simp only [Function.comp_apply, Visit.mk.injEq]
      omega
    have hpieces := filter_offsets_eq_flatMap_pieces howned hstep hstride limit fun _ ↦ true
    simp only [List.filter_true] at hpieces
    rw [List.flatMap_congr hchunk, gridVisits, ← hlimit, hpieces, List.map_flatMap]

end Range

/-! ### Integer scans -/

variable {host : Host} {config : ScanConfig} {proc : ProcessHandle} {type : IntType}

theorem width_of_intType (htype : intTypeOf config.valueType = some type) :
    1 ≤ type.width ∧ type.width ≤ 8 := by
  cases hvalue : config.valueType <;> rw [hvalue] at htype <;> simp only [intTypeOf] at htype <;>
    cases htype <;> decide

/-- A first scan over integers is accepted, and its matcher is the integer search. -/
theorem scan_of_intType (htype : intTypeOf config.valueType = some type) :
    valueSizeForConfig host config = .ok type.width ∧ checkFirstScan config = .ok () ∧
      matcher host config =
        .single config.alignment type.width (intPredicate type config) := by
  unfold valueSizeForConfig checkFirstScan matcher
  cases hvalue : config.valueType <;> rw [hvalue] at htype <;> simp only [intTypeOf] at htype <;>
    cases htype <;> exact ⟨rfl, rfl, rfl⟩

theorem regionVisits_of_skip_false {size : ℕ} {region : MemoryRegion} :
    regionVisits host config proc size false region =
      rangeVisits host config proc size (region.base, region.base + region.size) := by
  unfold regionVisits regionRanges
  simp

/-- The multiples of a step below a limit, as multiples with a predicate that fails beyond. -/
theorem filter_range_mul_eq {limit step : ℕ} (hstep : 0 < step) {keep : ℕ → Bool}
    (hkeep : ∀ offset, limit ≤ offset → keep offset = false) :
    ((List.range limit).map (· * step)).filter keep = (offsets limit step).filter keep := by
  have hcount : (limit + step - 1) / step ≤ limit := by
    rcases Nat.eq_zero_or_pos limit with rfl | hpos
    · exact (Nat.div_eq_of_lt (by omega)).le
    · rw [Nat.div_le_iff_le_mul_add_pred hstep]
      have := Nat.le_mul_of_pos_left limit hstep
      omega
  have hsplit := List.range_add (n := (limit + step - 1) / step)
    (m := limit - (limit + step - 1) / step)
  rw [Nat.add_sub_cancel' hcount] at hsplit
  rw [hsplit, List.map_append, List.filter_append, ← offsets_eq_map, List.map_map]
  have hrest : (((List.range (limit - (limit + step - 1) / step)).map
      ((· * step) ∘ ((limit + step - 1) / step + ·))).filter keep) = [] := by
    rw [List.filter_eq_nil_iff]
    intro offset hoffset
    obtain ⟨index, -, rfl⟩ := List.mem_map.mp hoffset
    have hlarge : limit ≤ ((limit + step - 1) / step + index) * step := by
      have hdiv := Nat.div_add_mod (limit + step - 1) step
      have hmod := Nat.mod_lt (limit + step - 1) hstep
      rw [Nat.mul_comm] at hdiv
      rw [Nat.add_mul]
      omega
    simpa using hkeep _ hlarge
  rw [hrest, List.append_nil]

/-- What the windows of a readable region give is what the region is to yield. -/
theorem map_address_gridVisits (htype : intTypeOf config.valueType = some type)
    (halign : 1 ≤ config.alignment) (memory : ℕ → Option UInt8) {region : MemoryRegion}
    (hread : Readable memory region.base region.size) :
    ((gridVisits (.single config.alignment type.width (intPredicate type config))
        (region.base, region.base + region.size)).flatMap
      (hitsAt (.single config.alignment type.width (intPredicate type config)) memory)).map
        Hit.address = regionMatches type config memory region := by
  have hwidth := (width_of_intType htype).1
  have hlimit : region.base + region.size - region.base = region.size := by omega
  have hpieces : ∀ offset, (hitsAt (.single config.alignment type.width (intPredicate type config))
      memory ⟨region.base + offset, min type.width (region.size - offset)⟩).map Hit.address =
      if offset + type.width ≤ region.size ∧ Satisfies config.compareType
          (type.cast config.intValue) (type.cast config.intValue2)
          (type.decode (readPrefix memory (region.base + offset) type.width)) then
        [region.base + offset] else [] := by
    intro offset
    unfold hitsAt Matcher.single
    dsimp only
    by_cases hfull : offset + type.width ≤ region.size
    · have hmin : min type.width (region.size - offset) = type.width := by omega
      have hlength : (readPrefix memory (region.base + offset) type.width).length = type.width := by
        rw [length_readPrefix_eq_iff]
        intro inner hinner
        rw [Nat.add_assoc]
        exact hread _ (by omega)
      rw [hmin]
      simp only [hlength, true_and, hfull, intPredicate, relationalPredicate_iff]
      split_ifs <;> rfl
    · have hshort := length_readPrefix_le memory (region.base + offset)
        (min type.width (region.size - offset))
      rw [if_neg (by omega), if_neg (by omega)]
      rfl
  unfold gridVisits regionMatches
  dsimp only
  rw [hlimit, List.flatMap_map, List.map_flatMap]
  simp only [Matcher.width_single, hpieces]
  have hgrid : (List.range region.size).map (region.base + · * config.alignment) =
      ((List.range region.size).map (· * config.alignment)).map (region.base + ·) := by
    rw [List.map_map]
    rfl
  have hstride : (Matcher.single config.alignment type.width
      (intPredicate type config)).stride = config.alignment := Nat.max_eq_right halign
  rw [flatMap_ite_singleton, hstride, hgrid, List.filter_map, filter_range_mul_eq halign]
  · congr 1
    refine List.filter_congr fun offset _ ↦ ?_
    rw [Function.comp_apply, Bool.decide_and]
    congr 1
    exact decide_eq_decide.mpr (by omega)
  · intro offset hoffset
    rw [Function.comp_apply, decide_eq_false (by omega), Bool.false_and]

/-- An overlap that wraps around leaves no room for a value. -/
theorem hitsAt_eq_nil_of_wrap (hwidth : type.width ≤ 8) (howned : ownedLen host config < sizeModulus)
    (hwrap : sizeModulus ≤ ownedLen host config + (type.width - 1)) {range : ℕ × ℕ} {v : Visit}
    (hmatcher : matcher host config =
      .single config.alignment type.width (intPredicate type config))
    (hv : v ∈ rangeVisits host config proc type.width range) :
    hitsAt (matcher host config) proc.memory v = [] := by
  obtain ⟨c, hc, hv⟩ := List.mem_flatMap.mp hv
  obtain ⟨offset, -, rfl⟩ := List.mem_map.mp hv
  have hread : c.readLen < type.width := by
    unfold chunksOf at hc
    split_ifs at hc with hempty
    · simp at hc
    · obtain ⟨ws, -, rfl⟩ := List.mem_map.mp hc
      have hmod : (ownedLen host config + (type.width - 1)) % sizeModulus =
          ownedLen host config + (type.width - 1) - sizeModulus := by
        have hmodulus : 8 < sizeModulus := by decide
        rw [Nat.mod_eq_sub_mod hwrap]
        exact Nat.mod_eq_of_lt (by omega)
      dsimp only
      rw [hmod]
      omega
  have hgot := length_readPrefix_le proc.memory c.base c.readLen
  have hshort := length_readPrefix_le proc.memory (c.base + offset)
    (min type.width (chunkGot proc c - offset))
  unfold chunkGot at hshort
  rw [hmatcher]
  unfold hitsAt Matcher.single chunkGot
  dsimp only
  rw [if_neg (by omega)]
  rfl

/-! ### The result -/

theorem nodup_regionMatches (halign : 1 ≤ config.alignment) (memory : ℕ → Option UInt8)
    (region : MemoryRegion) : (regionMatches type config memory region).Nodup := by
  refine List.Nodup.filter _ (List.Nodup.map ?_ List.nodup_range)
  intro first second hsame
  exact Nat.eq_of_mul_eq_mul_right halign (Nat.add_left_cancel hsame)

theorem mem_regionMatches_bounds (hwidth : 1 ≤ type.width) {memory : ℕ → Option UInt8}
    {region : MemoryRegion} {address : ℕ}
    (haddress : address ∈ regionMatches type config memory region) :
    region.base ≤ address ∧ address < region.base + region.size := by
  obtain ⟨hmem, hkeep⟩ := List.mem_filter.mp haddress
  obtain ⟨index, -, rfl⟩ := List.mem_map.mp hmem
  rw [Bool.and_eq_true, decide_eq_true_iff, decide_eq_true_iff] at hkeep
  omega

/-- Two mappings that do not overlap. -/
def MemoryRegion.Disjoint (first second : MemoryRegion) : Prop :=
  first.base + first.size ≤ second.base ∨ second.base + second.size ≤ first.base

/-- Regions that do not overlap share no address. -/
theorem nodup_expectedAddresses (htype : intTypeOf config.valueType = some type)
    (halign : 1 ≤ config.alignment) (hdisjoint : proc.queryRegions.Pairwise MemoryRegion.Disjoint) :
    (expectedAddresses type config proc).Nodup := by
  have hwidth := (width_of_intType htype).1
  refine List.nodup_flatMap.mpr ⟨fun region _ ↦ nodup_regionMatches halign _ region, ?_⟩
  refine List.pairwise_filterMap.mpr (hdisjoint.imp fun {first second} hapart ↦ ?_)
  intro clipped hclipped other hother address haddress hagain
  have hfirst := clipRegion_bounds hclipped
  have hsecond := clipRegion_bounds hother
  have hin := mem_regionMatches_bounds hwidth haddress
  have hin' := mem_regionMatches_bounds hwidth hagain
  unfold MemoryRegion.Disjoint at hapart
  omega

/-- A first integer scan with page skipping off yields exactly the expected addresses, in order and
each once, as long as the length of a chunk and its lookahead fit `size_t`; otherwise it yields
nothing. -/
theorem firstScan_exact (htype : intTypeOf config.valueType = some type)
    (halign : 1 ≤ config.alignment) (hsizeT : config.alignment < sizeModulus)
    (hchunk : host.chunkBytes < sizeModulus) (hoff : host.pagemapEnabled = false)
    (hdisjoint : proc.queryRegions.Pairwise MemoryRegion.Disjoint)
    (hread : ∀ region ∈ scanRegions config proc.queryRegions,
      Readable proc.memory region.base region.size) :
    (expectedAddresses type config proc).Nodup ∧ ∃ r, firstScan host config proc = .ok r ∧
      ((r.rows type.width).map Row.address = expectedAddresses type config proc ↔
        ownedLen host config + (type.width - 1) < sizeModulus ∨
          expectedAddresses type config proc = []) := by
  obtain ⟨hsize, hcheck, hmatcher⟩ := scan_of_intType htype
  have hscan : ∃ r, firstScan host config proc = .ok r := by
    unfold firstScan
    rw [hcheck, hsize]
    dsimp only
    split_ifs <;> exact ⟨_, rfl⟩
  obtain ⟨r, hscan⟩ := hscan
  have hskip : skipNonResident host config type.width = false := by
    unfold skipNonResident
    simp [hoff]
  have hrows : (r.rows type.width).map Row.address =
      (scanHits host config proc type.width).map Hit.address := by
    rw [firstScan_rows hsize hscan, List.map_map]
    rfl
  refine ⟨nodup_expectedAddresses htype halign hdisjoint, r, hscan, ?_⟩
  rw [hrows, scanHits, scanVisits, hskip]
  by_cases hfits : ownedLen host config + (type.width - 1) < sizeModulus
  · refine iff_of_true ?_ (Or.inl hfits)
    rw [expectedAddresses, List.flatMap_assoc, List.map_flatMap]
    refine List.flatMap_congr fun region hregion ↦ ?_
    have hstride : (matcher host config).stride ∣ ownedLen host config := by
      rw [hmatcher]
      exact alignment_dvd_ownedLen host config
    have hreadable : Readable proc.memory region.base
        (region.base + region.size - region.base) := by
      rw [Nat.add_sub_cancel_left]
      exact hread region hregion
    rw [regionVisits_of_skip_false, rangeVisits_eq_gridVisits hsize hstride hfits hreadable,
      hmatcher, map_address_gridVisits htype halign proc.memory (hread region hregion)]
  · have howned : ownedLen host config < sizeModulus := by
      unfold ownedLen
      dsimp only
      have := Nat.div_mul_le_self host.chunkBytes (max 1 config.alignment)
      split_ifs <;> omega
    have hnone : ((scanRegions config proc.queryRegions).flatMap
        (regionVisits host config proc type.width false)).flatMap
        (hitsAt (matcher host config) proc.memory) = [] := by
      rw [List.flatMap_eq_nil_iff]
      intro v hv
      obtain ⟨region, -, hv⟩ := List.mem_flatMap.mp hv
      rw [regionVisits_of_skip_false] at hv
      exact hitsAt_eq_nil_of_wrap (width_of_intType htype).2 howned (by omega) hmatcher hv
    rw [hnone, List.map_nil]
    constructor
    · exact fun hempty ↦ Or.inr hempty.symm
    · rintro (hlt | hempty)
      · exact absurd hlt hfits
      · exact hempty.symm

/-- Sixteen zero bytes at `0x1000`, in one private mapping. -/
def zeroProcess : ProcessHandle where
  memory := fun address ↦ if 0x1000 ≤ address ∧ address < 0x1010 then some 0 else none
  queryRegions := [⟨0x1000, 16, MemProt.read ||| MemProt.write, .privateMap, .committed⟩]
  pagemap := fun _ ↦ none
  supportsConcurrentReads := true

/-- A search for 16-bit zeros at the given alignment. -/
def zeroSearch (alignment : ℕ) : ScanConfig := { valueType := .int16, alignment := alignment }

theorem readable_zeroProcess :
    ∀ region ∈ scanRegions (zeroSearch 4) zeroProcess.queryRegions,
      Readable zeroProcess.memory region.base region.size := by
  intro region hregion
  have hregions : scanRegions (zeroSearch 4) zeroProcess.queryRegions =
      zeroProcess.queryRegions := by decide
  rw [hregions, zeroProcess, List.mem_singleton] at hregion
  subst hregion
  intro offset hoffset
  have hin : 0x1000 ≤ 0x1000 + offset ∧ 0x1000 + offset < 0x1010 := by
    dsimp only at hoffset
    omega
  rw [zeroProcess]
  dsimp only
  rw [if_pos hin]
  rfl

/-- A search at alignment 4 finds its four addresses. -/
theorem firstScan_exact_zeroSearch :
    ∃ r, firstScan { sampleHost with pagemapEnabled := false } (zeroSearch 4) zeroProcess = .ok r ∧
      (r.rows 2).map Row.address = expectedAddresses .int16 (zeroSearch 4) zeroProcess := by
  obtain ⟨-, r, hscan, hexact⟩ := @firstScan_exact { sampleHost with pagemapEnabled := false }
    (zeroSearch 4) zeroProcess .int16 rfl (by decide) (by decide) (by decide) rfl
    (List.pairwise_singleton _ _) readable_zeroProcess
  exact ⟨r, hscan, hexact.mpr (Or.inl (by decide))⟩

/-- With the largest alignment the lookahead wraps the chunk length to zero, and the match at the
region's base is lost. -/
theorem firstScan_wrap_loses_match :
    ∃ r, firstScan { sampleHost with pagemapEnabled := false } (zeroSearch (2 ^ 64 - 1))
        zeroProcess = .ok r ∧ (r.rows 2).map Row.address = [] ∧
      expectedAddresses .int16 (zeroSearch (2 ^ 64 - 1)) zeroProcess = [0x1000] :=
  ⟨_, rfl, by decide, by decide⟩

end Cecore.Scanner
