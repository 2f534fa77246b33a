import Cecore.Scanner.Exactness

/-!
# Skipping pages that are not resident

With page skipping, a first scan looks at the resident runs of an anonymous region instead of the
whole region, each run on a grid of its own. `firstScan_skip_iff` says when that changes nothing: no
match lies where only one of the two scans looks, and where both look they see the same. Windows
without a resident byte need no condition, since they read as zeros and the probe of the scan has
rejected those.
-/

set_option autoImplicit false
set_option relaxedAutoImplicit false

namespace Cecore.Scanner

open Library.Stride Platform

/-! ### Lists of windows in ascending order -/

section Ascending

variable {α β : Type} {key : α → ℕ} {first second : List α} {f : α → List β}

/-- Two ascending lists give the same if their members do, key by key. -/
theorem flatMap_eq_of_ascending (hfirst : first.Pairwise fun a b ↦ key a < key b)
    (hsecond : second.Pairwise fun a b ↦ key a < key b)
    (hinto : ∀ a ∈ first, f a ≠ [] → ∃ b ∈ second, key b = key a ∧ f b = f a)
    (hback : ∀ b ∈ second, f b ≠ [] → ∃ a ∈ first, key a = key b ∧ f a = f b) :
    first.flatMap f = second.flatMap f := by
  classical
  have hparts : ∀ l : List α, l.flatMap f =
      ((l.map fun a ↦ (key a, f a)).filter fun p ↦ decide (p.2 ≠ [])).flatMap Prod.snd := by
    intro l
    induction l with
    | nil => rfl
    | cons a rest ih =>
      rw [List.flatMap_cons, ih, List.map_cons, List.filter_cons]
      by_cases hempty : f a = []
      · simp [hempty]
      · simp [hempty]
  have hsorted : ∀ l : List α, l.Pairwise (fun a b ↦ key a < key b) →
      ((l.map fun a ↦ (key a, f a)).filter fun p ↦ decide (p.2 ≠ [])).Pairwise
        fun p q ↦ p.1 < q.1 := by
    intro l hl
    have hmap : (l.map fun a ↦ (key a, f a)).Pairwise fun p q ↦ p.1 < q.1 :=
      List.pairwise_map.mpr hl
    exact hmap.filter _
  rw [hparts first, hparts second]
  congr 1
  have hantisymm : ∀ p q : ℕ × List β, p.1 < q.1 → q.1 < p.1 → p = q := by
    intro p q hlt hgt
    omega
  refine List.Perm.eq_of_pairwise (fun p q _ _ ↦ hantisymm p q) ?_ ?_ ?_
  · exact hsorted first hfirst
  · exact hsorted second hsecond
  · rw [List.perm_ext_iff_of_nodup]
    · rintro ⟨address, records⟩
      simp only [List.mem_filter, List.mem_map, Prod.mk.injEq, decide_eq_true_eq]
      constructor
      · rintro ⟨⟨a, ha, rfl, rfl⟩, hne⟩
        obtain ⟨b, hb, hkey, hsame⟩ := hinto a ha hne
        exact ⟨⟨b, hb, hkey, hsame⟩, hne⟩
      · rintro ⟨⟨b, hb, rfl, rfl⟩, hne⟩
        obtain ⟨a, ha, hkey, hsame⟩ := hback b hb hne
        exact ⟨⟨a, ha, hkey, hsame⟩, hne⟩
    · exact (hsorted first hfirst).imp fun h heq ↦ by rw [heq] at h; exact lt_irrefl _ h
    · exact (hsorted second hsecond).imp fun h heq ↦ by rw [heq] at h; exact lt_irrefl _ h

end Ascending

variable {host : Host} {config : ScanConfig} {proc : ProcessHandle} {size : ℕ}

theorem chunkVisits_bounds {m : Matcher} {got : ℕ} {c : Chunk} (hstride : 1 ≤ m.stride) {v : Visit}
    (hv : v ∈ chunkVisits m got c) :
    c.base ≤ v.address ∧ v.address < c.base + c.owned ∧ v.address + v.length ≤ c.base + got := by
  obtain ⟨offset, hoffset, rfl⟩ := List.mem_map.mp hv
  have hlt := ((mem_offsets hstride).mp hoffset).1
  dsimp only
  omega

/-- The windows of a range are in ascending order. -/
theorem rangeVisits_ascending (range : ℕ × ℕ) :
    (rangeVisits host config proc size range).Pairwise fun v w ↦ v.address < w.address := by
  have hstride := Matcher.one_le_stride host config
  have howned := ownedLen_pos host config
  refine List.pairwise_flatMap.mpr ⟨fun c _ ↦ ?_, ?_⟩
  · refine List.pairwise_map.mpr ((offsets_pairwise hstride).imp fun hlt ↦ ?_)
    exact Nat.add_lt_add_left hlt _
  · unfold chunksOf
    split_ifs
    · exact List.Pairwise.nil
    · refine List.pairwise_map.mpr ?_
      have hsorted := @offsets_pairwise (range.2 - range.1) _ howned
      refine (List.Pairwise.and_mem.mp hsorted).imp ?_
      rintro earlier later ⟨hearlier, hlater, hlt⟩ v hv w hw
      have hin := chunkVisits_bounds hstride hv
      have hin' := chunkVisits_bounds hstride hw
      have hgap : earlier + ownedLen host config ≤ later := by
        obtain ⟨k, rfl⟩ := ((mem_offsets howned).mp hearlier).2
        obtain ⟨l, rfl⟩ := ((mem_offsets howned).mp hlater).2
        have hkl : k < l := Nat.lt_of_mul_lt_mul_left hlt
        calc ownedLen host config * k + ownedLen host config
            = ownedLen host config * (k + 1) := by ring
          _ ≤ ownedLen host config * l := Nat.mul_le_mul_left _ hkl
      dsimp only at hin hin'
      omega

/-- The windows of a region are in ascending order. -/
theorem regionVisits_ascending {skip : Bool} {region : MemoryRegion} (hregion : 0 < region.size) :
    (regionVisits host config proc size skip region).Pairwise
      fun v w ↦ v.address < w.address := by
  refine List.pairwise_flatMap.mpr ⟨fun range _ ↦ rangeVisits_ascending range, ?_⟩
  refine (regionRanges_pieces hregion).ascending.imp fun hbefore v hv w hw ↦ ?_
  have hin := mem_rangeVisits_bounds hv
  have hin' := mem_rangeVisits_bounds hw
  omega

/-- A window does not reach past its range. -/
theorem rangeVisits_end {range : ℕ × ℕ} {v : Visit}
    (hv : v ∈ rangeVisits host config proc size range) : v.address + v.length ≤ range.2 := by
  obtain ⟨c, hc, hv⟩ := List.mem_flatMap.mp hv
  have hend := (chunkVisits_bounds (Matcher.one_le_stride host config) hv).2.2
  have hgot := length_readPrefix_le proc.memory c.base c.readLen
  have hread := (chunksOf_fits (ownedLen_pos host config) hc).1.read
  unfold chunkGot at hend
  omega

theorem regionVisits_end {skip : Bool} {region : MemoryRegion} (hregion : 0 < region.size)
    {v : Visit} (hv : v ∈ regionVisits host config proc size skip region) :
    v.address + v.length ≤ region.base + region.size := by
  obtain ⟨range, hrange, hv⟩ := List.mem_flatMap.mp hv
  have hinside := (regionRanges_pieces hregion).inside range hrange
  have hend := rangeVisits_end hv
  omega

theorem length_le_width_of_mem {skip : Bool} {region : MemoryRegion} {v : Visit}
    (hv : v ∈ regionVisits host config proc size skip region) :
    v.length ≤ (matcher host config).width := by
  obtain ⟨range, -, hv⟩ := List.mem_flatMap.mp hv
  obtain ⟨c, -, hv⟩ := List.mem_flatMap.mp hv
  obtain ⟨offset, -, rfl⟩ := List.mem_map.mp hv
  exact Nat.min_le_left _ _

/-! ### Zeros -/

/-- When eight zero bytes match no sub-type, neither do fewer. -/
theorem allTypes_report_zeros {unit : FloatUnit} {length : ℕ} (hlength : length ≤ 8)
    (hzeros : (Matcher.allTypes unit config).report (List.replicate 8 0) = []) :
    (Matcher.allTypes unit config).report (List.replicate length 0) = [] := by
  have htake : ∀ width, width ≤ length →
      (List.replicate length (0 : UInt8)).take width = (List.replicate 8 0).take width := by
    intro width hwidth
    rw [List.take_replicate, List.take_replicate, Nat.min_eq_left hwidth,
      Nat.min_eq_left (hwidth.trans hlength)]
  have hint : ∀ type : IntType, allIntMatch type config (List.replicate 8 0) = false →
      allIntMatch type config (List.replicate length 0) = false := by
    intro type hfalse
    unfold allIntMatch at hfalse ⊢
    by_cases hwidth : type.width ≤ length
    · rw [List.length_replicate] at hfalse ⊢
      rw [decide_eq_true (hwidth.trans hlength)] at hfalse
      rw [decide_eq_true hwidth, htake _ hwidth]
      exact hfalse
    · simp [hwidth]
  have hfloat : ∀ format : FloatFormat,
      allFloatMatch unit format config (List.replicate 8 0) = false →
      allFloatMatch unit format config (List.replicate length 0) = false := by
    intro format hfalse
    unfold allFloatMatch at hfalse ⊢
    by_cases hwidth : format.width ≤ length
    · rw [List.length_replicate] at hfalse ⊢
      rw [decide_eq_true (hwidth.trans hlength)] at hfalse
      rw [decide_eq_true hwidth, htake _ hwidth]
      exact hfalse
    · simp [hwidth]
  unfold Matcher.allTypes at hzeros ⊢
  dsimp only at hzeros ⊢
  rw [List.map_eq_nil_iff, List.filter_eq_nil_iff] at hzeros ⊢
  simp only [allTypeMatches, List.mem_cons, List.not_mem_nil, or_false, id, forall_eq_or_imp,
    forall_eq, Bool.not_eq_true] at hzeros ⊢
  obtain ⟨h1, h2, h3, h4, h5, h6⟩ := hzeros
  exact ⟨hint _ h1, hint _ h2, hint _ h3, hint _ h4, hfloat _ h5, hfloat _ h6⟩

/-- When a full window of zeros gives nothing, neither does a shorter one. -/
theorem report_zeros {length : ℕ} (hlength : length ≤ (matcher host config).width)
    (hzeros : (matcher host config).report (List.replicate (matcher host config).width 0) = []) :
    (matcher host config).report (List.replicate length 0) = [] := by
  by_cases hall : config.valueType = .all
  · rw [matcher_eq_allTypes hall] at hlength hzeros ⊢
    exact allTypes_report_zeros hlength hzeros
  · obtain ⟨stride, width, pred, hsingle⟩ := matcher_eq_single host hall
    rw [hsingle] at hlength hzeros ⊢
    by_cases hfull : length = width
    · rw [hfull]
      exact hzeros
    · unfold Matcher.single
      dsimp only
      rw [List.length_replicate, if_neg fun h ↦ hfull h.1]

/-- The probe of a skipping scan has seen a window of zeros give nothing. -/
theorem report_zeros_of_skip (hsize : valueSizeForConfig host config = .ok size)
    (hskip : skipNonResident host config size = true) :
    (matcher host config).report (List.replicate (matcher host config).width 0) = [] := by
  have hpos := one_le_of_valueSizeForConfig hsize
  unfold skipNonResident at hskip
  dsimp only at hskip
  split_ifs at hskip with hactive
  rw [decide_eq_true_iff, List.length_replicate, scanRegion_eq_scanWindows hsize
    (by rw [List.length_replicate]) (by rw [List.length_replicate]; omega)] at hskip
  unfold scanWindows at hskip
  rw [List.flatMap_eq_nil_iff] at hskip
  have hfirst := hskip 0 ((mem_offsets (Matcher.one_le_stride host config)).mpr
    ⟨by omega, dvd_zero _⟩)
  rw [List.map_eq_nil_iff, slice, List.drop_zero, List.take_replicate, width_matcher hsize,
    Nat.min_eq_left (by omega)] at hfirst
  rw [width_matcher hsize]
  exact hfirst

theorem readPrefix_eq_replicate {memory : ℕ → Option UInt8} {address length : ℕ}
    (hzero : ∀ offset < length, memory (address + offset) = some 0) :
    readPrefix memory address length = List.replicate length 0 := by
  refine List.ext_getElem? fun offset ↦ ?_
  have hfull : (readPrefix memory address length).length = length := by
    rw [length_readPrefix_eq_iff]
    intro offset hoffset
    rw [hzero offset hoffset]
    rfl
  by_cases hlt : offset < length
  · rw [getElem?_readPrefix (by omega), hzero offset hlt, List.getElem?_replicate, if_pos hlt]
  · rw [List.getElem?_eq_none (by omega), List.getElem?_eq_none (by simpa using hlt)]

/-! ### Where the two scans differ -/

/-- The page of an address is neither present nor swapped out. -/
def NonResident (proc : ProcessHandle) (pageSize address : ℕ) : Prop :=
  ∃ entry, proc.pagemap (address / pageSize) = some entry ∧ worthReading entry = false

/-- Anonymous memory that is not resident reads as zeros. -/
def ZeroFilled (host : Host) (config : ScanConfig) (proc : ProcessHandle) : Prop :=
  ∀ region ∈ scanRegions config proc.queryRegions, region.type = .privateMap →
    ∀ address, region.base ≤ address → address < region.base + region.size →
      NonResident proc host.pageSize address → proc.memory address = some 0

/-- What the matcher reports on a window. -/
def windowReport (host : Host) (config : ScanConfig) (proc : ProcessHandle) (v : Visit) :
    List (List UInt8) :=
  (matcher host config).report (readPrefix proc.memory v.address v.length)

/-- Looking at resident runs instead of whole regions changes nothing. -/
structure SkipHarmless (host : Host) (config : ScanConfig) (proc : ProcessHandle) (size : ℕ) :
    Prop where
  /-- A window with a resident byte that only one of the scans looks at holds no match. -/
  onlyOne : ∀ region ∈ scanRegions config proc.queryRegions, ∀ skip,
    ∀ v ∈ regionVisits host config proc size skip region,
      (∀ w ∈ regionVisits host config proc size (!skip) region, w.address ≠ v.address) →
      (∃ offset < v.length, ¬NonResident proc host.pageSize (v.address + offset)) →
      windowReport host config proc v = []
  /-- Where both scans look, a window cut off by the end of a run gives the same. -/
  both : ∀ region ∈ scanRegions config proc.queryRegions,
    ∀ v ∈ regionVisits host config proc size true region,
    ∀ w ∈ regionVisits host config proc size false region, v.address = w.address →
      windowReport host config proc v = windowReport host config proc w

theorem hitsAt_eq_of_windowReport {v w : Visit} (haddress : v.address = w.address)
    (hsame : windowReport host config proc v = windowReport host config proc w) :
    hitsAt (matcher host config) proc.memory v = hitsAt (matcher host config) proc.memory w := by
  unfold windowReport at hsame
  rw [hitsAt, hitsAt, hsame, haddress]

/-- Regions that are not anonymous are read whole by both scans. -/
theorem regionVisits_of_not_private {region : MemoryRegion} (htype : region.type ≠ .privateMap)
    (skip : Bool) : regionVisits host config proc size skip region =
      regionVisits host config proc size false region := by
  unfold regionVisits regionRanges
  simp [htype]

/-- In a skipping scan, a match that only one of the scans looks at touches a resident byte. -/
theorem windowReport_eq_nil (hsize : valueSizeForConfig host config = .ok size)
    (hzero : ZeroFilled host config proc) (hskip : skipNonResident host config size = true)
    (hharmless : SkipHarmless host config proc size) {region : MemoryRegion}
    (hregion : region ∈ scanRegions config proc.queryRegions) (hpos : 0 < region.size)
    (hprivate : region.type = .privateMap) {skip : Bool} {v : Visit}
    (hv : v ∈ regionVisits host config proc size skip region)
    (honly : ∀ w ∈ regionVisits host config proc size (!skip) region, w.address ≠ v.address) :
    windowReport host config proc v = [] := by
  by_cases htouch : ∃ offset < v.length, ¬NonResident proc host.pageSize (v.address + offset)
  · exact hharmless.onlyOne region hregion skip v hv honly htouch
  · have hstart := (mem_regionVisits_bounds hpos hv).1
    have hend := regionVisits_end hpos hv
    have hbytes : readPrefix proc.memory v.address v.length = List.replicate v.length 0 := by
      refine readPrefix_eq_replicate fun offset hoffset ↦ ?_
      refine hzero region hregion hprivate _ (by omega) (by omega) ?_
      by_contra hresident
      exact htouch ⟨offset, hoffset, hresident⟩
    rw [windowReport, hbytes]
    exact report_zeros (length_le_width_of_mem hv) (report_zeros_of_skip hsize hskip)

/-- If skipping is harmless, a region gives the same records either way. -/
theorem flatMap_regionVisits_eq (hsize : valueSizeForConfig host config = .ok size)
    (hzero : ZeroFilled host config proc) (hskip : skipNonResident host config size = true)
    (hharmless : SkipHarmless host config proc size) {region : MemoryRegion}
    (hregion : region ∈ scanRegions config proc.queryRegions) (hpos : 0 < region.size) :
    (regionVisits host config proc size true region).flatMap
        (hitsAt (matcher host config) proc.memory) =
      (regionVisits host config proc size false region).flatMap
        (hitsAt (matcher host config) proc.memory) := by
  by_cases hprivate : region.type = .privateMap
  · have hpartner : ∀ skip, ∀ v ∈ regionVisits host config proc size skip region,
        hitsAt (matcher host config) proc.memory v ≠ [] →
        ∃ w ∈ regionVisits host config proc size (!skip) region, w.address = v.address := by
      intro skip v hv hne
      by_contra hnone
      apply hne
      have hempty := windowReport_eq_nil hsize hzero hskip hharmless hregion hpos hprivate hv
        fun w hw hsame ↦ hnone ⟨w, hw, hsame⟩
      unfold windowReport at hempty
      rw [hitsAt, hempty, List.map_nil]
    refine flatMap_eq_of_ascending (regionVisits_ascending hpos)
      (regionVisits_ascending hpos) ?_ ?_
    · intro v hv hne
      obtain ⟨w, hw, hsame⟩ := hpartner true v hv hne
      exact ⟨w, hw, hsame, (hitsAt_eq_of_windowReport hsame.symm
        (hharmless.both region hregion v hv w hw hsame.symm)).symm⟩
    · intro w hw hne
      obtain ⟨v, hv, hsame⟩ := hpartner false w hw hne
      exact ⟨v, hv, hsame, hitsAt_eq_of_windowReport hsame
        (hharmless.both region hregion v hv w hw hsame)⟩
  · rw [regionVisits_of_not_private hprivate]

/-! ### Equal results are harmless skipping -/

section Disjoint

variable {skip : Bool} (hdisjoint : proc.queryRegions.Pairwise MemoryRegion.Disjoint)

include hdisjoint in
theorem disjoint_scanRegions :
    (scanRegions config proc.queryRegions).Pairwise MemoryRegion.Disjoint := by
  refine List.pairwise_filterMap.mpr (hdisjoint.imp fun {first second} hapart ↦ ?_)
  intro clipped hclipped other hother
  have hfirst := clipRegion_bounds hclipped
  have hsecond := clipRegion_bounds hother
  unfold MemoryRegion.Disjoint at hapart ⊢
  omega

theorem size_pos_of_mem_scanRegions {region : MemoryRegion}
    (hregion : region ∈ scanRegions config proc.queryRegions) : 0 < region.size := by
  obtain ⟨r, -, hclip⟩ := List.mem_filterMap.mp hregion
  exact (clipRegion_bounds hclip).1

include hdisjoint in
/-- Among disjoint regions, a window at an address of a region is one of that region. -/
theorem mem_regionVisits_of_address {region : MemoryRegion}
    (hregion : region ∈ scanRegions config proc.queryRegions) {w : Visit}
    (hw : w ∈ (scanRegions config proc.queryRegions).flatMap
      (regionVisits host config proc size skip))
    (hin : region.base ≤ w.address ∧ w.address < region.base + region.size) :
    w ∈ regionVisits host config proc size skip region := by
  obtain ⟨other, hother, hw⟩ := List.mem_flatMap.mp hw
  have hbounds := mem_regionVisits_bounds (size_pos_of_mem_scanRegions hother) hw
  have hsame : other = region := by
    by_contra hne
    have hsymm : Std.Symm MemoryRegion.Disjoint := ⟨fun _ _ h ↦ Or.symm h⟩
    have hapart := (disjoint_scanRegions hdisjoint).forall hother hregion hne
    unfold MemoryRegion.Disjoint at hapart
    omega
  exact hsame ▸ hw

include hdisjoint in
/-- A scan of disjoint regions looks at an address once. -/
theorem nodup_address_flatMap : (((scanRegions config proc.queryRegions).flatMap
    (regionVisits host config proc size skip)).map Visit.address).Nodup := by
  refine List.pairwise_map.mpr (List.pairwise_flatMap.mpr ⟨fun region hregion ↦ ?_, ?_⟩)
  · exact (regionVisits_ascending (size_pos_of_mem_scanRegions hregion)).imp fun hlt ↦ ne_of_lt hlt
  · refine (List.Pairwise.and_mem.mp (disjoint_scanRegions hdisjoint)).imp ?_
    rintro first second ⟨hfirst, hsecond, hapart⟩ v hv w hw
    have hin := mem_regionVisits_bounds (size_pos_of_mem_scanRegions hfirst) hv
    have hin' := mem_regionVisits_bounds (size_pos_of_mem_scanRegions hsecond) hw
    unfold MemoryRegion.Disjoint at hapart
    omega

end Disjoint

/-- The records at one address are those of the window there. -/
theorem filter_address_flatMap {visits : List Visit} (hnodup : (visits.map Visit.address).Nodup)
    {m : Matcher} {memory : ℕ → Option UInt8} {v : Visit} (hv : v ∈ visits) :
    (visits.flatMap (hitsAt m memory)).filter (fun hit ↦ decide (hit.address = v.address)) =
      hitsAt m memory v := by
  have hown : ∀ w, (hitsAt m memory w).filter (fun hit ↦ decide (hit.address = v.address)) =
      if w.address = v.address then hitsAt m memory w else [] := by
    intro w
    split_ifs with hsame
    · refine List.filter_eq_self.mpr fun hit hhit ↦ ?_
      obtain ⟨value, -, rfl⟩ := List.mem_map.mp hhit
      exact decide_eq_true hsame
    · refine List.filter_eq_nil_iff.mpr fun hit hhit ↦ ?_
      obtain ⟨value, -, rfl⟩ := List.mem_map.mp hhit
      simpa using hsame
  induction visits with
  | nil => simp at hv
  | cons w rest ih =>
    obtain ⟨hfresh, hrest⟩ := List.nodup_cons.mp hnodup
    rw [List.flatMap_cons, List.filter_append, hown]
    rcases List.mem_cons.mp hv with rfl | hmem
    · have hnone : (rest.flatMap (hitsAt m memory)).filter
          (fun hit ↦ decide (hit.address = v.address)) = [] := by
        rw [List.filter_flatMap, List.flatMap_eq_nil_iff]
        intro w hw
        rw [hown, if_neg]
        exact fun hsame ↦ hfresh (List.mem_map.mpr ⟨w, hw, hsame⟩)
      rw [if_pos rfl, hnone, List.append_nil]
    · have hother : w.address ≠ v.address := fun hsame ↦
        hfresh (List.mem_map.mpr ⟨v, hmem, hsame.symm⟩)
      rw [if_neg hother, List.nil_append, ih hrest hmem]

theorem filter_address_flatMap_eq_nil {visits : List Visit} {m : Matcher}
    {memory : ℕ → Option UInt8} {address : ℕ} (hnone : ∀ w ∈ visits, w.address ≠ address) :
    (visits.flatMap (hitsAt m memory)).filter (fun hit ↦ decide (hit.address = address)) = [] := by
  rw [List.filter_flatMap, List.flatMap_eq_nil_iff]
  intro w hw
  refine List.filter_eq_nil_iff.mpr fun hit hhit ↦ ?_
  obtain ⟨value, -, rfl⟩ := List.mem_map.mp hhit
  simpa using hnone w hw

theorem windowReport_eq_of_hitsAt {v w : Visit}
    (hsame : hitsAt (matcher host config) proc.memory v =
      hitsAt (matcher host config) proc.memory w) :
    windowReport host config proc v = windowReport host config proc w := by
  have hvalues := congrArg (List.map Hit.value) hsame
  simpa [hitsAt, List.map_map, Function.comp_def, windowReport] using hvalues

/-- When the two scans of disjoint regions give the same records, skipping was harmless. -/
theorem skipHarmless_of_flatMap_eq
    (hdisjoint : proc.queryRegions.Pairwise MemoryRegion.Disjoint)
    (hsame : ∀ skip, ((scanRegions config proc.queryRegions).flatMap
        (regionVisits host config proc size skip)).flatMap
        (hitsAt (matcher host config) proc.memory) =
      ((scanRegions config proc.queryRegions).flatMap
        (regionVisits host config proc size (!skip))).flatMap
        (hitsAt (matcher host config) proc.memory)) :
    SkipHarmless host config proc size where
  onlyOne := by
    intro region hregion skip v hv honly _
    have hmem : v ∈ (scanRegions config proc.queryRegions).flatMap
        (regionVisits host config proc size skip) := List.mem_flatMap.mpr ⟨region, hregion, hv⟩
    have hhits := @filter_address_flatMap _ (nodup_address_flatMap hdisjoint)
      (matcher host config) proc.memory _ hmem
    rw [hsame skip, filter_address_flatMap_eq_nil] at hhits
    · have := congrArg (List.map Hit.value) hhits
      simpa [hitsAt, List.map_map, Function.comp_def, windowReport] using this.symm
    · intro w hw haddress
      refine honly w (mem_regionVisits_of_address hdisjoint hregion hw ?_) haddress
      rw [haddress]
      exact mem_regionVisits_bounds (size_pos_of_mem_scanRegions hregion) hv
  both := by
    intro region hregion v hv w hw haddress
    have hmem := List.mem_flatMap.mpr ⟨region, hregion, hv⟩
    have hmem' := List.mem_flatMap.mpr ⟨region, hregion, hw⟩
    have hhits := @filter_address_flatMap _ (nodup_address_flatMap hdisjoint)
      (matcher host config) proc.memory _ hmem
    have hhits' := @filter_address_flatMap _ (nodup_address_flatMap hdisjoint)
      (matcher host config) proc.memory _ hmem'
    apply windowReport_eq_of_hitsAt
    rw [← hhits, ← hhits', haddress, hsame true]
    rfl

/-! ### The result -/

/-- A host with page skipping switched on or off. -/
def Host.withSkipping (host : Host) (enabled : Bool) : Host :=
  { host with pagemapEnabled := enabled }

/-- The rows of a first scan, or the message of its exception. -/
def firstScanRows (host : Host) (config : ScanConfig) (proc : ProcessHandle) (size : ℕ) :
    Except Text (List Row) :=
  (firstScan host config proc).map fun r ↦ r.rows size

theorem firstScan_error_iff (hsize : valueSizeForConfig host config = .ok size)
    (message : Text) : firstScan host config proc = .error message ↔
      checkFirstScan config = .error message := by
  unfold firstScan
  rw [hsize]
  cases hcheck : checkFirstScan config with
  | error other => simp
  | ok _ =>
    dsimp only
    split_ifs <;> simp

theorem firstScanRows_eq (hsize : valueSizeForConfig host config = .ok size) :
    firstScanRows host config proc size =
      (checkFirstScan config).map fun _ ↦ (scanHits host config proc size).map Hit.row := by
  unfold firstScanRows
  cases hscan : firstScan host config proc with
  | error message => rw [(firstScan_error_iff hsize message).mp hscan]; rfl
  | ok r =>
    cases hcheck : checkFirstScan config with
    | error message =>
      rw [(firstScan_error_iff hsize message).mpr hcheck] at hscan
      simp at hscan
    | ok _ =>
      have hrows := firstScan_rows hsize hscan
      exact congrArg Except.ok hrows

theorem valueSizeForConfig_withSkipping (enabled : Bool) :
    valueSizeForConfig (host.withSkipping enabled) config = valueSizeForConfig host config := rfl

theorem scanHits_withSkipping (enabled : Bool) :
    scanHits (host.withSkipping enabled) config proc size =
      ((scanRegions config proc.queryRegions).flatMap (regionVisits host config proc size
        (skipNonResident (host.withSkipping enabled) config size))).flatMap
        (hitsAt (matcher host config) proc.memory) := rfl

theorem skipNonResident_disabled : skipNonResident (host.withSkipping false) config size = false := by
  unfold skipNonResident Host.withSkipping
  simp

theorem map_row_inj {first second : List Hit} (h : first.map Hit.row = second.map Hit.row) :
    first = second := by
  refine List.map_injective_iff.mpr ?_ h
  rintro ⟨address, value⟩ ⟨address', value'⟩ hrow
  simpa [Hit.row] using hrow

/-- 256 KiB of anonymous memory at `0x10000`. Only its first page is resident; the byte `0xAA` is
the last of that page, and everything else is zero. -/
def straddlingProcess : ProcessHandle where
  memory := fun address ↦
    if 0x10000 ≤ address ∧ address < 0x50000 then some (if address = 0x10FFF then 0xAA else 0)
    else none
  queryRegions := [⟨0x10000, 0x40000, MemProt.read ||| MemProt.write, .privateMap, .committed⟩]
  pagemap := fun page ↦ some (if page = 16 then 2 ^ 63 else 0)
  supportsConcurrentReads := true

/-- A search for the bytes `AA 00 00` at the default alignment. -/
def straddlingSearch : ScanConfig where
  valueType := .byteArray
  byteArray := [0xAA, 0, 0]
  byteArrayMask := [0xFF, 0xFF, 0xFF]

theorem scanRegions_straddling :
    scanRegions straddlingSearch straddlingProcess.queryRegions =
      straddlingProcess.queryRegions := by decide

theorem readable_straddling : Readable straddlingProcess.memory 0x10000 0x40000 := by
  intro offset hoffset
  have hin : 0x10000 ≤ 0x10000 + offset ∧ 0x10000 + offset < 0x50000 := by omega
  rw [straddlingProcess]
  dsimp only
  rw [if_pos hin]
  rfl

theorem zeroFilled_straddling : ZeroFilled sampleHost straddlingSearch straddlingProcess := by
  intro region hregion _ address hlow hhigh hnonresident
  rw [scanRegions_straddling, straddlingProcess, List.mem_singleton] at hregion
  subst hregion
  obtain ⟨entry, hentry, hworth⟩ := hnonresident
  have hmatch : address ≠ 0x10FFF := by
    rintro rfl
    have hresident : entry = 2 ^ 63 := (Option.some.inj hentry).symm
    rw [hresident] at hworth
    revert hworth
    decide
  rw [straddlingProcess]
  dsimp only at hlow hhigh ⊢
  rw [if_pos (by omega), if_neg hmatch]

end Cecore.Scanner
