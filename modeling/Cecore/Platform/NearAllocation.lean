import Cecore.Core.Types
import Mathlib.Algebra.Order.Group.Abs
import Mathlib.Algebra.Order.Group.Unbundled.Int
import Mathlib.Tactic.Ring

/-!
# Near allocation

`LinuxProcessHandle::allocate` with a preferred base walks over the gaps in front of the mapped
regions and proposes an address in each that passes a test for the distance. The test looks at the
start of a gap and at the last place where the block fits. So it overlooks a wide gap around the
base and never comes to the one behind the last region, and a block that starts in range may end out
of it. `gapWalk_iff` says for which snapshots every proposal is right and none is missing.
-/

set_option autoImplicit false
set_option relaxedAutoImplicit false

namespace Cecore.Platform

/-! ### The walk -/

/-- `(value + 4095) & ~4095`. -/
def roundUp (value : ℕ) : ℕ := (value + 4095) % sizeModulus / 4096 * 4096

/-- `static_cast<int64_t>` of an address. -/
def signedAddress (address : ℕ) : ℤ :=
  if address < 2 ^ 63 then address else (address : ℤ) - sizeModulus

/-- `MAX_DIST`. -/
def maxDist : ℕ := 0x7FFF0000

/-- The test of a gap: its start or the last place for the block is in range. -/
def testedNear (preferredBase allocSize gapStart gapEnd : ℕ) : Bool :=
  let distStart := signedAddress gapStart - signedAddress preferredBase
  let distEnd := signedAddress (gapEnd - allocSize) - signedAddress preferredBase
  decide (|distStart| < maxDist) || decide (|distEnd| < maxDist)

/-- `std::clamp`. -/
def clamp (value low high : ℕ) : ℕ :=
  if value < low then low else if high < value then high else value

/-- The address in the gap that is closest to the preferred base. -/
def gapAddress (preferredBase allocSize gapStart gapEnd : ℕ) : ℕ :=
  roundUp (clamp preferredBase gapStart (gapEnd - allocSize))

/-- The addresses the walk proposes, in order, behind the end of the region before. -/
def gapWalk (preferredBase allocSize : ℕ) : (prevEnd : ℕ) → List MemoryRegion → List ℕ
  | _, [] => []
  | gapStart, r :: rest =>
    let gapEnd := r.base
    let allocAddr := gapAddress preferredBase allocSize gapStart gapEnd
    (if gapStart < gapEnd ∧ allocSize ≤ gapEnd - gapStart ∧
        testedNear preferredBase allocSize gapStart gapEnd ∧ allocAddr + allocSize ≤ gapEnd then
      [allocAddr]
    else []) ++ gapWalk preferredBase allocSize ((r.base + r.size) % sizeModulus) rest

/-- `allocate`, with the results of `mmap` in the target: the first proposal that is mapped, or a
block anywhere. -/
def allocate (mmapInTarget : (addr len : ℕ) → (fixedNoReplace : Bool) → ℤ)
    (regions : List MemoryRegion) (size preferredBase : ℕ) : Option ℕ :=
  let allocSize := roundUp size
  let proposals := if preferredBase = 0 then [] else gapWalk preferredBase allocSize 0 regions
  match (proposals.map fun addr ↦ mmapInTarget addr allocSize true).find? fun result ↦
      decide (0 < result) with
  | some result => some result.toNat
  | none =>
    let result := mmapInTarget 0 allocSize false
    if result ≤ 0 then none else some result.toNat

/-! ### Snapshots and blocks -/

/-- A snapshot of the mapped regions: whole pages, ascending, and below the last page. -/
structure Mapped (regions : List MemoryRegion) : Prop where
  aligned : ∀ r ∈ regions, 4096 ∣ r.base ∧ 4096 ∣ r.size
  ascending : regions.Pairwise fun first second ↦ first.base + first.size ≤ second.base
  below : ∀ r ∈ regions, r.base + r.size < sizeModulus

/-- The block is free in the snapshot, and both of its ends are in range. -/
structure Suitable (regions : List MemoryRegion) (preferredBase allocSize addr : ℕ) : Prop where
  free : ∀ r ∈ regions, addr + allocSize ≤ r.base ∨ r.base + r.size ≤ addr
  fits : addr + allocSize ≤ sizeModulus
  startNear : |(addr : ℤ) - preferredBase| < maxDist
  endNear : |(addr + allocSize : ℤ) - preferredBase| < maxDist

/-- The stretches in front of the regions, from the end of the one before. -/
def gaps : (prevEnd : ℕ) → List MemoryRegion → List (ℕ × ℕ)
  | _, [] => []
  | prevEnd, r :: rest => (prevEnd, r.base) :: gaps (r.base + r.size) rest

/-- A gap with room for the block that passes the test. -/
structure Tested (preferredBase allocSize : ℕ) (gap : ℕ × ℕ) : Prop where
  nonempty : gap.1 < gap.2
  room : allocSize ≤ gap.2 - gap.1
  near : testedNear preferredBase allocSize gap.1 gap.2 = true

/-- The block at the place of the gap that is closest to the preferred base is in range: the start
of a gap above the base, the last place of a gap below it, the next page in a gap around it. -/
structure InRange (preferredBase allocSize : ℕ) (gap : ℕ × ℕ) : Prop where
  above : preferredBase ≤ gap.1 → gap.1 + allocSize < preferredBase + maxDist
  below : gap.1 < preferredBase → gap.2 ≤ preferredBase + allocSize →
    preferredBase + allocSize < gap.2 + maxDist ∧ gap.2 < preferredBase + maxDist
  around : gap.1 < preferredBase → preferredBase + allocSize < gap.2 →
    roundUp preferredBase + allocSize < preferredBase + maxDist

/-- A suitable block that the walk does not look for: in a gap that fails the test, or behind the
last region. -/
def Overlooked (regions : List MemoryRegion) (preferredBase allocSize addr : ℕ) : Prop :=
  Suitable regions preferredBase allocSize addr ∧
    ((∃ gap ∈ gaps 0 regions, gap.1 ≤ addr ∧ addr + allocSize ≤ gap.2 ∧
        testedNear preferredBase allocSize gap.1 gap.2 = false) ∨
      ∀ r ∈ regions, r.base + r.size ≤ addr)

/-! ### Gaps -/

variable {regions : List MemoryRegion} {preferredBase allocSize : ℕ}

theorem Mapped.tail {r : MemoryRegion} {rest : List MemoryRegion} (h : Mapped (r :: rest)) :
    Mapped rest :=
  ⟨fun later hlater ↦ h.aligned later (List.mem_cons_of_mem _ hlater),
    (List.pairwise_cons.mp h.ascending).2,
    fun later hlater ↦ h.below later (List.mem_cons_of_mem _ hlater)⟩

/-- What is known of a gap. -/
structure IsGap (regions : List MemoryRegion) (gap : ℕ × ℕ) : Prop where
  startAligned : 4096 ∣ gap.1
  endAligned : 4096 ∣ gap.2
  below : gap.2 < sizeModulus
  free : ∀ r ∈ regions, gap.2 ≤ r.base ∨ r.base + r.size ≤ gap.1

theorem isGap_of_mem (h : Mapped regions) {prevEnd : ℕ} (hprev : 4096 ∣ prevEnd)
    {gap : ℕ × ℕ} (hgap : gap ∈ gaps prevEnd regions)
    (hbehind : ∀ r ∈ regions, prevEnd ≤ r.base) : prevEnd ≤ gap.1 ∧ IsGap regions gap := by
  induction regions generalizing prevEnd with
  | nil => exact absurd hgap List.not_mem_nil
  | cons r rest ih =>
    obtain ⟨hbase, hsize⟩ := h.aligned r List.mem_cons_self
    have hbelow := h.below r List.mem_cons_self
    have hlater := (List.pairwise_cons.mp h.ascending).1
    rw [gaps] at hgap
    rcases List.mem_cons.mp hgap with rfl | hrest
    · refine ⟨le_rfl, hprev, hbase, by dsimp only; omega, fun other hother ↦ Or.inl ?_⟩
      rcases List.mem_cons.mp hother with rfl | hother
      · exact le_rfl
      · have := hlater other hother
        dsimp only
        omega
    · obtain ⟨hstart, hisGap⟩ := ih h.tail (Nat.dvd_add hbase hsize) hrest hlater
      have hfirst := hbehind r List.mem_cons_self
      refine ⟨by omega, hisGap.startAligned, hisGap.endAligned, hisGap.below, fun other hother ↦ ?_⟩
      rcases List.mem_cons.mp hother with rfl | hother
      · exact Or.inr hstart
      · exact hisGap.free other hother

/-- A free block lies in a gap, or behind the last region. -/
theorem mem_gap_of_free {prevEnd addr : ℕ} (hprev : prevEnd ≤ addr)
    (hfree : ∀ r ∈ regions, addr + allocSize ≤ r.base ∨ r.base + r.size ≤ addr) :
    (∃ gap ∈ gaps prevEnd regions, gap.1 ≤ addr ∧ addr + allocSize ≤ gap.2) ∨
      ∀ r ∈ regions, r.base + r.size ≤ addr := by
  induction regions generalizing prevEnd with
  | nil => exact Or.inr fun r hr ↦ absurd hr List.not_mem_nil
  | cons r rest ih =>
    rw [gaps]
    rcases hfree r List.mem_cons_self with hbefore | hbehind
    · exact Or.inl ⟨_, List.mem_cons_self, hprev, hbefore⟩
    · rcases ih hbehind fun other hother ↦ hfree other (List.mem_cons_of_mem _ hother) with
        ⟨gap, hgap, hin⟩ | hall
      · exact Or.inl ⟨gap, List.mem_cons_of_mem _ hgap, hin⟩
      · refine Or.inr fun other hother ↦ ?_
        rcases List.mem_cons.mp hother with rfl | hother
        · exact hbehind
        · exact hall other hother

/-- The proposals are the addresses of the gaps that pass the test. -/
theorem mem_gapWalk (h : Mapped regions) {prevEnd addr : ℕ} :
    addr ∈ gapWalk preferredBase allocSize prevEnd regions ↔
      ∃ gap ∈ gaps prevEnd regions, Tested preferredBase allocSize gap ∧
        addr = gapAddress preferredBase allocSize gap.1 gap.2 ∧ addr + allocSize ≤ gap.2 := by
  induction regions generalizing prevEnd with
  | nil => simp [gapWalk, gaps]
  | cons r rest ih =>
    have hbelow := h.below r List.mem_cons_self
    rw [gapWalk, gaps, List.mem_append, Nat.mod_eq_of_lt hbelow, ih h.tail]
    simp only [List.mem_cons, or_and_right, exists_or, exists_eq_left]
    refine or_congr_left ?_
    split_ifs with hproposed
    · obtain ⟨hgap, hroom, hnear, hfits⟩ := hproposed
      rw [List.mem_singleton]
      exact ⟨fun heq ↦ ⟨⟨hgap, hroom, hnear⟩, heq, heq ▸ hfits⟩, fun hall ↦ hall.2.1⟩
    · refine ⟨fun hmem ↦ absurd hmem List.not_mem_nil, ?_⟩
      rintro ⟨htested, rfl, hfits⟩
      exact absurd ⟨htested.nonempty, htested.room, htested.near, hfits⟩ hproposed

/-! ### Addresses in a gap -/

theorem roundUp_of_aligned {value : ℕ} (haligned : 4096 ∣ value) (hlt : value + 4095 < sizeModulus) :
    roundUp value = value := by
  unfold roundUp
  rw [Nat.mod_eq_of_lt hlt]
  omega

/-- Rounding up stays below what is aligned. -/
theorem roundUp_spec {value : ℕ} (hlt : value + 4095 < sizeModulus) :
    4096 ∣ roundUp value ∧ value ≤ roundUp value ∧ roundUp value < value + 4096 := by
  unfold roundUp
  rw [Nat.mod_eq_of_lt hlt]
  omega

variable {gap : ℕ × ℕ}

/-- What is chosen in a gap: its start, its last place, or the next page. -/
theorem gapAddress_spec (hgap : IsGap regions gap) (halloc : 4096 ∣ allocSize) (hpos : 0 < allocSize)
    (htested : Tested preferredBase allocSize gap) :
    (preferredBase ≤ gap.1 → gapAddress preferredBase allocSize gap.1 gap.2 = gap.1) ∧
      (gap.1 < preferredBase → gap.2 ≤ preferredBase + allocSize →
        gapAddress preferredBase allocSize gap.1 gap.2 = gap.2 - allocSize) ∧
      (gap.1 < preferredBase → preferredBase + allocSize < gap.2 →
        gapAddress preferredBase allocSize gap.1 gap.2 = roundUp preferredBase) ∧
      gap.1 ≤ gapAddress preferredBase allocSize gap.1 gap.2 ∧
      gapAddress preferredBase allocSize gap.1 gap.2 + allocSize ≤ gap.2 := by
  have hroom := htested.room
  have hnonempty := htested.nonempty
  have hbelow := hgap.below
  have hstart := hgap.startAligned
  have hend := hgap.endAligned
  have hmodulus : sizeModulus = 2 ^ 64 := rfl
  have hlast : 4096 ∣ gap.2 - allocSize := Nat.dvd_sub hend halloc
  have hroundStart : roundUp gap.1 = gap.1 := roundUp_of_aligned hstart (by omega)
  have hroundLast : roundUp (gap.2 - allocSize) = gap.2 - allocSize :=
    roundUp_of_aligned hlast (by omega)
  have hfirst : preferredBase ≤ gap.1 →
      gapAddress preferredBase allocSize gap.1 gap.2 = gap.1 := by
    intro hle
    unfold gapAddress clamp
    split_ifs
    · exact hroundStart
    · omega
    · rw [show preferredBase = gap.1 by omega]
      exact hroundStart
  have hsecond : gap.1 < preferredBase → gap.2 ≤ preferredBase + allocSize →
      gapAddress preferredBase allocSize gap.1 gap.2 = gap.2 - allocSize := by
    intro hlt hle
    unfold gapAddress clamp
    split_ifs
    · omega
    · exact hroundLast
    · rw [show preferredBase = gap.2 - allocSize by omega]
      exact hroundLast
  have hthird : gap.1 < preferredBase → preferredBase + allocSize < gap.2 →
      gapAddress preferredBase allocSize gap.1 gap.2 = roundUp preferredBase := by
    intro hlt hle
    unfold gapAddress clamp
    rw [if_neg (by omega), if_neg (by omega)]
  refine ⟨hfirst, hsecond, hthird, ?_⟩
  by_cases habove : preferredBase ≤ gap.1
  · rw [hfirst habove]
    omega
  by_cases hbelowGap : gap.2 ≤ preferredBase + allocSize
  · rw [hsecond (by omega) hbelowGap]
    omega
  · rw [hthird (by omega) (by omega)]
    obtain ⟨haligned, hle, hlt⟩ := @roundUp_spec preferredBase (by omega)
    omega

/-- The block chosen in a tested gap is suitable exactly if it is in range. -/
theorem suitable_gapAddress_iff (hgap : IsGap regions gap) (halloc : 4096 ∣ allocSize)
    (hpos : 0 < allocSize) (htested : Tested preferredBase allocSize gap) :
    Suitable regions preferredBase allocSize (gapAddress preferredBase allocSize gap.1 gap.2) ↔
      InRange preferredBase allocSize gap := by
  obtain ⟨hfirst, hsecond, hthird, hlow, hhigh⟩ := gapAddress_spec hgap halloc hpos htested
  have hroom := htested.room
  have hbelow := hgap.below
  have hmodulus : sizeModulus = 2 ^ 64 := rfl
  have hmax : maxDist = 0x7FFF0000 := rfl
  have hfree : ∀ r ∈ regions, gapAddress preferredBase allocSize gap.1 gap.2 + allocSize ≤ r.base ∨
      r.base + r.size ≤ gapAddress preferredBase allocSize gap.1 gap.2 := by
    intro r hr
    rcases hgap.free r hr with hbefore | hbehind
    · exact Or.inl (by omega)
    · exact Or.inr (by omega)
  have hnear : Suitable regions preferredBase allocSize
      (gapAddress preferredBase allocSize gap.1 gap.2) ↔
      |(gapAddress preferredBase allocSize gap.1 gap.2 : ℤ) - preferredBase| < maxDist ∧
        |(gapAddress preferredBase allocSize gap.1 gap.2 + allocSize : ℤ) - preferredBase| <
          maxDist :=
    ⟨fun h ↦ ⟨h.startNear, h.endNear⟩, fun h ↦ ⟨hfree, by omega, h.1, h.2⟩⟩
  rw [hnear, abs_lt, abs_lt]
  by_cases habove : preferredBase ≤ gap.1
  · rw [hfirst habove]
    refine ⟨fun h ↦ ⟨fun _ ↦ by omega, fun hlt ↦ by omega, fun hlt ↦ by omega⟩, fun h ↦ ?_⟩
    have := h.above habove
    omega
  by_cases hbelowGap : gap.2 ≤ preferredBase + allocSize
  · rw [hsecond (by omega) hbelowGap]
    refine ⟨fun h ↦ ⟨fun hle ↦ by omega, fun _ _ ↦ by omega, fun _ hlt ↦ by omega⟩, fun h ↦ ?_⟩
    have := h.below (by omega) hbelowGap
    omega
  · have hround := @roundUp_spec preferredBase (by omega)
    rw [hthird (by omega) (by omega)]
    refine ⟨fun h ↦ ⟨fun hle ↦ by omega, fun _ hle ↦ by omega, fun _ _ ↦ by omega⟩, fun h ↦ ?_⟩
    have := h.around (by omega) (by omega)
    omega

/-! ### Which proposals are right -/

/-- The walk proposes suitable blocks only, and one if there is any. -/
def Proposes (regions : List MemoryRegion) (preferredBase allocSize : ℕ) : Prop :=
  (∀ addr ∈ gapWalk preferredBase allocSize 0 regions,
    Suitable regions preferredBase allocSize addr) ∧
  ((∃ addr, Suitable regions preferredBase allocSize addr) →
    gapWalk preferredBase allocSize 0 regions ≠ [])

/-- For a snapshot and a size, the walk proposes suitable blocks only and one if there is any exactly
if in each gap that passes the test the block is in range, and some gap passes the test where a
suitable block lies in a gap that does not, or behind the last region. -/
theorem gapWalk_iff {regions : List MemoryRegion} (hmapped : Mapped regions) (preferredBase : ℕ)
    {size : ℕ} (hsize : 0 < size) (hround : size + 4095 < sizeModulus) :
    Proposes regions preferredBase (roundUp size) ↔
      (∀ gap ∈ gaps 0 regions, Tested preferredBase (roundUp size) gap →
        InRange preferredBase (roundUp size) gap) ∧
      ((∃ addr, Overlooked regions preferredBase (roundUp size) addr) →
        ∃ gap ∈ gaps 0 regions, Tested preferredBase (roundUp size) gap) := by
  obtain ⟨halloc, hle, -⟩ := roundUp_spec hround
  set alloc := roundUp size with halloceq
  have hpos : 0 < alloc := by omega
  have hisGap : ∀ gap ∈ gaps 0 regions, IsGap regions gap := fun gap hgap ↦
    (isGap_of_mem hmapped (dvd_zero 4096) hgap fun _ _ ↦ Nat.zero_le _).2
  have hproposed : ∀ gap ∈ gaps 0 regions, Tested preferredBase alloc gap →
      gapAddress preferredBase alloc gap.1 gap.2 ∈ gapWalk preferredBase alloc 0 regions :=
    fun gap hgap htested ↦ (mem_gapWalk hmapped).mpr ⟨gap, hgap, htested, rfl,
      (gapAddress_spec (hisGap gap hgap) halloc hpos htested).2.2.2.2⟩
  have hnonempty : gapWalk preferredBase alloc 0 regions ≠ [] ↔
      ∃ gap ∈ gaps 0 regions, Tested preferredBase alloc gap := by
    constructor
    · intro hne
      obtain ⟨addr, haddr⟩ := List.exists_mem_of_ne_nil _ hne
      obtain ⟨gap, hgap, htested, -⟩ := (mem_gapWalk hmapped).mp haddr
      exact ⟨gap, hgap, htested⟩
    · rintro ⟨gap, hgap, htested⟩
      exact List.ne_nil_of_mem (hproposed gap hgap htested)
  unfold Proposes
  rw [hnonempty]
  refine and_congr ⟨fun h gap hgap htested ↦ ?_, fun h addr haddr ↦ ?_⟩
    ⟨fun h hoverlooked ↦ ?_, fun h hsuitable ↦ ?_⟩
  · exact (suitable_gapAddress_iff (hisGap gap hgap) halloc hpos htested).mp
      (h _ (hproposed gap hgap htested))
  · obtain ⟨gap, hgap, htested, rfl, -⟩ := (mem_gapWalk hmapped).mp haddr
    exact (suitable_gapAddress_iff (hisGap gap hgap) halloc hpos htested).mpr (h gap hgap htested)
  · obtain ⟨addr, hsuitable, -⟩ := hoverlooked
    exact h ⟨addr, hsuitable⟩
  · obtain ⟨addr, hsuitable⟩ := hsuitable
    rcases mem_gap_of_free (Nat.zero_le addr) hsuitable.free with
      ⟨gap, hgap, hlow, hhigh⟩ | hbehind
    · cases hnear : testedNear preferredBase alloc gap.1 gap.2 with
      | true => exact ⟨gap, hgap, by omega, by omega, hnear⟩
      | false => exact h ⟨addr, hsuitable, Or.inl ⟨gap, hgap, hlow, hhigh, hnear⟩⟩
    · exact h ⟨addr, hsuitable, Or.inr hbehind⟩

/-- A snapshot with a region at the preferred base only. -/
theorem gapWalk_iff_single :
    Proposes [{ base := 0x10000, size := 0x1000 }] 0x10000 (roundUp 100) := by
  have hmapped : Mapped [{ base := 0x10000, size := 0x1000 }] :=
    ⟨by decide, List.pairwise_singleton _ _, by decide⟩
  refine (gapWalk_iff hmapped 0x10000 (by decide) (by decide)).mpr
    ⟨fun gap hgap htested ↦ ?_, fun _ ↦ ?_⟩
  · rw [gaps, gaps, List.mem_singleton] at hgap
    subst hgap
    refine ⟨fun h ↦ absurd h (by decide), fun _ _ ↦ by decide, fun _ h ↦ absurd h (by decide)⟩
  · exact ⟨(0, 0x10000), by decide, by decide, by decide, by decide⟩

/-- A base in the middle of a wide gap gets no proposal, although the block fits there; and a block
of two pages at the start of a gap ends out of range. -/
theorem gapWalk_misses :
    ¬Proposes [{ base := 0x400000, size := 0x1000 }, { base := 0x7fff00000000, size := 0x1000 }]
        0x7f0000000000 (roundUp 100) ∧
      ¬Proposes [{ base := 0x400000, size := 0x7ffef000 }, { base := 0x80400000, size := 0x1000 }]
        0x400000 (roundUp 0x2000) := by
  constructor
  · intro h
    refine h.2 ⟨0x7f0000000000, by decide, by decide, by decide, by decide⟩ (by decide)
  · intro h
    have hend := (h.1 0x803ef000 (by decide)).endNear
    exact absurd hend (by decide)

/-! ### What is overlooked -/

/-- In the user half of the address space, a gap with a suitable block that fails the test reaches
out of range on both sides of the base. -/
theorem wide_of_not_tested {regions : List MemoryRegion} {preferredBase allocSize addr : ℕ}
    {gap : ℕ × ℕ} (hsuitable : Suitable regions preferredBase allocSize addr)
    (hlow : gap.1 ≤ addr) (hhigh : addr + allocSize ≤ gap.2) (hgap : gap.2 ≤ 2 ^ 63)
    (hbase : preferredBase < 2 ^ 63) (hpos : 0 < allocSize)
    (hnear : testedNear preferredBase allocSize gap.1 gap.2 = false) :
    gap.1 + maxDist ≤ preferredBase ∧ preferredBase + maxDist + allocSize ≤ gap.2 := by
  have hstart := abs_lt.mp hsuitable.startNear
  unfold testedNear at hnear
  dsimp only at hnear
  rw [Bool.or_eq_false_iff, decide_eq_false_iff_not, decide_eq_false_iff_not, signedAddress,
    signedAddress, signedAddress, if_pos (by omega), if_pos hbase, if_pos (by omega), abs_lt,
    abs_lt] at hnear
  omega

/-- What is allocated is a proposal that was mapped, or a block anywhere. -/
theorem allocate_eq_some {mmapInTarget : (addr len : ℕ) → (fixedNoReplace : Bool) → ℤ}
    (hfixed : ∀ addr len, mmapInTarget addr len true ≤ 0 ∨ mmapInTarget addr len true = addr)
    {regions : List MemoryRegion} {size preferredBase result : ℕ}
    (h : allocate mmapInTarget regions size preferredBase = some result) :
    result ∈ gapWalk preferredBase (roundUp size) 0 regions ∨
      (result : ℤ) = mmapInTarget 0 (roundUp size) false := by
  unfold allocate at h
  dsimp only at h
  split at h
  · next found hfound =>
    obtain rfl := Option.some.inj h
    have hpos := List.find?_some hfound
    obtain ⟨addr, haddr, rfl⟩ := List.mem_map.mp (List.mem_of_find?_eq_some hfound)
    refine Or.inl ?_
    split_ifs at haddr
    · exact absurd haddr List.not_mem_nil
    · rcases hfixed addr (roundUp size) with hfailed | heq
      · exact absurd (of_decide_eq_true hpos) (by omega)
      · rwa [heq, Int.toNat_natCast]
  · split_ifs at h
    obtain rfl := Option.some.inj h
    exact Or.inr (Int.toNat_of_nonneg (by omega))

end Cecore.Platform
