import Cecore.Core.ValueCodec
import Cecore.Library.Stride
import Cecore.Platform.ProcessHandle

/-!
# Guest memory

The scans of `core/guest_view.hpp` over an emulator's guest memory: a region of the host process,
with values in the byte order of the guest. The first scan reads the region in windows that overlap
by a value less one byte, and finds every aligned value once, in order (`mem_guestScanExact`), as
long as nothing in front of it in its window is unreadable. Comparing two snapshots is the next scan
over all aligned offsets (`guestCompareBuffers_eq`).
-/

set_option autoImplicit false
set_option relaxedAutoImplicit false

namespace Cecore

open Library.LittleEndian Library.Stride Platform

/-! ### Values -/

/-- An integer type that a scan is instantiated with. -/
structure GuestInt where
  width : ℕ
  signed : Bool
  isWidth : IsWidth width

namespace GuestInt

variable {T : GuestInt}

/-- The values of the type, as the bits of its width. -/
abbrev Value (T : GuestInt) : Type := BitVec (8 * T.width)

/-- `std::memcpy` of a value into bytes. -/
def store (T : GuestInt) (v : T.Value) : List UInt8 := toLE T.width v.toNat

/-- `std::memcpy` of bytes into a value. -/
def load (T : GuestInt) (bytes : List UInt8) : T.Value := BitVec.ofNat _ (leNat bytes)

def byteswap (T : GuestInt) (v : T.Value) : T.Value :=
  if 1 < T.width then T.load (T.store v).reverse else v

/-- `<` of the type. -/
def less (T : GuestInt) (a b : T.Value) : Bool := if T.signed then a.slt b else a.ult b

/-- A value between the byte order of the host and that of the guest. -/
def swapped (T : GuestInt) (bigEndian : Bool) (v : T.Value) : T.Value :=
  if bigEndian then T.byteswap v else v

theorem width_pos (T : GuestInt) : 0 < T.width := (ValueCodec.IsWidth.le T.isWidth).1

@[simp] theorem length_store (T : GuestInt) (v : T.Value) : (T.store v).length = T.width :=
  length_toLE T.width _

theorem pow_width (T : GuestInt) : 256 ^ T.width = 2 ^ (8 * T.width) := by
  rw [show (256 : ℕ) = 2 ^ 8 by rfl, ← Nat.pow_mul]

theorem load_store (T : GuestInt) (v : T.Value) : T.load (T.store v) = v := by
  refine BitVec.eq_of_toNat_eq ?_
  rw [load, store, leNat_toLE, pow_width, BitVec.toNat_ofNat, Nat.mod_mod,
    Nat.mod_eq_of_lt v.isLt]

theorem store_load {bytes : List UInt8} (h : bytes.length = T.width) :
    T.store (T.load bytes) = bytes := by
  have hlt := leNat_lt bytes
  rw [h, pow_width] at hlt
  rw [store, load, BitVec.toNat_ofNat, Nat.mod_eq_of_lt hlt, ← h, toLE_leNat]

theorem byteswap_byteswap (T : GuestInt) (v : T.Value) : T.byteswap (T.byteswap v) = v := by
  unfold byteswap
  split_ifs
  · have hlength : (T.store v).reverse.length = T.width := by
      rw [List.length_reverse, length_store]
    rw [store_load hlength, List.reverse_reverse, load_store]
  · rfl

theorem swapped_swapped (T : GuestInt) (bigEndian : Bool) (v : T.Value) :
    T.swapped bigEndian (T.swapped bigEndian v) = v := by
  cases bigEndian with
  | false => rfl
  | true => exact T.byteswap_byteswap v

/-- The bytes that are searched for are those that are read as the value. -/
theorem eq_store_swapped_iff {bytes : List UInt8} (h : bytes.length = T.width) (bigEndian : Bool)
    (v : T.Value) :
    bytes = T.store (T.swapped bigEndian v) ↔ T.swapped bigEndian (T.load bytes) = v := by
  constructor
  · rintro rfl
    rw [load_store, swapped_swapped]
  · rintro rfl
    rw [swapped_swapped, store_load h]

end GuestInt

/-! ### The view and its scans -/

structure GuestView where
  proc : Option ProcessHandle
  base : ℕ
  size : ℕ
  bigEndian : Bool

namespace GuestView

def contains (gv : GuestView) (guestAddr n : ℕ) : Bool :=
  gv.proc.isSome && decide (0 < n) && decide (guestAddr + n ≤ gv.size)

def toHost (gv : GuestView) (guestAddr : ℕ) : ℕ := gv.base + guestAddr

def readBytes (gv : GuestView) (guestAddr n : ℕ) : List UInt8 :=
  match gv.proc with
  | none => []
  | some proc =>
    if !gv.contains guestAddr n then []
    else match proc.read (gv.toHost guestAddr) n with
      | none => []
      | some buf => if buf.length < n then [] else buf

def read (gv : GuestView) (T : GuestInt) (guestAddr : ℕ) : Option T.Value :=
  let b := gv.readBytes guestAddr T.width
  if b.length ≠ T.width then none else some (T.swapped gv.bigEndian (T.load b))

end GuestView

def guestStride : ℕ := 2 ^ 20

/-- The hits of `guestScanExact` in the window at `off`. -/
def scanGuestWindow (gv : GuestView) (proc : ProcessHandle) (T : GuestInt) (np : List UInt8)
    (alignment off : ℕ) : List ℕ :=
  let want := min (guestStride + T.width - 1) (gv.size - off)
  match proc.read (gv.toHost off) want with
  | none => []
  | some buf =>
    if buf.length < T.width then []
    else
      let limit := min guestStride (buf.length - T.width + 1)
      ((offsets limit alignment).filter fun i ↦ decide ((buf.drop i).take T.width = np)).map
        (off + ·)

/-- `guestScanExact`; a window starts wherever a value still fits behind. -/
def guestScanExact (gv : GuestView) (T : GuestInt) (value : T.Value) (alignment : ℕ) : List ℕ :=
  match gv.proc with
  | none => []
  | some proc =>
    if gv.size < T.width then []
    else
      let alignment := if alignment = 0 then 1 else alignment
      let np := T.store (T.swapped gv.bigEndian value)
      (offsets (gv.size + 1 - T.width) guestStride).flatMap
        (scanGuestWindow gv proc T np alignment)

inductive GuestCompare
  | changed
  | unchanged
  | increased
  | decreased
  deriving DecidableEq, Repr

/-- Whether a value that was `o` and is `c` now is kept. -/
def GuestCompare.keeps (op : GuestCompare) (T : GuestInt) (o c : T.Value) : Bool :=
  match op with
  | .changed => c ≠ o
  | .unchanged => c = o
  | .increased => T.less o c
  | .decreased => T.less c o

def guestNextCompare (gv : GuestView) (T : GuestInt) (prev : List (ℕ × T.Value))
    (op : GuestCompare) : List (ℕ × T.Value) :=
  prev.filterMap fun (addr, old) ↦
    match gv.read T addr with
    | none => none
    | some c => if op.keeps T old c then some (addr, c) else none

def guestCompareBuffers (T : GuestInt) (oldB newB : List UInt8) (bigEndian : Bool)
    (op : GuestCompare) (alignment : ℕ) : List (ℕ × T.Value) :=
  let alignment := if alignment = 0 then 1 else alignment
  let n := min oldB.length newB.length
  (offsets (n + 1 - T.width) alignment).filterMap fun off ↦
    let o := T.swapped bigEndian (T.load ((oldB.drop off).take T.width))
    let c := T.swapped bigEndian (T.load ((newB.drop off).take T.width))
    if op.keeps T o c then some (off, c) else none

/-! ### Reading -/

variable {gv : GuestView} {proc : ProcessHandle} {T : GuestInt}

/-- Bytes are read where they lie in the view and can all be read. -/
theorem GuestView.length_readBytes_iff (hproc : gv.proc = some proc) (guestAddr : ℕ) {n : ℕ}
    (hn : 0 < n) :
    (gv.readBytes guestAddr n).length = n ↔
      guestAddr + n ≤ gv.size ∧ Readable proc.memory (gv.base + guestAddr) n := by
  have hcontains : gv.contains guestAddr n = decide (guestAddr + n ≤ gv.size) := by
    rw [contains, hproc, Option.isSome_some, decide_eq_true hn, Bool.true_and, Bool.true_and]
  have hle := length_readPrefix_le proc.memory (gv.base + guestAddr) n
  rw [readBytes, hproc, ← length_readPrefix_eq_iff, hcontains]
  by_cases hinside : guestAddr + n ≤ gv.size
  swap
  · rw [decide_eq_false hinside, Bool.not_false]
    dsimp only
    rw [if_pos rfl, List.length_nil]
    omega
  rw [decide_eq_true hinside, Bool.not_true]
  dsimp only [ProcessHandle.read, toHost]
  rw [if_neg Bool.false_ne_true]
  split_ifs with hnone
  · rw [hnone.2, List.length_nil]
    omega
  · dsimp only
    split_ifs with hshort
    · rw [List.length_nil]
      omega
    · omega

theorem GuestView.readBytes_eq (hproc : gv.proc = some proc) {guestAddr n : ℕ} (hn : 0 < n)
    (hinside : guestAddr + n ≤ gv.size) (hreadable : Readable proc.memory (gv.base + guestAddr) n) :
    gv.readBytes guestAddr n = readPrefix proc.memory (gv.base + guestAddr) n := by
  have hcontains : gv.contains guestAddr n = true := by
    rw [contains, hproc, Option.isSome_some, decide_eq_true hn, decide_eq_true hinside]
    rfl
  have hlength := (length_readPrefix_eq_iff proc.memory (gv.base + guestAddr) n).mpr hreadable
  rw [readBytes, hproc]
  dsimp only
  rw [hcontains, Bool.not_true, if_neg Bool.false_ne_true, toHost,
    read_eq_some_of_readable hreadable]
  dsimp only
  rw [if_neg (by omega)]

/-- A value is read where it lies in the view and all of its bytes can be read. -/
theorem GuestView.read_eq_some_iff (hproc : gv.proc = some proc) (guestAddr : ℕ) (v : T.Value) :
    gv.read T guestAddr = some v ↔
      guestAddr + T.width ≤ gv.size ∧ Readable proc.memory (gv.base + guestAddr) T.width ∧
        T.swapped gv.bigEndian (T.load (readPrefix proc.memory (gv.base + guestAddr) T.width)) =
          v := by
  have hiff := GuestView.length_readBytes_iff hproc guestAddr T.width_pos
  unfold read
  dsimp only
  by_cases hlength : (gv.readBytes guestAddr T.width).length = T.width
  · obtain ⟨hinside, hreadable⟩ := hiff.mp hlength
    rw [if_neg (not_not_intro hlength), readBytes_eq hproc T.width_pos hinside hreadable,
      Option.some.injEq]
    exact ⟨fun h ↦ ⟨hinside, hreadable, h⟩, fun h ↦ h.2.2⟩
  · rw [if_pos hlength]
    refine ⟨fun h ↦ absurd h (by simp), fun h ↦ absurd (hiff.mpr ⟨h.1, h.2.1⟩) hlength⟩

/-! ### The first scan -/

/-- What is read of a window reaches so far exactly if everything up to there can be read. -/
theorem le_length_readPrefix_iff (memory : ℕ → Option UInt8) (address : ℕ) {size less : ℕ}
    (hless : less ≤ size) :
    less ≤ (readPrefix memory address size).length ↔ Readable memory address less := by
  rw [← length_readPrefix_eq_iff, ← take_readPrefix memory address hless, List.length_take]
  omega

/-- The hits of a window: the aligned positions of the window at which the value lies, with nothing
unreadable between. -/
theorem mem_scanGuestWindow (hproc : gv.proc = some proc) (value : T.Value) {alignment : ℕ}
    (halignment : 0 < alignment) {off i : ℕ} (hi : i < guestStride) :
    off + i ∈ scanGuestWindow gv proc T (T.store (T.swapped gv.bigEndian value)) alignment off ↔
      alignment ∣ i ∧ gv.read T (off + i) = some value ∧
        Readable proc.memory (gv.base + off) (i + T.width) := by
  have hwidth := T.width_pos
  set want := min (guestStride + T.width - 1) (gv.size - off) with hwant
  set buf := readPrefix proc.memory (gv.base + off) want with hbuf
  have hbufle : buf.length ≤ want := length_readPrefix_le _ _ _
  have hwindow : off + i ∈ scanGuestWindow gv proc T (T.store (T.swapped gv.bigEndian value))
      alignment off ↔ alignment ∣ i ∧ i + T.width ≤ buf.length ∧
        (buf.drop i).take T.width = T.store (T.swapped gv.bigEndian value) := by
    unfold scanGuestWindow ProcessHandle.read
    dsimp only [GuestView.toHost]
    rw [← hwant, ← hbuf]
    split_ifs with hnone
    · have hempty : buf.length = 0 := by rw [hnone.2, List.length_nil]
      simp only [List.not_mem_nil, false_iff, not_and]
      intro _ hle
      omega
    · dsimp only
      split_ifs with hshort
      · simp only [List.not_mem_nil, false_iff, not_and]
        intro _ hle
        omega
      · simp only [List.mem_map, List.mem_filter, mem_offsets halignment, decide_eq_true_iff,
          Nat.add_left_cancel_iff, exists_eq_right]
        constructor
        · rintro ⟨⟨hlt, hdvd⟩, hbytes⟩
          exact ⟨hdvd, by omega, hbytes⟩
        · rintro ⟨hdvd, hle, hbytes⟩
          exact ⟨⟨by omega, hdvd⟩, hbytes⟩
  rw [hwindow, GuestView.read_eq_some_iff hproc]
  refine and_congr_right fun _ ↦ ?_
  constructor
  · rintro ⟨hle, hbytes⟩
    have hreadable := (le_length_readPrefix_iff proc.memory (gv.base + off) (hle.trans hbufle)).mp hle
    rw [hbuf, slice_readPrefix hle, Nat.add_assoc] at hbytes
    have hthere : Readable proc.memory (gv.base + (off + i)) T.width := by
      intro offset hoffset
      have := hreadable (i + offset) (by omega)
      rwa [show gv.base + off + (i + offset) = gv.base + (off + i) + offset by omega] at this
    have hlength := (length_readPrefix_eq_iff _ _ _).mpr hthere
    exact ⟨⟨by omega, hthere, (GuestInt.eq_store_swapped_iff hlength _ _).mp hbytes⟩, hreadable⟩
  · rintro ⟨⟨hinside, hthere, hvalue⟩, hreadable⟩
    have hle : i + T.width ≤ buf.length :=
      (le_length_readPrefix_iff proc.memory (gv.base + off) (by omega)).mpr hreadable
    have hlength := (length_readPrefix_eq_iff _ _ _).mpr hthere
    refine ⟨hle, ?_⟩
    rw [hbuf, slice_readPrefix hle, Nat.add_assoc]
    exact (GuestInt.eq_store_swapped_iff hlength _ _).mpr hvalue

/-- A hit lies in its window. -/
theorem lt_of_mem_scanGuestWindow {np : List UInt8} {alignment : ℕ} (halignment : 0 < alignment)
    {off hit : ℕ} (h : hit ∈ scanGuestWindow gv proc T np alignment off) :
    ∃ i < guestStride, hit = off + i := by
  unfold scanGuestWindow at h
  dsimp only at h
  split at h
  · exact absurd h List.not_mem_nil
  · split_ifs at h
    · exact absurd h List.not_mem_nil
    · obtain ⟨i, hi, rfl⟩ := List.mem_map.mp h
      have := ((mem_offsets halignment).mp (List.mem_filter.mp hi).1).1
      exact ⟨i, by omega, rfl⟩

theorem scanGuestWindow_pairwise {np : List UInt8} {alignment : ℕ} (halignment : 0 < alignment)
    (off : ℕ) : (scanGuestWindow gv proc T np alignment off).Pairwise (· < ·) := by
  unfold scanGuestWindow
  dsimp only
  split
  · exact List.Pairwise.nil
  · split_ifs
    · exact List.Pairwise.nil
    · refine List.Pairwise.map _ (fun first second h ↦ Nat.add_lt_add_left h off) ?_
      exact (offsets_pairwise halignment).filter _

/-- The offsets found are the aligned ones at which the value is read, with everything from the
start of their window on readable. -/
theorem mem_guestScanExact (hproc : gv.proc = some proc) (value : T.Value) {alignment : ℕ}
    (hwidth : IsWidth alignment) (off : ℕ) :
    off ∈ guestScanExact gv T value alignment ↔
      alignment ∣ off ∧ gv.read T off = some value ∧
        Readable proc.memory (gv.base + off / guestStride * guestStride)
          (off % guestStride + T.width) := by
  have halignment := ValueCodec.IsWidth.le hwidth
  have hdvd : alignment ∣ guestStride := by
    rcases hwidth with rfl | rfl | rfl | rfl <;> decide
  have hstride : 0 < guestStride := by decide
  have hsum : off / guestStride * guestStride + off % guestStride = off := Nat.div_add_mod' off _
  have hmod : off % guestStride < guestStride := Nat.mod_lt off hstride
  have hpos := T.width_pos
  unfold guestScanExact
  rw [hproc]
  dsimp only
  rw [if_neg (by omega : ¬alignment = 0)]
  have hread : gv.read T off = some value → off + T.width ≤ gv.size :=
    fun h ↦ ((GuestView.read_eq_some_iff hproc off value).mp h).1
  split_ifs with hsmall
  · refine ⟨fun h ↦ absurd h List.not_mem_nil, fun h ↦ ?_⟩
    have := hread h.2.1
    omega
  have hwindow := @mem_scanGuestWindow gv proc T hproc value alignment halignment.1
    (off / guestStride * guestStride) (off % guestStride) hmod
  rw [hsum] at hwindow
  have haligned : alignment ∣ off % guestStride ↔ alignment ∣ off := by
    rw [← Nat.dvd_add_right (hdvd.mul_left (off / guestStride)), hsum]
  rw [← haligned, ← hwindow, List.mem_flatMap]
  constructor
  · rintro ⟨start, hstart, hhit⟩
    obtain ⟨i, hi, rfl⟩ := lt_of_mem_scanGuestWindow halignment.1 hhit
    obtain ⟨round, rfl⟩ := ((mem_offsets hstride).mp hstart).2
    rw [Nat.mul_add_div hstride, Nat.div_eq_of_lt hi, Nat.add_zero, Nat.mul_comm round]
    exact hhit
  · intro hhit
    refine ⟨_, (mem_offsets hstride).mpr ⟨?_, dvd_mul_left _ _⟩, hhit⟩
    have := hread (hwindow.mp hhit).2.1
    omega

theorem guestScanExact_pairwise (gv : GuestView) (value : T.Value) {alignment : ℕ}
    (halignment : 0 < alignment) : (guestScanExact gv T value alignment).Pairwise (· < ·) := by
  unfold guestScanExact
  split
  · exact List.Pairwise.nil
  · dsimp only
    rw [if_neg (by omega : ¬alignment = 0)]
    split_ifs
    · exact List.Pairwise.nil
    refine List.pairwise_flatMap.mpr ⟨fun off _ ↦ scanGuestWindow_pairwise halignment off, ?_⟩
    have hstride : 0 < guestStride := by decide
    refine List.Pairwise.imp_of_mem ?_ (offsets_pairwise hstride)
    intro first second hfirst hsecond hlt hit hhit later hlater
    obtain ⟨i, hi, rfl⟩ := lt_of_mem_scanGuestWindow halignment hhit
    obtain ⟨j, -, rfl⟩ := lt_of_mem_scanGuestWindow halignment hlater
    obtain ⟨m, rfl⟩ := ((mem_offsets hstride).mp hfirst).2
    obtain ⟨n, rfl⟩ := ((mem_offsets hstride).mp hsecond).2
    have hmn : m + 1 ≤ n := Nat.lt_of_mul_lt_mul_left hlt
    have := Nat.mul_le_mul_left guestStride hmn
    rw [Nat.mul_add_one] at this
    omega

/-! ### Comparing snapshots -/

/-- The view shows the bytes of a buffer, and no more. -/
def GuestView.Shows (gv : GuestView) (buffer : List UInt8) : Prop :=
  ∃ proc, gv.proc = some proc ∧ gv.size = buffer.length ∧
    ∀ offset < buffer.length, proc.memory (gv.base + offset) = buffer[offset]?

theorem GuestView.Shows.read {buffer : List UInt8} (h : gv.Shows buffer) {off : ℕ}
    (hinside : off + T.width ≤ buffer.length) :
    gv.read T off = some (T.swapped gv.bigEndian (T.load ((buffer.drop off).take T.width))) := by
  obtain ⟨proc, hproc, hsize, hmemory⟩ := h
  have hreadable : Readable proc.memory (gv.base + off) T.width := by
    intro offset hoffset
    rw [Nat.add_assoc, hmemory (off + offset) (by omega), List.getElem?_eq_getElem (by omega)]
    rfl
  refine (GuestView.read_eq_some_iff hproc off _).mpr ⟨by omega, hreadable, ?_⟩
  have hlength := (length_readPrefix_eq_iff _ _ _).mpr hreadable
  refine congrArg (fun bytes ↦ T.swapped gv.bigEndian (T.load bytes)) ?_
  refine List.ext_getElem? fun i ↦ ?_
  by_cases hi : i < T.width
  · rw [getElem?_readPrefix (by omega), Nat.add_assoc, hmemory (off + i) (by omega),
      List.getElem?_take_of_lt hi, List.getElem?_drop]
  · rw [List.getElem?_eq_none (by omega), List.getElem?_eq_none]
    rw [List.length_take]
    omega

/-- The candidates of an unknown-value scan: every aligned offset of both snapshots, with the value
it had. -/
def candidates (T : GuestInt) (oldB newB : List UInt8) (bigEndian : Bool) (alignment : ℕ) :
    List (ℕ × T.Value) :=
  (offsets (min oldB.length newB.length + 1 - T.width) alignment).map fun off ↦
    (off, T.swapped bigEndian (T.load ((oldB.drop off).take T.width)))

/-- Comparing two snapshots is the next scan over all aligned offsets. -/
theorem guestCompareBuffers_eq {oldB newB : List UInt8} (hshows : gv.Shows newB)
    (op : GuestCompare) {alignment : ℕ} (halignment : 0 < alignment) :
    guestCompareBuffers T oldB newB gv.bigEndian op alignment =
      guestNextCompare gv T (candidates T oldB newB gv.bigEndian alignment) op := by
  unfold guestCompareBuffers guestNextCompare candidates
  dsimp only
  rw [if_neg (by omega : ¬alignment = 0), List.filterMap_map]
  refine List.filterMap_congr fun off hoff ↦ ?_
  have hpos := T.width_pos
  have hlt := ((mem_offsets halignment).mp hoff).1
  rw [Function.comp_apply]
  dsimp only
  rw [hshows.read (by omega)]

/-- The first scan finds, once each and ascending, the aligned offsets at which the value is read
and that have nothing unreadable in front of them in their window; if the guest memory can be read
throughout, those are all at which the value is. Comparing two snapshots is the next scan over all
aligned offsets. -/
theorem guest_scans_exact :
    (∀ (gv : GuestView) (proc : ProcessHandle) (T : GuestInt) (value : T.Value) (alignment : ℕ),
      gv.proc = some proc → IsWidth alignment →
        (guestScanExact gv T value alignment).Pairwise (· < ·) ∧
        (∀ off, off ∈ guestScanExact gv T value alignment ↔
          alignment ∣ off ∧ gv.read T off = some value ∧
            Readable proc.memory (gv.base + off / guestStride * guestStride)
              (off % guestStride + T.width)) ∧
        (Readable proc.memory gv.base gv.size → ∀ off,
          off ∈ guestScanExact gv T value alignment ↔
            alignment ∣ off ∧ gv.read T off = some value)) ∧
    ∀ (gv : GuestView) (T : GuestInt) (oldB newB : List UInt8) (op : GuestCompare) (alignment : ℕ),
      gv.Shows newB → IsWidth alignment →
        guestCompareBuffers T oldB newB gv.bigEndian op alignment =
          guestNextCompare gv T (candidates T oldB newB gv.bigEndian alignment) op := by
  refine ⟨fun gv proc T value alignment hproc hwidth ↦ ⟨?_, ?_, fun hreadable off ↦ ?_⟩,
    fun gv T oldB newB op alignment hshows hwidth ↦ ?_⟩
  · exact guestScanExact_pairwise gv value (ValueCodec.IsWidth.le hwidth).1
  · exact mem_guestScanExact hproc value hwidth
  · rw [mem_guestScanExact hproc value hwidth]
    refine and_congr_right fun _ ↦ ⟨fun h ↦ h.1, fun h ↦ ⟨h, fun offset hoffset ↦ ?_⟩⟩
    have hinside := ((GuestView.read_eq_some_iff hproc off value).mp h).1
    have hsum : off / guestStride * guestStride + off % guestStride = off := Nat.div_add_mod' off _
    rw [Nat.add_assoc]
    exact hreadable _ (by omega)
  · exact guestCompareBuffers_eq hshows op (ValueCodec.IsWidth.le hwidth).1

def uint8 : GuestInt := ⟨1, false, Or.inl rfl⟩

def uint16 : GuestInt := ⟨2, false, Or.inr (Or.inl rfl)⟩

/-- A guest memory of `size` bytes in little-endian order at the address 0 of a process. -/
def guestAt (memory : ℕ → Option UInt8) (size : ℕ) : GuestView :=
  ⟨some ⟨memory, [], fun _ ↦ none, true⟩, 0, size, false⟩

theorem guest_scans_exact_pair :
    2 ∈ guestScanExact (guestAt (fun _ ↦ some 5) 4) uint16 0x505 2 :=
  ((guest_scans_exact.1 (guestAt (fun _ ↦ some 5) 4) ⟨fun _ ↦ some 5, [], fun _ ↦ none, true⟩ uint16
    0x505 2 rfl (Or.inr (Or.inl rfl))).2.2 (fun _ _ ↦ rfl) 2).mpr ⟨by decide, by decide⟩

/-- Behind a page that cannot be read a value is present, and not found. -/
theorem guestScanExact_behind_hole :
    (guestAt (fun address ↦ if address < 4096 then none else some 7) 8192).read uint8 4096 = some 7 ∧
      4096 ∉ guestScanExact (guestAt (fun address ↦ if address < 4096 then none else some 7) 8192)
        uint8 7 1 := by
  decide

end Cecore
