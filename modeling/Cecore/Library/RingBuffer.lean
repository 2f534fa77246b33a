import Mathlib.Data.List.Basic
import Mathlib.Data.Nat.ModEq

/-!
# Ring buffers

A ring is a list of cells on which the positions of an endless stream are laid out in turn, each at
its remainder by the length. The stream writes over what is a whole length behind (`written`), and a
run of cells is copied in two pieces when it passes the end (`copyFrom`). What a copy gives is the
stretch of the stream that the ring still holds there (`copyFrom_eq_stretch`).
-/

set_option autoImplicit false
set_option relaxedAutoImplicit false

namespace Cecore.Library.RingBuffer

variable {α : Type}

/-- The ring after the first `count` positions of the stream were written. -/
def written (initial : List α) (stream : ℕ → α) : (count : ℕ) → List α
  | 0 => initial
  | count + 1 => (written initial stream count).set (count % initial.length) (stream count)

/-- `count` cells from position `pos` on, in one piece or in two. -/
def copyFrom (ring : List α) (pos count : ℕ) : List α :=
  let off := pos % ring.length
  let first := if count < ring.length - off then count else ring.length - off
  (ring.drop off).take first ++ ring.take (count - first)

/-- The stream from position `pos` on. -/
def stretch (stream : ℕ → α) (pos count : ℕ) : List α :=
  (List.range count).map fun i ↦ stream (pos + i)

/-- The ring holds the stream from position `low` up to `high`. -/
def Holds (ring : List α) (stream : ℕ → α) (low high : ℕ) : Prop :=
  ∀ pos, low ≤ pos → pos < high → ring[pos % ring.length]? = some (stream pos)

@[simp] theorem length_written (initial : List α) (stream : ℕ → α) (count : ℕ) :
    (written initial stream count).length = initial.length := by
  induction count with
  | zero => rfl
  | succ count ih => rw [written, List.length_set, ih]

@[simp] theorem length_stretch (stream : ℕ → α) (pos count : ℕ) :
    (stretch stream pos count).length = count := by
  rw [stretch, List.length_map, List.length_range]

theorem getElem?_stretch {stream : ℕ → α} {pos count i : ℕ} (hi : i < count) :
    (stretch stream pos count)[i]? = some (stream (pos + i)) := by
  rw [stretch, List.getElem?_map, List.getElem?_range hi]
  rfl

theorem stretch_add (stream : ℕ → α) (pos count more : ℕ) :
    stretch stream pos (count + more) =
      stretch stream pos count ++ stretch stream (pos + count) more := by
  simp only [stretch, List.range_add, List.map_append, List.map_map]
  refine congrArg (_ ++ ·) (List.map_congr_left fun i _ ↦ ?_)
  rw [Function.comp_apply, Nat.add_assoc]

theorem take_stretch (stream : ℕ → α) (pos : ℕ) {count more : ℕ} (h : count ≤ more) :
    (stretch stream pos more).take count = stretch stream pos count := by
  obtain ⟨rest, rfl⟩ := Nat.exists_eq_add_of_le h
  rw [stretch_add]
  exact List.take_left' (length_stretch stream pos count)

theorem drop_stretch (stream : ℕ → α) (pos : ℕ) {count more : ℕ} (h : count ≤ more) :
    (stretch stream pos more).drop count = stretch stream (pos + count) (more - count) := by
  obtain ⟨rest, rfl⟩ := Nat.exists_eq_add_of_le h
  rw [stretch_add, Nat.add_sub_cancel_left]
  exact List.drop_left' (length_stretch stream pos count)

/-! ### What a ring holds -/

theorem Holds.mono {ring : List α} {stream : ℕ → α} {low high low' high' : ℕ}
    (h : Holds ring stream low high) (hlow : low ≤ low') (hhigh : high' ≤ high) :
    Holds ring stream low' high' :=
  fun pos hpos hlt ↦ h pos (hlow.trans hpos) (hlt.trans_le hhigh)

/-- Two positions less than a length apart are at different cells. -/
theorem mod_ne_of_lt {size pos other : ℕ} (hlt : pos < other) (hnear : other < pos + size) :
    pos % size ≠ other % size := by
  intro hsame
  have hdvd : size ∣ other - pos := (Nat.modEq_iff_dvd' hlt.le).mp hsame
  exact absurd (Nat.le_of_dvd (by omega) hdvd) (by omega)

/-- After `count` positions were written, the ring holds the last of them. -/
theorem holds_written {initial : List α} (hsize : 0 < initial.length) (stream : ℕ → α)
    (count : ℕ) : Holds (written initial stream count) stream (count - initial.length) count := by
  induction count with
  | zero => exact fun pos _ hlt ↦ absurd hlt (Nat.not_lt_zero pos)
  | succ count ih =>
    intro pos hlow hhigh
    rw [length_written, written]
    rcases Nat.lt_succ_iff_lt_or_eq.mp hhigh with hlt | rfl
    · have hne : count % initial.length ≠ pos % initial.length :=
        (mod_ne_of_lt hlt (by omega)).symm
      rw [List.getElem?_set_ne hne]
      have hold := ih pos (by omega) hlt
      rwa [length_written] at hold
    · rw [List.getElem?_set_self (by simpa using Nat.mod_lt pos hsize)]

/-! ### Copies -/

@[simp] theorem length_copyFrom {ring : List α} {pos count : ℕ} (hcount : count ≤ ring.length) :
    (copyFrom ring pos count).length = count := by
  unfold copyFrom
  dsimp only
  rw [List.length_append, List.length_take, List.length_take, List.length_drop]
  split_ifs <;> omega

theorem copyFrom_congr {ring : List α} {pos other : ℕ} (count : ℕ)
    (h : pos % ring.length = other % ring.length) :
    copyFrom ring pos count = copyFrom ring other count := by
  unfold copyFrom
  rw [h]

/-- A copy takes the cells in the order of their positions. -/
theorem getElem?_copyFrom {ring : List α} {pos count i : ℕ} (hcount : count ≤ ring.length)
    (hi : i < count) : (copyFrom ring pos count)[i]? = ring[(pos + i) % ring.length]? := by
  have hoff : pos % ring.length < ring.length := Nat.mod_lt pos (by omega)
  have hmod : (pos + i) % ring.length = (pos % ring.length + i) % ring.length :=
    (Nat.mod_add_mod pos ring.length i).symm
  unfold copyFrom
  dsimp only
  rw [hmod]
  set off := pos % ring.length
  by_cases hend : off + i < ring.length
  · rw [Nat.mod_eq_of_lt hend, List.getElem?_append_left, List.getElem?_take_of_lt,
      List.getElem?_drop]
    · split_ifs <;> omega
    · rw [List.length_take, List.length_drop]
      split_ifs <;> omega
  · have hwrap : (off + i) % ring.length = off + i - ring.length := by
      rw [Nat.mod_eq_sub_mod (by omega), Nat.mod_eq_of_lt (by omega)]
    have hfirst : ¬count < ring.length - off := by omega
    rw [hwrap, if_neg hfirst, List.getElem?_append_right, List.length_take, List.length_drop,
      Nat.min_self, List.getElem?_take_of_lt (by omega)]
    · congr 1
      omega
    · rw [List.length_take, List.length_drop]
      omega

/-- A copy of positions that the ring holds is that stretch of the stream. -/
theorem copyFrom_eq_stretch {ring : List α} {stream : ℕ → α} {low high pos count : ℕ}
    (h : Holds ring stream low high) (hcount : count ≤ ring.length) (hlow : low ≤ pos)
    (hhigh : pos + count ≤ high) : copyFrom ring pos count = stretch stream pos count := by
  refine List.ext_getElem? fun i ↦ ?_
  by_cases hi : i < count
  · rw [getElem?_copyFrom hcount hi, getElem?_stretch hi, h (pos + i) (by omega) (by omega)]
  · rw [List.getElem?_eq_none, List.getElem?_eq_none]
    · rw [length_stretch]
      omega
    · rw [length_copyFrom hcount]
      omega

end Cecore.Library.RingBuffer
