import Mathlib.Data.List.Sort
import Mathlib.Data.List.Nodup
import Mathlib.Tactic.Ring

/-!
# Strided offsets

The offsets `0, step, 2 * step, …` that a counting loop visits below a limit, as a list:
`offsets_eq_filter` says it is the multiples of the step in order. A cut at multiples of the step
splits there, so an interval can be scanned in pieces on one grid
(`filter_offsets_eq_flatMap_pieces`).
-/

set_option autoImplicit false
set_option relaxedAutoImplicit false

namespace Cecore.Library.Stride

/-- The offsets visited by `for (off = 0; off < limit; off += step)`, in order. -/
def offsets (limit step : ℕ) : List ℕ := List.range' 0 ((limit + step - 1) / step) step

theorem offsets_eq_map (limit step : ℕ) :
    offsets limit step = (List.range ((limit + step - 1) / step)).map (· * step) := by
  unfold offsets
  refine List.ext_getElem (by simp) fun index _ _ ↦ ?_
  simp [Nat.mul_comm]

theorem mem_offsets {limit step offset : ℕ} (hstep : 0 < step) :
    offset ∈ offsets limit step ↔ offset < limit ∧ step ∣ offset := by
  unfold offsets
  rw [List.mem_range']
  constructor
  · rintro ⟨index, hindex, rfl⟩
    rw [Nat.lt_div_iff_mul_lt hstep] at hindex
    refine ⟨?_, ⟨index, by ring⟩⟩
    rw [Nat.mul_comm] at hindex
    omega
  · rintro ⟨hlimit, index, rfl⟩
    refine ⟨index, ?_, by ring⟩
    rw [Nat.lt_div_iff_mul_lt hstep, Nat.mul_comm]
    omega

theorem offsets_pairwise {limit step : ℕ} (hstep : 0 < step) :
    (offsets limit step).Pairwise (· < ·) :=
  List.pairwise_lt_range' step hstep

/-- A strided loop visits the multiples of its step below its limit. -/
theorem offsets_eq_filter {limit step : ℕ} (hstep : 0 < step) :
    offsets limit step = (List.range limit).filter (fun offset ↦ decide (step ∣ offset)) := by
  have hantisymm : ∀ first second : ℕ, first < second → second < first → first = second := by omega
  refine List.Perm.eq_of_pairwise (fun first second _ _ ↦ hantisymm first second) ?_ ?_ ?_
  · exact offsets_pairwise hstep
  · exact List.pairwise_lt_range.filter _
  · rw [List.perm_ext_iff_of_nodup]
    · intro offset
      rw [mem_offsets hstep, List.mem_filter, List.mem_range, decide_eq_true_iff]
    · exact (offsets_pairwise hstep).imp fun h ↦ ne_of_lt h
    · exact List.nodup_range.filter _

theorem offsets_zero {step : ℕ} (hstep : 0 < step) : offsets 0 step = [] := by
  rw [offsets_eq_filter hstep, List.range_zero, List.filter_nil]

theorem offsets_cons {limit step : ℕ} (hstep : 0 < step) (hlimit : 0 < limit) :
    offsets limit step = 0 :: (offsets (limit - step) step).map (step + ·) := by
  have hcount : (limit + step - 1) / step = (limit - step + step - 1) / step + 1 := by
    by_cases hle : step ≤ limit
    · rw [Nat.sub_add_cancel hle, show limit + step - 1 = limit - 1 + step by omega,
        Nat.add_div_right _ hstep]
    · have hnum : limit - step + step - 1 = step - 1 := by omega
      rw [hnum, Nat.div_eq_of_lt (by omega : step - 1 < step)]
      exact Nat.div_eq_of_lt_le (by omega) (by omega)
  unfold offsets
  rw [hcount, List.range'_succ, List.map_add_range', Nat.zero_add, Nat.add_zero]

/-! ### Pieces of an interval -/

/-- Cutting `[0, limit)` into pieces of one length, the last one shorter, loses nothing and
repeats nothing. -/
theorem range_eq_flatMap_pieces {piece : ℕ} (hpiece : 0 < piece) (limit : ℕ) :
    List.range limit = (offsets limit piece).flatMap fun start ↦
      (List.range (min piece (limit - start))).map (start + ·) := by
  induction limit using Nat.strong_induction_on with
  | _ limit ih =>
    rcases Nat.eq_zero_or_pos limit with rfl | hpos
    · rw [offsets_zero hpiece]
      rfl
    · have hsplit : List.range limit =
          List.range (min piece limit) ++ (List.range (limit - piece)).map (piece + ·) := by
        by_cases hle : piece ≤ limit
        · rw [Nat.min_eq_left hle, ← List.range_add, Nat.add_sub_cancel' hle]
        · rw [Nat.min_eq_right (by omega), Nat.sub_eq_zero_of_le (by omega)]
          simp
      rw [offsets_cons hpiece hpos, List.flatMap_cons, List.flatMap_map, hsplit,
        ih (limit - piece) (by omega), List.map_flatMap]
      congr 1
      · simp
      · refine List.flatMap_congr fun start _ ↦ ?_
        rw [List.map_map, Nat.sub_sub]
        exact List.map_congr_left fun offset _ ↦ (Nat.add_assoc _ _ _).symm

/-- Filtering an interval piece by piece on a grid the pieces preserve: the pieces start on
multiples of `piece`, so a step that divides `piece` meets the same positions in each of them. -/
theorem filter_offsets_eq_flatMap_pieces {piece step : ℕ} (hpiece : 0 < piece) (hstep : 0 < step)
    (hdvd : step ∣ piece) (limit : ℕ) (keep : ℕ → Bool) :
    (offsets limit step).filter keep = (offsets limit piece).flatMap fun start ↦
      ((offsets (min piece (limit - start)) step).filter fun offset ↦ keep (start + offset)).map
        (start + ·) := by
  rw [offsets_eq_filter hstep, List.filter_filter, range_eq_flatMap_pieces hpiece limit,
    List.filter_flatMap]
  refine List.flatMap_congr fun start hstart ↦ ?_
  have hgrid : step ∣ start := hdvd.trans ((mem_offsets hpiece).mp hstart).2
  rw [offsets_eq_filter hstep, List.filter_filter, List.filter_map]
  congr 1
  refine List.filter_congr fun offset _ ↦ ?_
  simp only [Function.comp_apply, (Nat.dvd_add_right hgrid : step ∣ start + offset ↔ _)]

end Cecore.Library.Stride
