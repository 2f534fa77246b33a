import Mathlib.Data.Nat.Bitwise
import Mathlib.Data.List.Range
import Mathlib.Data.List.Sort

/-!
# Compare masks of byte vectors

A byte-wise vector compare leaves `0xFF` in an equal lane and `0x00` elsewhere, and `movemask`
gathers the top bits into a number. `testBit_movemask` reads that number back, and `setBits` is
the usual loop over its set bits: take the lowest, clear it with `mask & (mask - 1)`, repeat.
`setBits_eq_filter` says the loop visits exactly the set bits, in ascending order.
-/

set_option autoImplicit false
set_option relaxedAutoImplicit false

namespace Cecore.Library.BitMask

/-- Bit `i` of the mask is the top bit of byte `i`. -/
def movemask : List UInt8 → ℕ
  | [] => 0
  | byte :: rest => Nat.bit (128 ≤ byte.toNat) (movemask rest)

theorem testBit_movemask (bytes : List UInt8) (index : ℕ) :
    (movemask bytes).testBit index =
      ((bytes[index]?).elim false fun byte ↦ decide (128 ≤ byte.toNat)) := by
  induction bytes generalizing index with
  | nil => simp [movemask]
  | cons byte rest ih =>
    cases index with
    | zero => simp [movemask]
    | succ index => simp [movemask, Nat.testBit_bit_succ, ih]

theorem movemask_lt (bytes : List UInt8) : movemask bytes < 2 ^ bytes.length := by
  induction bytes with
  | nil => simp [movemask]
  | cons byte rest ih =>
    rw [movemask, List.length_cons, Nat.bit_val, Nat.pow_succ]
    cases decide (128 ≤ byte.toNat) <;> simp <;> omega

/-- The index of the lowest set bit, counting up from zero; `0` on an empty mask. -/
def ctz : (fuel mask : ℕ) → ℕ
  | 0, _ => 0
  | fuel + 1, mask => if mask % 2 = 1 then 0 else 1 + ctz fuel (mask / 2)

/-- `while (mask) { visit ctz(mask); mask &= mask - 1; }`, the visited bits in order. A mask of
`width` bits has at most `width` of them. -/
def setBits (width : ℕ) : (fuel mask : ℕ) → List ℕ
  | 0, _ => []
  | fuel + 1, mask =>
    if mask = 0 then [] else ctz width mask :: setBits width fuel (mask &&& (mask - 1))

/-- Clearing the lowest set bit clears that bit and no other. -/
theorem testBit_and_pred {width mask : ℕ} (hmask : mask < 2 ^ width) (hne : mask ≠ 0)
    (index : ℕ) :
    (mask &&& (mask - 1)).testBit index =
      (mask.testBit index && decide (index ≠ ctz width mask)) := by
  induction width generalizing mask index with
  | zero => omega
  | succ width ih =>
    rw [Nat.testBit_and, ctz]
    by_cases hodd : mask % 2 = 1
    · rw [if_pos hodd]
      cases index with
      | zero =>
        have heven : (mask - 1) % 2 ≠ 1 := by omega
        simp [Nat.testBit_zero, heven]
      | succ index =>
        have hhalf : (mask - 1) / 2 = mask / 2 := by omega
        simp [Nat.testBit_succ, hhalf]
    · rw [if_neg hodd]
      cases index with
      | zero => simp [Nat.testBit_zero, hodd]
      | succ index =>
        have hhalf : (mask - 1) / 2 = mask / 2 - 1 := by omega
        have hrec := @ih (mask / 2) (by omega) (by omega) index
        rw [Nat.testBit_and] at hrec
        rw [Nat.testBit_succ, Nat.testBit_succ, hhalf, hrec]
        simp [Nat.add_comm 1]

/-- `ctz` finds a set bit with no set bit below it. -/
theorem ctz_spec {width mask : ℕ} (hmask : mask < 2 ^ width) (hne : mask ≠ 0) :
    ctz width mask < width ∧ mask.testBit (ctz width mask) = true ∧
      ∀ index < ctz width mask, mask.testBit index = false := by
  induction width generalizing mask with
  | zero => omega
  | succ width ih =>
    rw [ctz]
    by_cases hodd : mask % 2 = 1
    · rw [if_pos hodd]
      exact ⟨by omega, by simp [Nat.testBit_zero, hodd], fun index h ↦ absurd h (by omega)⟩
    · rw [if_neg hodd]
      obtain ⟨hlt, hset, hlow⟩ := @ih (mask / 2) (by omega) (by omega)
      refine ⟨by omega, ?_, fun index hindex ↦ ?_⟩
      · rw [Nat.add_comm, Nat.testBit_succ]
        exact hset
      · cases index with
        | zero => simp [Nat.testBit_zero, hodd]
        | succ index =>
          rw [Nat.testBit_succ]
          exact hlow index (by omega)

/-- One turn of the loop: the set bits are the lowest one followed by those of the mask with it
cleared. -/
theorem filter_testBit_eq_cons {width mask : ℕ} (hmask : mask < 2 ^ width) (hne : mask ≠ 0) :
    (List.range width).filter mask.testBit =
      ctz width mask :: (List.range width).filter (mask &&& (mask - 1)).testBit := by
  obtain ⟨hlt, hset, hlow⟩ := ctz_spec hmask hne
  have hlower : ∀ index ∈ (List.range width).filter (mask &&& (mask - 1)).testBit,
      ctz width mask < index := by
    intro index hindex
    rw [List.mem_filter, testBit_and_pred hmask hne, Bool.and_eq_true, decide_eq_true_iff]
      at hindex
    by_contra hle
    have hclear := hlow index (by omega)
    rw [hclear] at hindex
    exact Bool.false_ne_true hindex.2.1
  have hantisymm : ∀ first second : ℕ, first < second → second < first → first = second := by omega
  refine List.Perm.eq_of_pairwise (fun first second _ _ ↦ hantisymm first second) ?_ ?_ ?_
  · exact List.pairwise_lt_range.filter _
  · exact List.pairwise_cons.mpr ⟨hlower, List.pairwise_lt_range.filter _⟩
  · rw [List.perm_ext_iff_of_nodup (List.nodup_range.filter _)
      (List.nodup_cons.mpr ⟨fun hmem ↦ lt_irrefl _ (hlower _ hmem), List.nodup_range.filter _⟩)]
    intro index
    rw [List.mem_cons, List.mem_filter, List.mem_filter, testBit_and_pred hmask hne,
      List.mem_range, Bool.and_eq_true, decide_eq_true_iff]
    constructor
    · rintro ⟨hindex, hbit⟩
      by_cases heq : index = ctz width mask
      · exact Or.inl heq
      · exact Or.inr ⟨hindex, hbit, heq⟩
    · rintro (rfl | ⟨hindex, hbit, -⟩)
      · exact ⟨hlt, hset⟩
      · exact ⟨hindex, hbit⟩

/-- The loop over the set bits visits them all, lowest first. -/
theorem setBits_eq_filter {width mask : ℕ} (hmask : mask < 2 ^ width) {fuel : ℕ}
    (hfuel : ((List.range width).filter mask.testBit).length ≤ fuel) :
    setBits width fuel mask = (List.range width).filter mask.testBit := by
  induction fuel generalizing mask with
  | zero =>
    rw [setBits, eq_comm, ← List.length_eq_zero_iff]
    omega
  | succ fuel ih =>
    by_cases hzero : mask = 0
    · subst hzero
      simp [setBits]
    · rw [setBits, if_neg hzero, filter_testBit_eq_cons hmask hzero]
      rw [filter_testBit_eq_cons hmask hzero, List.length_cons] at hfuel
      rw [ih (lt_of_le_of_lt Nat.and_le_left hmask) (by omega)]

end Cecore.Library.BitMask
