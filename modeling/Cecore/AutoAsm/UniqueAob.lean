import Cecore.Library.Occurrences
import Mathlib.Data.Nat.Notation

/-!
# The shortest signature that is unique

A hook is found again by the bytes that stand at it, so the bytes must stand nowhere else in the
module. The search takes the least length in its range for which they do.
-/

set_option autoImplicit false
set_option relaxedAutoImplicit false

namespace Cecore.AutoAsm

open Library.Occurrences

/-- `memcmp(mod.data() + i, mod.data() + targetOffset, L) == 0`. -/
def sameBytes (mod : List UInt8) (targetOffset L i : ℕ) : Bool :=
  (mod.drop i).take L == (mod.drop targetOffset).take L

/-- The matches of the first `L` bytes at the target, counted up to the second. -/
def matchCount (mod : List UInt8) (targetOffset L : ℕ) : ℕ :=
  (countHits (sameBytes mod targetOffset L) 0 0 (List.range (mod.length + 1 - L))).1

def shortestUniqueAobLen (mod : List UInt8) (targetOffset minLen maxLen : ℕ) : ℕ :=
  if targetOffset ≥ mod.length then minLen
  else
    let avail := mod.length - targetOffset
    let minLen := if minLen < 1 then 1 else minLen
    let maxLen := if maxLen > avail then avail else maxLen
    let minLen := if minLen > maxLen then maxLen else minLen
    ((List.range' minLen (maxLen + 1 - minLen)).find? fun L ↦
      matchCount mod targetOffset L ≤ 1).getD maxLen

/-- The `L` bytes at the target stand at one place of the buffer. -/
def OccursOnce (mod : List UInt8) (targetOffset L : ℕ) : Prop :=
  ∃! i, i + L ≤ mod.length ∧ (mod.drop i).take L = (mod.drop targetOffset).take L

/-- The lengths a search may answer with, the ends clamped to the bytes that are there. -/
def lengthRange (mod : List UInt8) (targetOffset minLen maxLen : ℕ) : Set ℕ :=
  let highest := min maxLen (mod.length - targetOffset)
  Set.Icc (min (max minLen 1) highest) highest

variable {mod : List UInt8} {targetOffset L : ℕ}

/-- The target's own place is a match, so at most one match is exactly one. -/
theorem matchCount_le_one_iff (hroom : targetOffset + L ≤ mod.length) :
    matchCount mod targetOffset L ≤ 1 ↔ OccursOnce mod targetOffset L := by
  have hmem : ∀ i, i ∈ (List.range (mod.length + 1 - L)).filter (sameBytes mod targetOffset L) ↔
      i + L ≤ mod.length ∧ (mod.drop i).take L = (mod.drop targetOffset).take L := by
    intro i
    simp only [List.mem_filter, List.mem_range, sameBytes, beq_iff_eq]
    exact and_congr_left fun _ ↦ by omega
  have hown := (hmem targetOffset).mpr ⟨hroom, rfl⟩
  have hnodup : ((List.range (mod.length + 1 - L)).filter (sameBytes mod targetOffset L)).Nodup :=
    List.nodup_range.filter _
  simp only [matchCount, countHits_zero, OccursOnce, ← hmem]
  generalize (List.range (mod.length + 1 - L)).filter (sameBytes mod targetOffset L) = hits at *
  match hits with
  | [] => simp at hown
  | [place] => simp
  | place :: other :: rest =>
    simp only [List.length_cons]
    constructor
    · omega
    · intro h
      have : place = other := h.unique (by simp) (by simp)
      simp [this] at hnodup

/-- The first length of a range of consecutive ones that passes, or the last of them. -/
theorem find_range'_isLeast (pass : ℕ → Bool) {lowest highest : ℕ} :
    IsLeast {L | L ∈ Set.Icc lowest highest ∧ pass L = true}
        (((List.range' lowest (highest + 1 - lowest)).find? pass).getD highest) ∨
      (∀ L ∈ Set.Icc lowest highest, ¬ pass L = true) ∧
        ((List.range' lowest (highest + 1 - lowest)).find? pass).getD highest = highest := by
  have hmem : ∀ L, L ∈ List.range' lowest (highest + 1 - lowest) ↔ L ∈ Set.Icc lowest highest := by
    intro L
    rw [List.mem_range'_1, Set.mem_Icc]
    omega
  cases hfind : (List.range' lowest (highest + 1 - lowest)).find? pass with
  | none =>
    right
    rw [List.find?_eq_none] at hfind
    exact ⟨fun L hL ↦ hfind L ((hmem L).mpr hL), rfl⟩
  | some length =>
    left
    obtain ⟨hpass, front, back, hsplit, hfront⟩ := List.find?_eq_some_iff_append.mp hfind
    have hlength : length ∈ Set.Icc lowest highest := (hmem length).mp (by simp [hsplit])
    refine ⟨⟨hlength, hpass⟩, ?_⟩
    rintro L ⟨hL, hpassL⟩
    have hsorted : (front ++ length :: back).Pairwise (· < ·) := hsplit ▸ List.pairwise_lt_range'
    have hin : L ∈ front ++ length :: back := hsplit ▸ (hmem L).mpr hL
    rw [List.pairwise_append, List.pairwise_cons] at hsorted
    rcases List.mem_append.mp hin with h | h
    · exact absurd hpassL (by simpa using hfront L h)
    · rcases List.mem_cons.mp h with rfl | h
      · exact le_rfl
      · exact (hsorted.2.1.1 L h).le

/-- The search answers with the least length of its range whose bytes at the target stand nowhere
else, with the greatest of the range when there is none, and with `minLen` off the buffer. -/
theorem shortestUniqueAobLen_isLeast (mod : List UInt8) (targetOffset minLen maxLen : ℕ) :
    if targetOffset < mod.length then
      IsLeast {L | L ∈ lengthRange mod targetOffset minLen maxLen ∧ OccursOnce mod targetOffset L}
          (shortestUniqueAobLen mod targetOffset minLen maxLen) ∨
        (∀ L ∈ lengthRange mod targetOffset minLen maxLen, ¬ OccursOnce mod targetOffset L) ∧
          IsGreatest (lengthRange mod targetOffset minLen maxLen)
            (shortestUniqueAobLen mod targetOffset minLen maxLen)
    else shortestUniqueAobLen mod targetOffset minLen maxLen = minLen := by
  split
  · next hinside =>
    let avail := mod.length - targetOffset
    let highest := min maxLen avail
    let lowest := min (max minLen 1) highest
    have hhighest : (if maxLen > avail then avail else maxLen) = highest := by
      simp only [highest]
      split <;> omega
    have hlowest : (if (if minLen < 1 then 1 else minLen) > highest then highest
        else if minLen < 1 then 1 else minLen) = lowest := by
      simp only [lowest]
      split <;> split <;> omega
    have hsearch : shortestUniqueAobLen mod targetOffset minLen maxLen =
        ((List.range' lowest (highest + 1 - lowest)).find? fun L ↦
          matchCount mod targetOffset L ≤ 1).getD highest := by
      rw [shortestUniqueAobLen, if_neg (by omega)]
      dsimp only
      rw [hhighest, hlowest]
    have hrange : lengthRange mod targetOffset minLen maxLen = Set.Icc lowest highest := rfl
    have hcount : ∀ L ∈ Set.Icc lowest highest,
        (decide (matchCount mod targetOffset L ≤ 1) = true ↔ OccursOnce mod targetOffset L) := by
      intro L hL
      have hle : L ≤ mod.length - targetOffset := hL.2.trans (min_le_right _ _)
      rw [decide_eq_true_iff, matchCount_le_one_iff (by omega)]
    rw [hrange, hsearch]
    rcases find_range'_isLeast fun L ↦ decide (matchCount mod targetOffset L ≤ 1) with h | h
    · left
      refine ⟨⟨h.1.1, (hcount _ h.1.1).mp h.1.2⟩, ?_⟩
      rintro L ⟨hL, honce⟩
      exact h.2 ⟨hL, (hcount L hL).mpr honce⟩
    · right
      refine ⟨fun L hL honce ↦ h.1 L hL ((hcount L hL).mpr honce), ?_⟩
      rw [h.2]
      exact ⟨⟨min_le_right _ _, le_rfl⟩, fun L hL ↦ hL.2⟩
  · next houtside =>
    rw [shortestUniqueAobLen, if_pos (by omega)]

example : shortestUniqueAobLen [0xAA, 0xBB, 0x11, 0xAA, 0xBB, 0x22] 0 2 5 = 3 := by decide

end Cecore.AutoAsm
