import Mathlib.Data.List.Basic
import Mathlib.Order.Basic
import Mathlib.Tactic.Ring

/-!
# Layout of records

The rules of the C family: each member stands at the next multiple of its alignment, and the whole
is as large as the next multiple of the largest alignment. Members carry a label of any type.
-/

set_option autoImplicit false
set_option relaxedAutoImplicit false

namespace Cecore.Library.RecordLayout

structure Member where
  size : ℕ
  align : ℕ
  align_pos : 0 < align
  deriving DecidableEq

/-- The least multiple of the alignment that is not below. -/
def roundUp (n align : ℕ) : ℕ := (n + align - 1) / align * align

variable {ι : Type}

/-- Where the members stand, from `start` on. -/
def place (start : ℕ) : List (ι × Member) → List (ι × ℕ)
  | [] => []
  | (label, member) :: rest =>
    (label, roundUp start member.align) :: place (roundUp start member.align + member.size) rest

/-- Where the last of them ends. -/
def endOf (start : ℕ) : List (ι × Member) → ℕ
  | [] => start
  | (_, member) :: rest => endOf (roundUp start member.align + member.size) rest

def maxAlign (members : List (ι × Member)) : ℕ :=
  members.foldr (fun member largest ↦ max member.2.align largest) 1

/-- The size of the record; one without members takes a byte. -/
def total (members : List (ι × Member)) : ℕ :=
  if members.isEmpty then 1 else roundUp (endOf 0 members) (maxAlign members)

theorem roundUp_eq_iff {n align m : ℕ} (halign : 0 < align) :
    roundUp n align = m ↔ align ∣ m ∧ n ≤ m ∧ m < n + align := by
  rw [roundUp]
  constructor
  · rintro rfl
    have hdiv := Nat.div_add_mod' (n + align - 1) align
    have hmod := Nat.mod_lt (n + align - 1) halign
    exact ⟨dvd_mul_left _ _, by omega, by omega⟩
  · rintro ⟨⟨q, rfl⟩, hlow, hhigh⟩
    have hquotient : (n + align - 1) / align = q := by
      rw [Nat.div_eq_iff halign, mul_comm q align]
      omega
    rw [hquotient, mul_comm]

@[simp] theorem roundUp_one (n : ℕ) : roundUp n 1 = n := by
  simp [roundUp]

@[simp] theorem maxAlign_cons (label : ι) (member : Member) (rest : List (ι × Member)) :
    maxAlign ((label, member) :: rest) = max member.align (maxAlign rest) := rfl

end Cecore.Library.RecordLayout
