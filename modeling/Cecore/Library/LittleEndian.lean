import Mathlib.Data.Nat.ModEq
import Mathlib.Tactic.Ring

/-!
# Little-endian byte strings

`leNat` reads a byte string as a number, lowest byte first, and `toLE` writes a number into a
fixed count of bytes. Each undoes the other up to the width (`leNat_toLE`, `toLE_leNat`), so two
byte strings of one length hold the same number only when they are the same string
(`leNat_inj`). `signedOf` reads a number of a width as two's complement.
-/

set_option autoImplicit false
set_option relaxedAutoImplicit false

namespace Cecore.Library.LittleEndian

/-- The number a byte string holds, lowest byte first. -/
def leNat : List UInt8 → ℕ
  | [] => 0
  | byte :: rest => byte.toNat + 256 * leNat rest

/-- The low `width` bytes of a number, lowest byte first. -/
def toLE : (width : ℕ) → ℕ → List UInt8
  | 0, _ => []
  | width + 1, value => UInt8.ofNat (value % 256) :: toLE width (value / 256)

/-- The two's complement reading of a number of `width` bytes. -/
def signedOf (width value : ℕ) : ℤ :=
  if value < 256 ^ width / 2 then value else (value : ℤ) - (256 ^ width : ℕ)

@[simp] theorem length_toLE (width value : ℕ) : (toLE width value).length = width := by
  induction width generalizing value with
  | zero => rfl
  | succ width ih => simp [toLE, ih]

theorem leNat_lt (bytes : List UInt8) : leNat bytes < 256 ^ bytes.length := by
  induction bytes with
  | nil => simp [leNat]
  | cons byte rest ih =>
    have hbyte := byte.toNat_lt
    rw [leNat, List.length_cons, Nat.pow_succ]
    omega

theorem leNat_toLE (width value : ℕ) : leNat (toLE width value) = value % 256 ^ width := by
  induction width generalizing value with
  | zero => simp [toLE, leNat, Nat.mod_one]
  | succ width ih =>
    have hbyte : (UInt8.ofNat (value % 256)).toNat = value % 256 := by
      simp [UInt8.toNat_ofNat']
    rw [toLE, leNat, ih, hbyte, Nat.pow_succ, Nat.mul_comm (256 ^ width) 256, Nat.mod_mul]

theorem toLE_leNat (bytes : List UInt8) : toLE bytes.length (leNat bytes) = bytes := by
  induction bytes with
  | nil => rfl
  | cons byte rest ih =>
    have hbyte := byte.toNat_lt
    have hmod : (byte.toNat + 256 * leNat rest) % 256 = byte.toNat := by omega
    have hdiv : (byte.toNat + 256 * leNat rest) / 256 = leNat rest := by omega
    rw [List.length_cons, toLE, leNat, hmod, hdiv, ih, UInt8.ofNat_toNat]

theorem leNat_inj {first second : List UInt8} (hlength : first.length = second.length) :
    leNat first = leNat second ↔ first = second := by
  constructor
  · intro hvalue
    rw [← toLE_leNat first, ← toLE_leNat second, hlength, hvalue]
  · rintro rfl
    rfl

/-- Two's complement readings agree only on equal numbers of the width. -/
theorem signedOf_inj {width first second : ℕ} (hfirst : first < 256 ^ width)
    (hsecond : second < 256 ^ width) :
    signedOf width first = signedOf width second ↔ first = second := by
  unfold signedOf
  constructor
  · intro h
    split_ifs at h <;> omega
  · rintro rfl
    rfl

end Cecore.Library.LittleEndian
