import Cecore.Core.Text
import Mathlib.Data.List.Basic

/-!
# Byte patterns

`ScanConfig::parseAOB` reads an array-of-bytes pattern into the bytes and the mask that a scan and
an `ASSERT` compare with: full bytes, wildcards for a byte, and wildcards for one half of a byte.
-/

set_option autoImplicit false
set_option relaxedAutoImplicit false

namespace Cecore.Scanner

/-- The two fields `parseAOB` fills, and its return value before the test for an empty pattern. -/
structure AobPattern where
  byteArray : List UInt8 := []
  byteArrayMask : List UInt8 := []
  valid : Bool := true
  deriving DecidableEq, Repr

/-- Value and mask of one half of a byte, nothing for a character that is neither. -/
def nib (c : Char) : Option (ℕ × ℕ) :=
  if c = '?' ∨ c = '*' then some (0, 0x0)
  else match digitValue c with
    | some digit => if digit < 16 then some (digit, 0xF) else none
    | none => none

/-- A token of the pattern. -/
def AobPattern.addToken (pattern : AobPattern) (token : Text) : AobPattern :=
  if token = "??".toList ∨ token = "?".toList ∨ token = "*".toList then
    { pattern with
      byteArray := pattern.byteArray ++ [0]
      byteArrayMask := pattern.byteArrayMask ++ [0x00] }
  else match token with
    | [high, low] =>
      let (hv, hm) := (nib high).getD (0, 0)
      let (lv, lm) := (nib low).getD (0, 0)
      { byteArray := pattern.byteArray ++ [UInt8.ofNat (hv * 16 + lv)]
        byteArrayMask := pattern.byteArrayMask ++ [UInt8.ofNat (hm * 16 + lm)]
        valid := pattern.valid && (nib high).isSome && (nib low).isSome }
    | _ =>
      { byteArray := pattern.byteArray ++ [UInt8.ofNat (strtoul 16 token)]
        byteArrayMask := pattern.byteArrayMask ++ [0xFF]
        valid := pattern.valid && token.all fun c ↦ (digitValue c).any fun d ↦ decide (d < 16) }

def parseAOB (pattern : Text) : AobPattern :=
  (tokens pattern).foldl AobPattern.addToken {}

/-- Each byte of a parsed pattern has its mask. -/
theorem length_byteArrayMask_parseAOB (pattern : Text) :
    (parseAOB pattern).byteArrayMask.length = (parseAOB pattern).byteArray.length := by
  have hstep : ∀ (words : List Text) (start : AobPattern),
      start.byteArrayMask.length = start.byteArray.length →
      (words.foldl AobPattern.addToken start).byteArrayMask.length =
        (words.foldl AobPattern.addToken start).byteArray.length := by
    intro words
    induction words with
    | nil => exact fun _ h ↦ h
    | cons token rest ih =>
      intro start hstart
      refine ih _ ?_
      unfold AobPattern.addToken
      split_ifs
      · simp [hstart]
      · split <;> simp [hstart]
  exact hstep _ _ rfl

example : (parseAOB "48 ?? 8?".toList).byteArray = [0x48, 0, 0x80] := by decide

end Cecore.Scanner
