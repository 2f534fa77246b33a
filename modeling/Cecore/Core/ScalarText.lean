import Cecore.Core.ValueCodec
import Mathlib.Data.List.DropRight

/-!
# Scalars as text

`formatIntegerScalar` and `parseIntegerScalar` of `core/value_transform.hpp`, which show an integer
and read what the user types. What is shown is read back as the same bits of the width. Digits are
added up modulo 2^64 without a look at the range, so that a text is read as its number wrapped to
64 bits (`parseIntegerScalar_eq`), and only a text whose number fits is read right.
-/

set_option autoImplicit false
set_option relaxedAutoImplicit false

namespace Cecore.ScalarText

/-! ### Reading and showing -/

def isPad (c : Char) : Bool := c = ' ' || c = '\t'

/-- The text between the first and the last character that is not padding. -/
def unpadded (s : Text) : Text := (s.dropWhile isPad).rdropWhile isPad

def hexDigit (c : Char) : Option ℕ :=
  if '0' ≤ c ∧ c ≤ '9' then some (c.toNat - 48)
  else if 'a' ≤ c ∧ c ≤ 'f' then some (c.toNat - 97 + 10)
  else if 'A' ≤ c ∧ c ≤ 'F' then some (c.toNat - 65 + 10)
  else none

/-- The base a text is read in and its digits: a leading `0x` is always hexadecimal. -/
def scalarBase (hexadecimal : Bool) : Text → ℕ × Text
  | '0' :: 'x' :: rest => (16, rest)
  | '0' :: 'X' :: rest => (16, rest)
  | text => (if hexadecimal then 16 else 10, text)

/-- The loop over the digits. -/
def scalarDigits (base : ℕ) : (val : BitVec 64) → Text → Option (BitVec 64)
  | val, [] => some val
  | val, c :: rest =>
    match hexDigit c with
    | none => none
    | some d =>
      if base ≤ d then none
      else scalarDigits base (val * BitVec.ofNat 64 base + BitVec.ofNat 64 d) rest

/-- Nothing where `ok` is false. -/
def parseIntegerScalar (s : Text) (hexadecimal : Bool) : Option ℤ :=
  let (neg, unsigned) := takeSign (unpadded s)
  let (base, digits) := scalarBase hexadecimal unsigned
  if digits = [] then none
  else (scalarDigits base 0 digits).map fun val ↦ if neg then (-val).toInt else val.toInt

def formatIntegerScalar (bits : BitVec 64) (width : ℕ) (isSigned hexadecimal : Bool) : Text :=
  let width := if width < 1 then 1 else width
  let width := if 8 < width then 8 else width
  let u := bits &&& ValueCodec.maskFor width
  if hexadecimal then "0x".toList ++ hex u.toNat
  else if isSigned then
    printInt (match width with
      | 1 => (u.setWidth 8).toInt
      | 2 => (u.setWidth 16).toInt
      | 4 => (u.setWidth 32).toInt
      | _ => u.toInt)
  else decimal u.toNat

/-! ### The number of a text -/

/-- The number that a text stands for, of any size: a sign, and digits of its base only. -/
def scalarNumber (s : Text) (hexadecimal : Bool) : Option ℤ :=
  let (neg, unsigned) := takeSign (unpadded s)
  let (base, digits) := scalarBase hexadecimal unsigned
  if digits = [] then none
  else match takeDigits base 0 digits with
    | (n, []) => some (if neg then -n else n)
    | _ => none

/-- The number is that of 64 bits, read as signed or as unsigned. -/
def Fits (n : ℤ) : Prop := -2 ^ 63 ≤ n ∧ n < 2 ^ 64

/-- The texts read right: the text of a number that fits, or of none. -/
def Readable (s : Text) (hexadecimal : Bool) : Prop :=
  ∀ n, scalarNumber s hexadecimal = some n → Fits n

/-! ### Wrapped numbers -/

theorem scalarBase_le (hexadecimal : Bool) (text : Text) :
    (scalarBase hexadecimal text).1 = 10 ∨ (scalarBase hexadecimal text).1 = 16 := by
  unfold scalarBase
  split
  · exact Or.inr rfl
  · exact Or.inr rfl
  · cases hexadecimal
    · exact Or.inl rfl
    · exact Or.inr rfl

/-- Below 16, a digit is what `strtoull` takes for one. -/
theorem hexDigit_lt_iff {base : ℕ} (hbase : base ≤ 16) (c : Char) (d : ℕ) :
    (hexDigit c = some d ∧ d < base) ↔ (digitValue c = some d ∧ d < base) := by
  have htoNat : ∀ a b : Char, a ≤ b ↔ a.toNat ≤ b.toNat := fun a b ↦ Iff.rfl
  unfold hexDigit digitValue
  simp only [htoNat, show '0'.toNat = 48 by rfl, show '9'.toNat = 57 by rfl,
    show 'a'.toNat = 97 by rfl, show 'f'.toNat = 102 by rfl, show 'z'.toNat = 122 by rfl,
    show 'A'.toNat = 65 by rfl, show 'F'.toNat = 70 by rfl, show 'Z'.toNat = 90 by rfl]
  split_ifs <;> simp <;> omega

/-- The loop computes the number modulo 2^64, if there are digits only. -/
theorem scalarDigits_eq {base : ℕ} (hbase : base ≤ 16) (n : ℕ) (text : Text) :
    scalarDigits base (BitVec.ofNat 64 n) text =
      match takeDigits base n text with
      | (value, []) => some (BitVec.ofNat 64 value)
      | _ => none := by
  induction text generalizing n with
  | nil => rfl
  | cons c rest ih =>
    rw [scalarDigits, takeDigits]
    have hiff := hexDigit_lt_iff hbase c
    cases hhex : hexDigit c with
    | none =>
      cases hdigit : digitValue c with
      | none => rfl
      | some d =>
        have hge : ¬d < base := fun hlt ↦ by
          have := ((hiff d).mpr ⟨hdigit, hlt⟩).1
          rw [hhex] at this
          exact absurd this (by simp)
        dsimp only
        rw [if_neg hge]
    | some d =>
      dsimp only
      by_cases hlt : d < base
      · rw [((hiff d).mp ⟨hhex, hlt⟩).1, if_neg (by omega), ← BitVec.ofNat_mul, ← BitVec.ofNat_add,
          ih]
        dsimp only
        rw [if_pos hlt]
      · rw [if_pos (by omega)]
        cases hdigit : digitValue c with
        | none => rfl
        | some e =>
          have hge : ¬e < base := fun helt ↦ by
            have := ((hiff e).mpr ⟨hdigit, helt⟩).1
            rw [hhex] at this
            exact hlt (by rw [Option.some.inj this]; exact helt)
          dsimp only
          rw [if_neg hge]

/-- A text is read as its number wrapped to 64 bits, and rejected only if it has none. -/
theorem parseIntegerScalar_eq (s : Text) (hexadecimal : Bool) :
    parseIntegerScalar s hexadecimal =
      (scalarNumber s hexadecimal).map fun n ↦ (BitVec.ofInt 64 n).toInt := by
  unfold parseIntegerScalar scalarNumber
  rcases takeSign (unpadded s) with ⟨neg, unsigned⟩
  dsimp only
  have hbase : (scalarBase hexadecimal unsigned).1 ≤ 16 := by
    rcases scalarBase_le hexadecimal unsigned with h | h <;> omega
  have hloop := scalarDigits_eq hbase 0 (scalarBase hexadecimal unsigned).2
  by_cases hnone : (scalarBase hexadecimal unsigned).2 = []
  · rw [if_pos hnone, if_pos hnone]
    rfl
  rw [if_neg hnone, if_neg hnone, show (0 : BitVec 64) = BitVec.ofNat 64 0 by rfl, hloop]
  rcases takeDigits (scalarBase hexadecimal unsigned).1 0 (scalarBase hexadecimal unsigned).2 with
    ⟨n, _ | ⟨c, rest⟩⟩
  · dsimp only [Option.map_some]
    cases neg with
    | false => rw [if_neg Bool.false_ne_true, if_neg Bool.false_ne_true, BitVec.ofInt_natCast]
    | true => rw [if_pos rfl, if_pos rfl, BitVec.ofInt_neg, BitVec.ofInt_natCast]
  · rfl

/-! ### What is shown is read back -/

theorem not_isPad_of_mem {base n : ℕ} (hbase : 1 < base) (hmax : base ≤ 16) {c : Char}
    (hc : c ∈ Nat.toDigits base n) : isPad c = false := by
  obtain ⟨d, hd, rfl⟩ := isNumeral_of_mem hbase hmax hc
  interval_cases d <;> decide

theorem unpadded_eq {s : Text} (h : ∀ c ∈ s, isPad c = false) : unpadded s = s := by
  have hdrop : s.dropWhile isPad = s := by
    cases s with
    | nil => rfl
    | cons c rest => rw [List.dropWhile_cons, if_neg (by rw [h c List.mem_cons_self]; decide)]
  rw [unpadded, hdrop, List.rdropWhile_eq_self_iff]
  intro hne
  rw [h _ (List.getLast_mem hne)]
  decide

theorem takeSign_digits {base : ℕ} (hbase : 1 < base) (hmax : base ≤ 16) (n : ℕ) :
    takeSign (Nat.toDigits base n) = (false, Nat.toDigits base n) := by
  obtain ⟨c, others, heq, -, -⟩ := head_toDigits hbase hmax n
  obtain ⟨-, hminus, hplus, -, -⟩ := (isNumeral_of_mem hbase hmax (heq ▸ List.mem_cons_self)).plain
  rw [heq]
  unfold takeSign
  split
  · next hc => exact absurd (List.cons.inj hc).1 hminus
  · next hc => exact absurd (List.cons.inj hc).1 hplus
  · rfl

/-- No `x` follows the first digit of a number. -/
theorem scalarBase_decimal (n : ℕ) : scalarBase false (decimal n) = (10, decimal n) := by
  unfold scalarBase
  split
  case h_3 => rfl
  all_goals
    next rest heq =>
      have hx := isNumeral_of_mem (by decide : 1 < 10) (by decide)
        (heq ▸ List.mem_cons_of_mem _ List.mem_cons_self : _ ∈ Nat.toDigits 10 n)
      first
        | exact absurd rfl hx.plain.2.2.2.1
        | exact absurd rfl hx.plain.2.2.2.2

theorem takeDigits_all {base : ℕ} (hbase : 1 < base) (hmax : base ≤ 16) (n : ℕ) :
    takeDigits base 0 (Nat.toDigits base n) = (n, []) := by
  have := takeDigits_toDigits hbase hmax n []
  rwa [List.append_nil] at this

theorem scalarNumber_hex (n : ℕ) : scalarNumber ("0x".toList ++ hex n) true = some (n : ℤ) := by
  have hshown : "0x".toList ++ hex n = '0' :: 'x' :: hex n := rfl
  have hpad : unpadded ('0' :: 'x' :: hex n) = '0' :: 'x' :: hex n := by
    refine unpadded_eq fun c hc ↦ ?_
    rcases List.mem_cons.mp hc with rfl | hc
    · rfl
    rcases List.mem_cons.mp hc with rfl | hc
    · rfl
    · exact not_isPad_of_mem (by decide) le_rfl hc
  have hsign : takeSign ('0' :: 'x' :: hex n) = (false, '0' :: 'x' :: hex n) := rfl
  have hbase : scalarBase true ('0' :: 'x' :: hex n) = (16, hex n) := rfl
  have hdigits : takeDigits 16 0 (hex n) = (n, []) := takeDigits_all (by decide) le_rfl n
  have hne : hex n ≠ [] := toDigits_ne_nil (by decide) le_rfl n
  unfold scalarNumber
  rw [hshown, hpad, hsign]
  dsimp only
  rw [hbase]
  dsimp only
  rw [if_neg hne, hdigits]
  rfl

theorem scalarNumber_decimal (n : ℕ) : scalarNumber (decimal n) false = some (n : ℤ) := by
  have hpad : unpadded (decimal n) = decimal n :=
    unpadded_eq fun c hc ↦ not_isPad_of_mem (by decide) (by decide) hc
  have hsign : takeSign (decimal n) = (false, decimal n) := takeSign_digits (by decide) (by decide) n
  have hdigits : takeDigits 10 0 (decimal n) = (n, []) := takeDigits_all (by decide) (by decide) n
  have hne : decimal n ≠ [] := toDigits_ne_nil (by decide) (by decide) n
  unfold scalarNumber
  rw [hpad, hsign]
  dsimp only
  rw [scalarBase_decimal]
  dsimp only
  rw [if_neg hne, hdigits]
  rfl

theorem scalarNumber_printInt (n : ℤ) : scalarNumber (printInt n) false = some n := by
  by_cases hn : n < 0
  case neg =>
    rw [printInt, if_neg hn, scalarNumber_decimal, Int.natAbs_of_nonneg (by omega)]
  have hshown : printInt n = '-' :: decimal n.natAbs := by rw [printInt, if_pos hn]
  have hpad : unpadded ('-' :: decimal n.natAbs) = '-' :: decimal n.natAbs := by
    refine unpadded_eq fun c hc ↦ ?_
    rcases List.mem_cons.mp hc with rfl | hc
    · rfl
    · exact not_isPad_of_mem (by decide) (by decide) hc
  have hsign : takeSign ('-' :: decimal n.natAbs) = (true, decimal n.natAbs) := rfl
  have hdigits : takeDigits 10 0 (decimal n.natAbs) = (n.natAbs, []) :=
    takeDigits_all (by decide) (by decide) _
  have hne : decimal n.natAbs ≠ [] := toDigits_ne_nil (by decide) (by decide) _
  unfold scalarNumber
  rw [hshown, hpad, hsign]
  dsimp only
  rw [scalarBase_decimal]
  dsimp only
  rw [if_neg hne, hdigits]
  dsimp only
  rw [if_pos rfl, Int.ofNat_natAbs_of_nonpos (by omega), Int.neg_neg]

/-- The bits of a width read as signed. -/
theorem toInt_setWidth {size : ℕ} (hsize : size = 8 ∨ size = 16 ∨ size = 32 ∨ size = 64)
    {u bits : BitVec 64} (hu : u.toNat = bits.toNat % 2 ^ size) :
    Fits (u.setWidth size).toInt ∧ (u.setWidth size).toInt % 2 ^ size =
      (bits.toNat : ℤ) % 2 ^ size := by
  unfold Fits
  rcases hsize with rfl | rfl | rfl | rfl
  all_goals
    rw [BitVec.toInt_eq_toNat_bmod, BitVec.toNat_setWidth, Int.bmod_def]
    constructor <;> omega

/-- The number shown is that of the bits of the width. -/
theorem scalarNumber_formatIntegerScalar {width : ℕ} (hwidth : IsWidth width) (bits : BitVec 64)
    (isSigned hexadecimal : Bool) :
    ∃ n, scalarNumber (formatIntegerScalar bits width isSigned hexadecimal) hexadecimal = some n ∧
      Fits n ∧ n % 2 ^ (8 * width) = (bits.toNat : ℤ) % 2 ^ (8 * width) := by
  have hle := ValueCodec.IsWidth.le hwidth
  set u := bits &&& ValueCodec.maskFor width with hu
  have hnat : u.toNat = bits.toNat % 2 ^ (width * 8) := ValueCodec.toNat_and_maskFor hwidth bits
  have hlt := u.isLt
  have hunsigned : (u.toNat : ℤ) % 2 ^ (8 * width) = (bits.toNat : ℤ) % 2 ^ (8 * width) := by
    rw [hnat, Nat.mul_comm]
    push_cast
    exact Int.emod_emod_of_dvd _ dvd_rfl
  have hfits : Fits (u.toNat : ℤ) := ⟨by omega, by omega⟩
  unfold formatIntegerScalar
  dsimp only
  rw [if_neg (by omega : ¬width < 1), if_neg (by omega : ¬8 < width), ← hu]
  cases hexadecimal with
  | true =>
    rw [if_pos rfl]
    exact ⟨u.toNat, scalarNumber_hex u.toNat, hfits, hunsigned⟩
  | false =>
    rw [if_neg Bool.false_ne_true]
    cases isSigned with
    | false =>
      rw [if_neg Bool.false_ne_true]
      exact ⟨u.toNat, scalarNumber_decimal u.toNat, hfits, hunsigned⟩
    | true =>
      rw [if_pos rfl]
      rcases hwidth with rfl | rfl | rfl | rfl
      · exact ⟨_, scalarNumber_printInt _, toInt_setWidth (Or.inl rfl) hnat⟩
      · exact ⟨_, scalarNumber_printInt _, toInt_setWidth (Or.inr (Or.inl rfl)) hnat⟩
      · exact ⟨_, scalarNumber_printInt _, toInt_setWidth (Or.inr (Or.inr (Or.inl rfl))) hnat⟩
      · have hwhole := toInt_setWidth (Or.inr (Or.inr (Or.inr rfl))) hnat
        rw [BitVec.setWidth_eq] at hwhole
        exact ⟨_, scalarNumber_printInt _, hwhole⟩

/-! ### Which texts are read right -/

/-- What is shown is read back as the bits of the width, and no text is read as another number than
its own, exactly if the text's number fits 64 bits. -/
theorem parseIntegerScalar_faithful_iff {width : ℕ} (hwidth : IsWidth width) (bits : BitVec 64)
    (isSigned hexadecimal : Bool) (s : Text) :
    ((∃ n, parseIntegerScalar (formatIntegerScalar bits width isSigned hexadecimal) hexadecimal =
          some n ∧ n % 2 ^ (8 * width) = (bits.toNat : ℤ) % 2 ^ (8 * width)) ∧
      ∀ n, scalarNumber s hexadecimal = some n → ¬Fits n →
        parseIntegerScalar s hexadecimal = none) ↔ Readable s hexadecimal := by
  constructor
  · rintro ⟨-, hrejected⟩ n hn
    by_contra hfits
    have hnone := hrejected n hn hfits
    rw [parseIntegerScalar_eq, hn] at hnone
    exact absurd hnone (by simp)
  · refine fun hreadable ↦ ⟨?_, fun n hn hfits ↦ absurd (hreadable n hn) hfits⟩
    obtain ⟨n, hn, -, hmod⟩ :=
      scalarNumber_formatIntegerScalar hwidth bits isSigned hexadecimal
    refine ⟨(BitVec.ofInt 64 n).toInt, by rw [parseIntegerScalar_eq, hn, Option.map_some], ?_⟩
    rw [← hmod, BitVec.toInt_ofInt, Int.bmod_def]
    rcases hwidth with rfl | rfl | rfl | rfl <;> omega

theorem parseIntegerScalar_faithful_minimum :
    (∃ n, parseIntegerScalar (formatIntegerScalar (BitVec.ofNat 64 (2 ^ 63)) 8 true false) false =
        some n ∧ n % 2 ^ (8 * 8) = ((BitVec.ofNat 64 (2 ^ 63)).toNat : ℤ) % 2 ^ (8 * 8)) ∧
      ∀ n, scalarNumber "-1".toList false = some n → ¬Fits n →
        parseIntegerScalar "-1".toList false = none :=
  (parseIntegerScalar_faithful_iff (by unfold IsWidth; decide) (BitVec.ofNat 64 (2 ^ 63)) true false
    "-1".toList).mpr fun n hn ↦ by
      have hvalue : scalarNumber "-1".toList false = some (-1) := by decide
      rw [hvalue] at hn
      rw [← Option.some.inj hn]
      unfold Fits
      decide

/-- 2^64 is read as zero. -/
theorem parseIntegerScalar_wraps :
    scalarNumber "18446744073709551616".toList false = some (2 ^ 64) ∧ ¬Fits (2 ^ 64) ∧
      parseIntegerScalar "18446744073709551616".toList false = some 0 := by
  refine ⟨by decide, ?_, by decide⟩
  unfold Fits
  decide

end Cecore.ScalarText
