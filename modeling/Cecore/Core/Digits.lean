import Cecore.Core.Text
import Mathlib.Tactic.IntervalCases

/-!
# Numbers written and read back

The digits that `std::to_string` and `%lx` write are read back as the number, by `strtoull` and its
exceptions, whatever text follows that is no digit.
-/

set_option autoImplicit false
set_option relaxedAutoImplicit false

namespace Cecore

/-- `std::isdigit`. -/
def isDigit (c : Char) : Bool := decide ('0' ≤ c) && decide (c ≤ '9')

/-- `std::to_string` of a signed integer. -/
def printInt (value : ℤ) : Text :=
  if value < 0 then '-' :: decimal value.natAbs else decimal value.natAbs

/-- `%lx`. -/
def hex (value : ℕ) : Text := Nat.toDigits 16 value

/-! ### Digits -/

theorem digitValue_digitChar {d : ℕ} (hd : d < 16) : digitValue (Nat.digitChar d) = some d := by
  interval_cases d <;> decide

/-- The characters that numbers are written with. -/
def IsNumeral (c : Char) : Prop := ∃ d < 16, c = Nat.digitChar d

theorem isNumeral_of_mem {base n : ℕ} (hbase : 1 < base) (hmax : base ≤ 16) {c : Char}
    (hc : c ∈ Nat.toDigits base n) : IsNumeral c := by
  induction n using Nat.strong_induction_on with
  | _ n ih =>
    rw [Nat.toDigits_eq_if hbase] at hc
    split_ifs at hc with hlt
    · exact ⟨n, by omega, List.mem_singleton.mp hc⟩
    · rcases List.mem_append.mp hc with hfront | hlast
      · exact ih (n / base) (Nat.div_lt_self (by omega) hbase) hfront
      · exact ⟨n % base, (Nat.mod_lt n (by omega)).trans_le hmax, List.mem_singleton.mp hlast⟩

/-- A digit is no space, no sign and no mark of a base. -/
theorem IsNumeral.plain {c : Char} (h : IsNumeral c) :
    isSpace c = false ∧ c ≠ '-' ∧ c ≠ '+' ∧ c ≠ 'x' ∧ c ≠ 'X' := by
  obtain ⟨d, hd, rfl⟩ := h
  interval_cases d <;> decide

/-- The first digit of a number, which is zero only for zero. -/
theorem head_toDigits {base : ℕ} (hbase : 1 < base) (hmax : base ≤ 16) (n : ℕ) :
    ∃ c rest, Nat.toDigits base n = c :: rest ∧ (digitValue c).any (fun d ↦ decide (d < base)) = true ∧
      (c = '0' → n = 0 ∧ rest = []) := by
  induction n using Nat.strong_induction_on with
  | _ n ih =>
    rw [Nat.toDigits_eq_if hbase]
    split_ifs with hlt
    · refine ⟨_, [], rfl, ?_, fun hzero ↦ ⟨Nat.digitChar_eq_zero.mp hzero, rfl⟩⟩
      rw [digitValue_digitChar (by omega)]
      simpa using hlt
    · obtain ⟨c, rest, heq, hdigit, hzero⟩ := ih (n / base) (Nat.div_lt_self (by omega) hbase)
      refine ⟨c, rest ++ [Nat.digitChar (n % base)], by rw [heq, List.cons_append], hdigit, ?_⟩
      intro hc
      have := (hzero hc).1
      have : base ≤ n := Nat.le_of_not_lt hlt
      have := Nat.div_pos this (by omega)
      omega

theorem toDigits_ne_nil {base : ℕ} (hbase : 1 < base) (hmax : base ≤ 16) (n : ℕ) :
    Nat.toDigits base n ≠ [] := by
  obtain ⟨c, rest, heq, -, -⟩ := head_toDigits hbase hmax n
  rw [heq]
  exact List.cons_ne_nil c rest

theorem printInt_ne_nil (n : ℤ) : printInt n ≠ [] := by
  unfold printInt
  split_ifs
  · exact List.cons_ne_nil _ _
  · exact toDigits_ne_nil (by decide) (by decide) _

/-- Digits are read as the number they were written for, and reading goes on behind them. -/
theorem takeDigits_toDigits {base : ℕ} (hbase : 1 < base) (hmax : base ≤ 16) (n : ℕ) (rest : Text) :
    takeDigits base 0 (Nat.toDigits base n ++ rest) = takeDigits base n rest := by
  have hstep : ∀ (value digit : ℕ) (rest : Text), digit < base →
      takeDigits base value (Nat.digitChar digit :: rest) =
        takeDigits base (value * base + digit) rest := by
    intro value digit rest hdigit
    rw [takeDigits, digitValue_digitChar (by omega)]
    dsimp only
    rw [if_pos hdigit]
  induction n using Nat.strong_induction_on generalizing rest with
  | _ n ih =>
    rw [Nat.toDigits_eq_if hbase]
    split_ifs with hlt
    · rw [List.singleton_append, hstep 0 n rest hlt, Nat.zero_mul, Nat.zero_add]
    · rw [List.append_assoc, ih (n / base) (Nat.div_lt_self (by omega) hbase), List.singleton_append,
        hstep _ _ rest (Nat.mod_lt n (by omega)), Nat.mul_comm, Nat.div_add_mod]

theorem takeDigits_stop {base value : ℕ} {rest : Text} (h : startsDigit base rest = false) :
    takeDigits base value rest = (value, rest) := by
  cases rest with
  | nil => rfl
  | cons c rest =>
    rw [takeDigits]
    rw [startsDigit] at h
    cases hvalue : digitValue c with
    | none => rfl
    | some digit =>
      rw [hvalue] at h
      have hdigit : ¬digit < base := by simpa using h
      dsimp only
      rw [if_neg hdigit]

/-! ### Reading back -/

theorem startsDigit_toDigits {base : ℕ} (hbase : 1 < base) (hmax : base ≤ 16) (n : ℕ) (rest : Text) :
    startsDigit base (Nat.toDigits base n ++ rest) = true := by
  obtain ⟨c, others, heq, hdigit, -⟩ := head_toDigits hbase hmax n
  rw [heq, List.cons_append, startsDigit]
  exact hdigit

/-- No sign or space stands in front of digits. -/
theorem takeSign_toDigits {base : ℕ} (hbase : 1 < base) (hmax : base ≤ 16) (n : ℕ) (rest : Text) :
    takeSign ((Nat.toDigits base n ++ rest).dropWhile isSpace) =
      (false, Nat.toDigits base n ++ rest) := by
  obtain ⟨c, others, heq, -, -⟩ := head_toDigits hbase hmax n
  obtain ⟨hspace, hminus, hplus, -, -⟩ :=
    (isNumeral_of_mem hbase hmax (heq ▸ List.mem_cons_self)).plain
  rw [heq, List.cons_append, List.dropWhile_cons, if_neg (by simp [hspace])]
  unfold takeSign
  split
  · next hc => exact absurd (List.cons.inj hc).1 hminus
  · next hc => exact absurd (List.cons.inj hc).1 hplus
  · rfl

/-- The base that was asked for is the base of digits that no `x` follows. -/
theorem numberPrefix_toDigits {base : ℕ} (hbase : 1 < base) (hmax : base ≤ 16) (n : ℕ) {rest : Text}
    (hrest : rest.head? ≠ some 'x' ∧ rest.head? ≠ some 'X') :
    numberPrefix base (Nat.toDigits base n ++ rest) = (base, Nat.toDigits base n ++ rest) := by
  have hzero : ¬base = 0 := by omega
  unfold numberPrefix
  split
  · next x tail heq =>
    have hx : ¬(x = 'x' ∨ x = 'X') := by
      obtain ⟨c, others, hdigits, -, -⟩ := head_toDigits hbase hmax n
      rw [hdigits, List.cons_append] at heq
      have htail := (List.cons.inj heq).2
      cases hothers : others with
      | nil =>
        rw [hothers, List.nil_append] at htail
        rw [htail] at hrest
        simpa using hrest
      | cons d more =>
        rw [hothers, List.cons_append] at htail
        obtain rfl := (List.cons.inj htail).1
        have hd : d ∈ Nat.toDigits base n := by rw [hdigits, hothers]; simp
        obtain ⟨-, -, -, hlower, hupper⟩ := (isNumeral_of_mem hbase hmax hd).plain
        exact fun h ↦ h.elim hlower hupper
    rw [if_neg fun h ↦ hx h.1, if_neg hzero, heq]
  · rw [if_neg hzero]

/-- A text behind which a number in `base` ends. -/
def Stops (base : ℕ) (rest : Text) : Prop :=
  startsDigit base rest = false ∧ rest.head? ≠ some 'x' ∧ rest.head? ≠ some 'X'

theorem stops_nil (base : ℕ) : Stops base [] := ⟨rfl, by simp, by simp⟩

theorem readInteger_toDigits {base : ℕ} (hbase : 1 < base) (hmax : base ≤ 16) (n : ℕ) {rest : Text}
    (hrest : Stops base rest) :
    readInteger base (Nat.toDigits base n ++ rest) = some (false, n, rest) := by
  rw [readInteger, takeSign_toDigits hbase hmax]
  dsimp only
  rw [numberPrefix_toDigits hbase hmax n hrest.2]
  dsimp only
  rw [if_pos (startsDigit_toDigits hbase hmax n rest), takeDigits_toDigits hbase hmax,
    takeDigits_stop hrest.1]

theorem readInteger_neg_toDigits {base : ℕ} (hbase : 1 < base) (hmax : base ≤ 16) (n : ℕ)
    {rest : Text} (hrest : Stops base rest) :
    readInteger base ('-' :: (Nat.toDigits base n ++ rest)) = some (true, n, rest) := by
  have hsign : takeSign (('-' :: (Nat.toDigits base n ++ rest)).dropWhile isSpace) =
      (true, Nat.toDigits base n ++ rest) := rfl
  rw [readInteger, hsign]
  dsimp only
  rw [numberPrefix_toDigits hbase hmax n hrest.2]
  dsimp only
  rw [if_pos (startsDigit_toDigits hbase hmax n rest), takeDigits_toDigits hbase hmax,
    takeDigits_stop hrest.1]

/-- `std::stoull` reads back what `%lx` or `std::to_string` wrote. -/
theorem stoull_toDigits {base : ℕ} (hbase : 1 < base) (hmax : base ≤ 16) {n : ℕ}
    (hn : n < sizeModulus) {rest : Text} (hrest : Stops base rest) :
    stoull base (Nat.toDigits base n ++ rest) = some (n, rest) := by
  rw [stoull, readInteger_toDigits hbase hmax n hrest]
  dsimp only
  rw [if_pos hn]
  rfl

/-- A signed number is read back with its sign. -/
theorem readInteger_printInt (n : ℤ) {rest : Text} (hrest : Stops 10 rest) :
    readInteger 10 (printInt n ++ rest) = some (decide (n < 0), n.natAbs, rest) := by
  unfold printInt
  split_ifs with hn
  · rw [decide_eq_true hn]
    exact readInteger_neg_toDigits (by decide) (by decide) _ hrest
  · rw [decide_eq_false hn]
    exact readInteger_toDigits (by decide) (by decide) _ hrest

/-- `std::stoi` reads back what `std::to_string` wrote. -/
theorem stoi_printInt {n : ℤ} (hlow : -(2 ^ 31) ≤ n) (hhigh : n < 2 ^ 31) {rest : Text}
    (hrest : Stops 10 rest) : stoi 10 (printInt n ++ rest) = some n := by
  rw [stoi, readInteger_printInt n hrest]
  have hsigned : (if decide (n < 0) = true then -(n.natAbs : ℤ) else n.natAbs) = n := by
    by_cases hn : n < 0
    · rw [if_pos (decide_eq_true hn)]
      omega
    · rw [if_neg (by simpa using hn)]
      omega
  dsimp only
  rw [hsigned, if_pos ⟨hlow, hhigh⟩]

end Cecore
