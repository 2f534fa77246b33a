import Cecore.Core.Types

/-!
# Text

The parts of the C and C++ standard libraries that the scanner and the auto-assembler use on text,
on lists of characters: character classes of the C locale, the integer conversions of `strtoull`
with the exceptions of `std::stoull` and `std::stoi`, and the two ways of cutting a stream into
pieces.
-/

set_option autoImplicit false
set_option relaxedAutoImplicit false

namespace Cecore

/-! ### Characters -/

/-- `std::isspace` in the C locale. -/
def isSpace (c : Char) : Bool :=
  c = ' ' || c = '\t' || c = '\n' || c = '\r' || c.toNat = 11 || c.toNat = 12

/-- `std::tolower` in the C locale. -/
def toLowerChar (c : Char) : Char :=
  if 'A' ≤ c ∧ c ≤ 'Z' then Char.ofNat (c.toNat + 32) else c

/-- `std::toupper` in the C locale. -/
def toUpperChar (c : Char) : Char :=
  if 'a' ≤ c ∧ c ≤ 'z' then Char.ofNat (c.toNat - 32) else c

def doubleQuote : Char := Char.ofNat 34
def singleQuote : Char := Char.ofNat 39

/-- The byte of a character. -/
def byteOf (c : Char) : UInt8 := UInt8.ofNat c.toNat

/-! ### Numbers -/

/-- The value of a digit, whatever the base. -/
def digitValue (c : Char) : Option ℕ :=
  if '0' ≤ c ∧ c ≤ '9' then some (c.toNat - 48)
  else if 'a' ≤ c ∧ c ≤ 'z' then some (c.toNat - 87)
  else if 'A' ≤ c ∧ c ≤ 'Z' then some (c.toNat - 55)
  else none

/-- `value`, followed by the digits of `base` in front of the text, with the text after them. -/
def takeDigits (base : ℕ) : (value : ℕ) → Text → ℕ × Text
  | value, [] => (value, [])
  | value, c :: rest =>
    match digitValue c with
    | some digit =>
      if digit < base then takeDigits base (value * base + digit) rest else (value, c :: rest)
    | none => (value, c :: rest)

/-- Whether a digit of `base` is in front. -/
def startsDigit (base : ℕ) : Text → Bool
  | [] => false
  | c :: _ => (digitValue c).any fun digit ↦ decide (digit < base)

/-- The base that `strtoull` settles on, and the text behind a `0x` that belongs to the number. -/
def numberPrefix (base : ℕ) : Text → ℕ × Text
  | '0' :: x :: rest =>
    if (x = 'x' ∨ x = 'X') ∧ (base = 0 ∨ base = 16) ∧ startsDigit 16 rest then (16, rest)
    else (if base = 0 then 8 else base, '0' :: x :: rest)
  | text => (if base = 0 then (if text = ['0'] then 8 else 10) else base, text)

/-- The sign in front, true for minus. -/
def takeSign : Text → Bool × Text
  | '-' :: rest => (true, rest)
  | '+' :: rest => (false, rest)
  | text => (false, text)

/-- The magnitude `strtoull` reads before it looks at the range: sign, digits, rest. -/
def readInteger (base : ℕ) (text : Text) : Option (Bool × ℕ × Text) :=
  let (negative, unsigned) := takeSign (text.dropWhile isSpace)
  let (radix, digits) := numberPrefix base unsigned
  if startsDigit radix digits then
    let (value, rest) := takeDigits radix 0 digits
    some (negative, value, rest)
  else none

/-- `std::stoull`: the value and the text behind it, nothing where it throws. -/
def stoull (base : ℕ) (text : Text) : Option (ℕ × Text) :=
  match readInteger base text with
  | none => none
  | some (negative, value, rest) =>
    if value < sizeModulus then
      some (if negative then (sizeModulus - value) % sizeModulus else value, rest)
    else none

/-- `std::stoi`, without the text behind the number. -/
def stoi (base : ℕ) (text : Text) : Option ℤ :=
  match readInteger base text with
  | none => none
  | some (negative, value, _) =>
    let signed : ℤ := if negative then -value else value
    if -(2 ^ 31) ≤ signed ∧ signed < 2 ^ 31 then some signed else none

/-- The value of `strtoul`, which reads zero from no number and saturates. -/
def strtoul (base : ℕ) (text : Text) : ℕ :=
  match readInteger base text with
  | none => 0
  | some (negative, value, _) =>
    if value < sizeModulus then (if negative then (sizeModulus - value) % sizeModulus else value)
    else sizeModulus - 1

/-- `std::to_string` of an unsigned integer. -/
def decimal (value : ℕ) : Text := Nat.toDigits 10 value

/-! ### Streams -/

/-- The pieces that repeated `std::getline` reads, with `current` (reversed) already read. -/
def getlinesFrom (separator : Char) : (current : Text) → Text → List Text
  | current, [] => if current = [] then [] else [current.reverse]
  | current, c :: rest =>
    if c = separator then current.reverse :: getlinesFrom separator [] rest
    else getlinesFrom separator (c :: current) rest

/-- The pieces of a stream that `while (std::getline(stream, piece, separator))` visits. -/
def getlines (separator : Char) (text : Text) : List Text := getlinesFrom separator [] text

theorem getlinesFrom_append {separator : Char} {line : Text} (hline : separator ∉ line)
    (current rest : Text) :
    getlinesFrom separator current (line ++ separator :: rest) =
      (current.reverse ++ line) :: getlinesFrom separator [] rest := by
  induction line generalizing current with
  | nil => rw [List.nil_append, getlinesFrom, if_pos rfl, List.append_nil]
  | cons c line ih =>
    obtain ⟨hc, hrest⟩ := not_or.mp (mt List.mem_cons.mpr hline)
    rw [List.cons_append, getlinesFrom, if_neg (Ne.symm hc), ih hrest, List.reverse_cons,
      List.append_assoc,
      List.singleton_append]

/-- Lines in front, each with its separator, are read first. -/
theorem getlines_flatMap_append {separator : Char} {lines : List Text}
    (hlines : ∀ line ∈ lines, separator ∉ line) (rest : Text) :
    getlines separator ((lines.flatMap fun line ↦ line ++ [separator]) ++ rest) =
      lines ++ getlines separator rest := by
  induction lines with
  | nil => rfl
  | cons line more ih =>
    rw [List.flatMap_cons, List.append_assoc, List.append_assoc, List.singleton_append, getlines,
      getlinesFrom_append (hlines line List.mem_cons_self)]
    exact congrArg (line :: ·) (ih fun other hother ↦ hlines other (List.mem_cons_of_mem _ hother))

/-- The tokens that repeated `stream >> token` reads, with `current` (reversed) already read. -/
def tokensFrom : (current : Text) → Text → List Text
  | current, [] => if current = [] then [] else [current.reverse]
  | current, c :: rest =>
    if isSpace c then
      (if current = [] then tokensFrom [] rest else current.reverse :: tokensFrom [] rest)
    else tokensFrom (c :: current) rest

/-- The tokens of a stream between white space. -/
def tokens (text : Text) : List Text := tokensFrom [] text

example : stoull 0 "0x1Fg".toList = some (31, ['g']) := by decide
example : getlines ',' "a,,b,".toList = ["a".toList, [], "b".toList] := by decide

end Cecore
