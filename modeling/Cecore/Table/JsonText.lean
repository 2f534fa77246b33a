import Cecore.Core.Digits
import Cecore.Library.BinaryFloat

/-!
# JSON text

`jsonEscape` and the `JsonParser` of `core/ct_file.cpp`. A parse takes a value off the front of a
text and hands back what is left; nesting is bounded by `kMaxDepth`. Numbers are doubles as
`from_chars` reads them, that is rationals rounded to 53 bits, or no rational for an infinity or a
NaN.
-/

set_option autoImplicit false
set_option relaxedAutoImplicit false

namespace Cecore.Table

open Library.BinaryFloat

/-- `jsonEscape` of one character. -/
def jsonEscapeChar (c : Char) : Text :=
  if c = '\\' then ['\\', '\\']
  else if c = doubleQuote then ['\\', doubleQuote]
  else if c = '\n' then ['\\', 'n']
  else if c = '\r' then ['\\', 'r']
  else if c = '\t' then ['\\', 't']
  else [c]

/-- `jsonEscape`. -/
def jsonEscape (s : Text) : Text := s.flatMap jsonEscapeChar

/-- The value of a number, unless it is an infinity or a NaN. -/
abbrev Double := Option ℚ

/-- `JsonValue`; the fields of an object are in the order of the text. -/
inductive JsonValue
  | null
  | bool (value : Bool)
  | number (value : Double)
  | string (value : Text)
  | array (items : List JsonValue)
  | object (fields : List (Text × JsonValue))

/-! ### Numbers -/

/-- The whole number that digits spell. -/
def digitsValue (digits : Text) : ℕ := (takeDigits 10 0 digits).1

/-- The exponent part of a number, if there is one. -/
def takeExponent : Text → ℤ × Text
  | [] => (0, [])
  | e :: rest =>
    if e = 'e' ∨ e = 'E' then
      let (negative, digits) := takeSign rest
      if startsDigit 10 digits then
        let (value, left) := takeDigits 10 0 digits
        (if negative then -(value : ℤ) else value, left)
      else (0, e :: rest)
    else (0, e :: rest)

/-- The digits with an optional point of a number, as a mantissa and the count of digits behind the
point. -/
def takeMantissa (text : Text) : Option (ℕ × ℕ × Text) :=
  let whole := text.takeWhile isDigit
  match text.dropWhile isDigit with
  | '.' :: rest =>
    let fraction := rest.takeWhile isDigit
    if whole = [] ∧ fraction = [] then none
    else some (digitsValue (whole ++ fraction), fraction.length, rest.dropWhile isDigit)
  | rest => if whole = [] then none else some (digitsValue whole, 0, rest)

/-- The texts that `from_chars` reads as an infinity or a NaN. -/
def takeNonFinite (text : Text) : Option Text :=
  let starts (word : String) : Bool := word.toList.isPrefixOf (text.map toLowerChar)
  if starts "infinity" then some (text.drop 8)
  else if starts "inf" ∨ starts "nan" then some (text.drop 3)
  else none

/-- The minus sign in front; `from_chars` takes no plus. -/
def takeMinus : Text → Bool × Text
  | '-' :: rest => (true, rest)
  | text => (false, text)

/-- `std::from_chars` for a `double` in the general format: nothing when no number is in front or
the number is out of range. -/
def fromCharsDouble (text : Text) : Option (Double × Text) :=
  let (negative, unsigned) := takeMinus text
  match takeMantissa unsigned with
  | none => (takeNonFinite unsigned).map fun rest ↦ (none, rest)
  | some (mantissa, scale, rest) =>
    let (exponent, rest) := takeExponent rest
    let exact : ℚ := mantissa * 10 ^ (exponent - scale)
    let rounded := roundToDouble (if negative then -exact else exact)
    if 2 ^ 1024 ≤ |rounded| ∨ (rounded = 0 ∧ mantissa ≠ 0) then none else some (some rounded, rest)

/-- `static_cast` of a double to a signed integer: towards zero. The source is undefined where the
result does not fit; the model gives the smallest `int` for what is no rational. -/
def castInt : Double → ℤ
  | some value => value.num.tdiv value.den
  | none => -(2 ^ 31)

/-! ### The parser -/

def skipWs (text : Text) : Text := text.dropWhile isSpace

/-- `consume`. -/
def consume (expected : Char) (text : Text) : Option Text :=
  match skipWs text with
  | [] => none
  | c :: rest => if c = expected then some rest else none

/-- What `strtoul` makes of the four characters behind `\u`, which have to be used up: it sees them
up to a NUL, and reads zero from none. -/
def unicodeEscape (hexDigits : Text) : Option Char :=
  let shown := hexDigits.takeWhile fun c ↦ decide (c ≠ Char.ofNat 0)
  match readInteger 16 shown with
  | some (negative, value, []) =>
    if value = 0 ∨ (negative = false ∧ value ≤ 0x7f) then some (Char.ofNat value) else some '?'
  | some _ => none
  | none => if shown = [] then some (Char.ofNat 0) else none

/-- A `\` and what follows it: the character, and what is left. -/
def takeEscape : Text → Option (Char × Text)
  | [] => none
  | esc :: rest =>
    if esc = doubleQuote ∨ esc = '\\' ∨ esc = '/' then some (esc, rest)
    else if esc = 'b' then some (Char.ofNat 8, rest)
    else if esc = 'f' then some (Char.ofNat 12, rest)
    else if esc = 'n' then some ('\n', rest)
    else if esc = 'r' then some ('\r', rest)
    else if esc = 't' then some ('\t', rest)
    else if esc = 'u' then
      if rest.length < 4 then none
      else (unicodeEscape (rest.take 4)).map fun c ↦ (c, rest.drop 4)
    else none

/-- The loop of `parseString` behind the opening quote; a turn takes a character or an escape. -/
def parseStringFrom : (turns : ℕ) → Text → Option (Text × Text)
  | 0, _ => none
  | _, [] => none
  | turns + 1, c :: rest =>
    if c = doubleQuote then some ([], rest)
    else if c = '\\' then
      match takeEscape rest with
      | none => none
      | some (decoded, rest) =>
        (parseStringFrom turns rest).map fun parsed ↦ (decoded :: parsed.1, parsed.2)
    else (parseStringFrom turns rest).map fun parsed ↦ (c :: parsed.1, parsed.2)

/-- `parseString`. -/
def parseString : Text → Option (Text × Text)
  | [] => none
  | c :: rest => if c = doubleQuote then parseStringFrom rest.length rest else none

/-- The loop of `parseArray`: items up to the closing bracket. -/
def parseItems (parseValue : Text → Option (JsonValue × Text)) :
    (turns : ℕ) → Text → Option (List JsonValue × Text)
  | 0, _ => none
  | turns + 1, text =>
    match parseValue text with
    | none => none
    | some (item, rest) =>
      match skipWs rest with
      | ']' :: rest => some ([item], rest)
      | rest =>
        match consume ',' rest with
        | none => none
        | some rest => (parseItems parseValue turns rest).map fun parsed ↦
          (item :: parsed.1, parsed.2)

/-- The loop of `parseObject`: members up to the closing brace. -/
def parseMembers (parseValue : Text → Option (JsonValue × Text)) :
    (turns : ℕ) → Text → Option (List (Text × JsonValue) × Text)
  | 0, _ => none
  | turns + 1, text =>
    match parseString (skipWs text) with
    | none => none
    | some (key, rest) =>
      match consume ':' rest with
      | none => none
      | some rest =>
        match parseValue rest with
        | none => none
        | some (value, rest) =>
          match skipWs rest with
          | '\x7d' :: rest => some ([(key, value)], rest)
          | rest =>
            match consume ',' rest with
            | none => none
            | some rest => (parseMembers parseValue turns rest).map fun parsed ↦
              ((key, value) :: parsed.1, parsed.2)

/-- `parseValue` with `levels` more levels of nesting allowed. -/
def parseValue : (levels : ℕ) → Text → Option (JsonValue × Text)
  | 0, _ => none
  | levels + 1, text =>
    match skipWs text with
    | [] => none
    | c :: rest =>
      if c = doubleQuote then
        (parseString (c :: rest)).map fun parsed ↦ (.string parsed.1, parsed.2)
      else if c = '\x7b' then
        match skipWs rest with
        | '\x7d' :: rest => some (.object [], rest)
        | rest => (parseMembers (parseValue levels) (rest.length + 1) rest).map fun parsed ↦
          (.object parsed.1, parsed.2)
      else if c = '[' then
        match skipWs rest with
        | ']' :: rest => some (.array [], rest)
        | rest => (parseItems (parseValue levels) (rest.length + 1) rest).map fun parsed ↦
          (.array parsed.1, parsed.2)
      else if c = '-' ∨ isDigit c then
        (fromCharsDouble (c :: rest)).map fun parsed ↦ (.number parsed.1, parsed.2)
      else if "true".toList.isPrefixOf (c :: rest) then some (.bool true, (c :: rest).drop 4)
      else if "false".toList.isPrefixOf (c :: rest) then some (.bool false, (c :: rest).drop 5)
      else if "null".toList.isPrefixOf (c :: rest) then some (.null, (c :: rest).drop 4)
      else none

def kMaxDepth : ℕ := 128

/-- `JsonParser::parse`: the value of the whole text. -/
def parseJson (text : Text) : Option JsonValue :=
  match parseValue kMaxDepth (skipWs text) with
  | some (value, rest) => if skipWs rest = [] then some value else none
  | none => none

end Cecore.Table
