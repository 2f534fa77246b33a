import Cecore.AutoAsm.Text
import Cecore.Library.LittleEndian
import Cecore.Scanner.Numeric

/-!
# Data directives

The operands of `DB`, `DW`, `DD` and `DQ`, of `NOP` and of `ALLOC`: how they are split, evaluated
and turned into bytes, with the texts of their errors. `std::from_chars` on floating-point text is a
parameter that gives the bits of the value.
-/

set_option autoImplicit false
set_option relaxedAutoImplicit false

namespace Cecore.AutoAsm

open Library.LittleEndian Scanner

/-- `std::from_chars` for `float` and `double`: the bits of the value, nothing on an error. -/
abbrev FromChars := FloatFormat → Text → Option ℕ

/-- The values of a data directive after `current` (reversed). -/
def splitDataValuesFrom : (quote : Option Char) → (current : Text) → Text → List Text
  | _, current, [] => if trim current.reverse = [] then [] else [trim current.reverse]
  | quote, current, c :: rest =>
    if isQuote c ∧ (quote = none ∨ quote = some c) then
      splitDataValuesFrom (if quote = some c then none else some c) (c :: current) rest
    else if quote = none ∧ (c = ',' ∨ isSpace c) then
      if trim current.reverse = [] then splitDataValuesFrom quote current rest
      else trim current.reverse :: splitDataValuesFrom quote [] rest
    else splitDataValuesFrom quote (c :: current) rest

def splitDataValues (data : Text) : List Text := splitDataValuesFrom none [] data

/-- A term of a data value: decimal behind `#`, else hexadecimal. -/
def termValue (term : Text) : Option ℕ :=
  match trim term with
  | [] => none
  | '#' :: digits => (stoull 10 digits).map Prod.fst
  | digits => (stoull 16 digits).map Prod.fst

/-- One more term of a sum of `uint64_t`. -/
def addTerm (sub : Bool) (acc : ℕ) (term : Text) : Option ℕ :=
  (termValue term).map fun v ↦
    if sub then (acc + sizeModulus - v) % sizeModulus else (acc + v) % sizeModulus

/-- The loop of `evalDataToken`, with `term` (reversed) read since the last sign. -/
def evalTerms : (sub : Bool) → (acc : ℕ) → (term : Text) → Text → Option ℕ
  | sub, acc, term, [] => if term = [] then some acc else addTerm sub acc term.reverse
  | sub, acc, term, c :: rest =>
    if c = '+' ∨ c = '-' then
      match addTerm sub acc term.reverse with
      | some sum => evalTerms (c = '-') sum [] rest
      | none => none
    else evalTerms sub acc (c :: term) rest

def evalDataToken : Text → Option ℕ
  | [] => none
  | c :: rest =>
    if c = '+' ∨ c = '-' then evalTerms (c = '-') 0 [] rest else evalTerms false 0 [] (c :: rest)

/-- The bytes of a value of a data directive of the given width. -/
def dataValueBytes (fromChars : FromChars) (op : Text) (width : ℕ) (token : Text) :
    Except Text (List UInt8) :=
  let lower := token.map toLowerChar
  let cast (format : FloatFormat) (skip : ℕ) (kind : Text) : Except Text (List UInt8) :=
    match fromChars format ((trim (token.drop skip)).map fun c ↦ if c = ',' then '.' else c) with
    | some bits => .ok (toLE format.width bits)
    | none => .error ("Invalid ".toList ++ op ++ kind ++ token)
  if isQuoted token then
    if width = 1 then .ok ((stripOptionalQuotes token).map byteOf)
    else .error (op ++ " string literal is only supported for DB".toList)
  else if startsWith lower "(float)".toList then cast .single 7 " float value: ".toList
  else if startsWith lower "(double)".toList then cast .double 8 " double value: ".toList
  else match evalDataToken token with
    | none => .error ("Invalid ".toList ++ op ++ " value: ".toList ++ token)
    | some value =>
      if value < 256 ^ width then .ok (toLE width value)
      else .error (op ++ " value out of range: ".toList ++ token)

/-- The width of an item of a data directive. -/
def dataWidth (op : Text) : ℕ :=
  if op = "DW".toList then 2 else if op = "DD".toList then 4 else if op = "DQ".toList then 8 else 1

/-- The bytes of the values in turn. -/
def dataBytes (fromChars : FromChars) (op : Text) : List Text → Except Text (List UInt8)
  | [] => .ok []
  | token :: rest =>
    match dataValueBytes fromChars op (dataWidth op) (trim token) with
    | .error error => .error error
    | .ok bytes =>
      match dataBytes fromChars op rest with
      | .error error => .error error
      | .ok more => .ok (bytes ++ more)

def parseDataDirective (fromChars : FromChars) (op data : Text) : Except Text (List UInt8) :=
  match splitDataValues data with
  | [] => .error (op ++ " requires at least one value".toList)
  | values => dataBytes fromChars op values

def parseNopCount (countExpr : Text) : Except Text ℕ :=
  match (if countExpr = [] then some 1 else (stoull 0 countExpr).map Prod.fst) with
  | none => .error ("Invalid NOP count: ".toList ++ countExpr)
  | some 0 => .error "NOP count must be greater than zero".toList
  | some count => .ok count

/-- The Cheat Engine spelling `$1000` of a hexadecimal number. -/
def dollarToHex : Text → Text
  | '$' :: rest => "0x".toList ++ rest
  | text => text

/-- `parseAllocArgs`: name, size and the unresolved preferred address. -/
def parseAllocArgs (args : Text) : Option (Text × ℕ × Text) :=
  match getlines ',' args with
  | name :: size :: rest =>
    (stoull 0 (dollarToHex (trim size))).map fun parsed ↦
      (trim name, parsed.1, (rest.head?.map trim).getD [])
  | _ => none

example : parseDataDirective (fun _ _ ↦ none) "DW".toList "10, #10 'a'".toList =
    .error "DW string literal is only supported for DB".toList := by decide

end Cecore.AutoAsm
