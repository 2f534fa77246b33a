import Cecore.Core.Text
import Cecore.Library.LittleEndian
import Cecore.Platform.ProcessHandle

/-!
# Address expressions

`ExpressionParser` of `core/expression.cpp`: sums of numbers, names and bracketed expressions, which
are read as pointers. Nesting is cut off by a depth, here the levels that are left.
-/

set_option autoImplicit false
set_option relaxedAutoImplicit false

namespace Cecore.Expression

open Platform Library.LittleEndian

/-- The process an expression is read against. -/
structure Process where
  modules : List ModuleInfo
  handle : ProcessHandle

/-- `lookup` of the resolver is zero for a name it does not know. -/
structure ExpressionParser where
  proc : Option Process
  resolver : Option (Text → ℕ)

def isBlank (c : Char) : Bool := c = ' ' || c = '\t'

def trim (s : Text) : Text := ((s.dropWhile isBlank).reverse.dropWhile isBlank).reverse

def isHexDigit (c : Char) : Bool := (digitValue c).any fun digit ↦ decide (digit < 16)

def isDigit (c : Char) : Bool := decide ('0' ≤ c ∧ c ≤ '9')

def isOperator (c : Char) : Bool := c = '+' || c = '-'

namespace ExpressionParser

variable (parser : ExpressionParser)

def modules : List ModuleInfo :=
  match parser.proc with
  | some proc => proc.modules
  | none => []

/-- `std::stoull`, zero where it throws. -/
def number (base : ℕ) (text : Text) : ℕ := ((stoull base text).map Prod.fst).getD 0

/-- The address of a symbol or module, in the order in which they are tried. -/
def nameAddress (token : Text) : Option ℕ :=
  match parser.resolver.bind fun lookup ↦ if lookup token = 0 then none else some (lookup token) with
  | some addr => some addr
  | none => (parser.modules.find? fun m ↦ m.name = token).map ModuleInfo.base

def resolveToken (token : Text) : ℕ :=
  match token with
  | [] => 0
  | '#' :: digits => if digits = [] then 0 else number 10 digits
  | first :: rest =>
    if 2 < token.length ∧ first = '0' ∧ (rest.head? = some 'x' ∨ rest.head? = some 'X') then
      number 16 rest.tail
    else if token.all isHexDigit ∧ (2 ≤ token.length ∨ token.all isDigit) then number 16 token
    else match parser.nameAddress token with
      | some addr => addr
      | none => if token.all isHexDigit then number 16 token else 0

/-- The text inside and behind the bracket that closes `depth` open ones. -/
def closing : (depth : ℕ) → Text → Option (Text × Text)
  | _, [] => none
  | depth, c :: rest =>
    if c = '[' then (closing (depth + 1) rest).map fun (inner, behind) ↦ (c :: inner, behind)
    else if c = ']' then
      if depth = 1 then some ([], rest)
      else (closing (depth - 1) rest).map fun (inner, behind) ↦ (c :: inner, behind)
    else (closing depth rest).map fun (inner, behind) ↦ (c :: inner, behind)

/-- The pointer at an address. -/
def pointerAt (proc : Process) (address : ℕ) : Option ℕ :=
  match proc.handle.read address 8 with
  | some bytes => if bytes.length < 8 then none else some (leNat bytes)
  | none => none

/-- Whether a term can end in front of the text. -/
def endsTerm (rest : Text) : Bool := rest.head?.all isOperator

/-- The length of the longest module name that the text starts with and that ends a term. -/
def moduleLength (mods : List ModuleInfo) (s : Text) : ℕ :=
  mods.foldl (fun modLen m ↦
    if m.name.length ≤ modLen then modLen
    else if m.name.isPrefixOf s ∧ endsTerm (s.drop m.name.length) then m.name.length
    else modLen) 0

/-- The text up to the next operator outside brackets, and the text from there. An operator behind
an `x` is not taken for one, unless the `x` starts the expression (`guarded` is false). -/
def scanTerm : (bd : ℕ) → (guarded : Bool) → (previous : Char) → Text → Text × Text
  | _, _, _, [] => ([], [])
  | bd, guarded, previous, c :: rest =>
    if c = '[' then let (term, more) := scanTerm (bd + 1) true c rest; (c :: term, more)
    else if c = ']' then let (term, more) := scanTerm (bd - 1) true c rest; (c :: term, more)
    else if bd = 0 ∧ isOperator c ∧ ¬(guarded ∧ (previous = 'x' ∨ previous = 'X')) then
      ([], c :: rest)
    else let (term, more) := scanTerm bd true c rest; (c :: term, more)

/-- The next term of a sum and the text behind it. -/
def nextTerm (mods : List ModuleInfo) (atStart : Bool) (s : Text) : Text × Text :=
  let modLen := moduleLength mods s
  if 0 < modLen then (s.take modLen, s.drop modLen)
  else match s with
    | [] => ([], [])
    | c :: rest =>
      let (term, more) := scanTerm (if c = '[' then 1 else 0) (!atStart) c rest
      (c :: term, more)

/-- `result` with a term added or subtracted. -/
def accumulate (result : ℕ) (subtract : Bool) (val : ℕ) : ℕ :=
  if subtract then (result + (sizeModulus - val % sizeModulus)) % sizeModulus
  else (result + val) % sizeModulus

/-- The value of a term; `parseImpl` reads the bracketed ones. -/
def termValue (parseImpl : Text → Option ℕ) (token : Text) : ℕ :=
  if '[' ∈ token then (parseImpl token).getD 0 else parser.resolveToken token

/-- The loop over the terms of a sum; `turns` bounds the terms. -/
def sumFrom (parseImpl : Text → Option ℕ) :
    (turns : ℕ) → (atStart : Bool) → (result : ℕ) → (subtract : Bool) → Text → ℕ
  | 0, _, result, _, _ => result
  | turns + 1, atStart, result, subtract, s =>
    if s = [] then result
    else
      let (term, rest) := nextTerm parser.modules atStart s
      let token := trim term
      let result := if token = [] then result
        else accumulate result subtract (parser.termValue parseImpl token)
      match rest with
      | [] => result
      | op :: rest => sumFrom parseImpl turns false result (op = '-') rest

def parseImpl : (levels : ℕ) → Text → Option ℕ
  | 0, _ => none
  | levels + 1, expr =>
    match trim expr with
    | [] => none
    | '[' :: s =>
      match closing 1 s with
      | none => none
      | some (inner, behind) =>
        match parseImpl levels inner, parser.proc with
        | some address, some proc =>
          match pointerAt proc address with
          | none => none
          | some ptr =>
            match trim behind with
            | '+' :: offset => (parseImpl levels offset).map (accumulate ptr false)
            | '-' :: offset => (parseImpl levels offset).map (accumulate ptr true)
            | _ => some ptr
        | _, _ => none
    | s => some (parser.sumFrom (parseImpl levels) s.length true 0 false s)

def kMaxDepth : ℕ := 64

/-- `parse`: the depths 0 to `kMaxDepth` are allowed. -/
def parse (expr : Text) : Option ℕ := parser.parseImpl (kMaxDepth + 1) expr

end ExpressionParser

end Cecore.Expression
