import Cecore.Core.Text
import Mathlib.Data.List.Basic
import Mathlib.Data.List.Sort

/-!
# Text helpers of the auto-assembler

The static helpers at the top of `core/autoasm.cpp`: trimming, quotes, argument lists, comments,
hexadecimal text, and the replacement of whole words outside quoted spans that symbol substitution
is made of.
-/

set_option autoImplicit false
set_option relaxedAutoImplicit false

namespace Cecore.AutoAsm

/-! ### Trimming and quotes -/

def isBlank (c : Char) : Bool := c = ' ' || c = '\t' || c = '\r' || c = '\n'

def trim (s : Text) : Text := ((s.dropWhile isBlank).reverse.dropWhile isBlank).reverse

def toUpper (s : Text) : Text := s.map toUpperChar

def normalizeCommandName (name : Text) : Text := toUpper (trim name)

def startsWith (s start : Text) : Bool := start.isPrefixOf s

def isQuote (c : Char) : Bool := c = doubleQuote || c = singleQuote

/-- A text of at least two characters between two equal quotes. -/
def isQuoted (s : Text) : Bool :=
  decide (2 ≤ s.length) && s.head?.any isQuote && s.head? == s.getLast?

def stripOptionalQuotes (s : Text) : Text :=
  let s := trim s
  if isQuoted s then s.tail.dropLast else s

/-- Drops one double quote in front and one at the end, each if it is there. -/
def dropDoubleQuotes (s : Text) : Text :=
  let s := if s.head? = some doubleQuote then s.tail else s
  if s.getLast? = some doubleQuote then s.dropLast else s

/-! ### Pieces -/

/-- The arguments after `current` (reversed), of which at most `parts` more may be split off. -/
def splitArgsFrom : (quote : Option Char) → (current : Text) → (parts : ℕ) → Text → List Text
  | _, current, _, [] => [trim current.reverse]
  | quote, current, parts, c :: rest =>
    if isQuote c ∧ (quote = none ∨ quote = some c) then
      splitArgsFrom (if quote = some c then none else some c) (c :: current) parts rest
    else if c = ',' ∧ quote = none ∧ 0 < parts then
      trim current.reverse :: splitArgsFrom quote [] (parts - 1) rest
    else splitArgsFrom quote (c :: current) parts rest

/-- At most `maxParts` arguments between commas outside quotes. -/
def splitArgs (args : Text) (maxParts : ℕ) : List Text := splitArgsFrom none [] (maxParts - 1) args

/-- The text before the first `separator` and the text after it. -/
def cutAt (separator : Char) (text : Text) : Option (Text × Text) :=
  if separator ∈ text then
    some (text.takeWhile (· ≠ separator), (text.dropWhile (· ≠ separator)).tail)
  else none

/-- The position where an inline comment starts ends the line; `inS` and `inD` follow the quotes. -/
def beforeComment : (inS inD : Bool) → Text → Text
  | _, _, [] => []
  | inS, inD, c :: rest =>
    if c = singleQuote ∧ inD = false then c :: beforeComment (!inS) inD rest
    else if c = doubleQuote ∧ inS = false then c :: beforeComment inS (!inD) rest
    else if inS = false ∧ inD = false ∧ c = '/' ∧ rest.head? = some '/' then []
    else c :: beforeComment inS inD rest

def stripInlineComment (line : Text) : Text := trim (beforeComment false false line)

/-! ### Numbers -/

def formatHex (address : ℕ) : Text := Nat.toDigits 16 address

def formatHexLiteral (address : ℕ) : Text := "0x".toList ++ formatHex address

/-- `parseWholeUnsigned`: the number that the whole trimmed text spells. -/
def parseWholeUnsigned (text : Text) (base : ℕ) : Option ℕ :=
  match stoull base (trim text) with
  | some (value, []) => some value
  | _ => none

/-! ### Lines -/

def isSimpleLabelDefinition (line : Text) : Bool :=
  line.getLast? == some ':' && !line.any fun c ↦ c = ' ' || c = '\t'

/-- What stands between the parentheses of `keyword(...)`, when the line, upper case in `upper`, is
such a call. -/
def callArgs (keyword line upper : Text) : Option Text :=
  if startsWith upper (keyword ++ ['(']) ∧ line.getLast? = some ')' then
    some (line.drop (keyword.length + 1)).dropLast
  else none

/-! ### Whole words outside quotes -/

def isIdentChar (c : Char) : Bool :=
  (decide ('A' ≤ c) && decide (c ≤ 'Z')) || (decide ('a' ≤ c) && decide (c ≤ 'z')) ||
    (decide ('0' ≤ c) && decide (c ≤ '9')) || c = '_'

/-- The scan of `replaceWholeToken` behind the character `before`, with `skip` characters of a
replaced name still to be dropped. -/
def replaceFrom (name value : Text) : (before : Option Char) → (skip : ℕ) → Text → Text
  | _, _, [] => []
  | before, skip + 1, _ :: rest => replaceFrom name value before skip rest
  | before, 0, c :: rest =>
    if startsWith (c :: rest) name ∧ before.any isIdentChar = false ∧
        ((c :: rest)[name.length]?).any isIdentChar = false then
      value ++ replaceFrom name value (value.getLast?.or before) (name.length - 1) rest
    else c :: replaceFrom name value (some c) 0 rest

/-- Every occurrence of `name` between non-identifier characters becomes `value`. -/
def replaceWholeToken (name value text : Text) : Text :=
  if name = [] then text else replaceFrom name value none 0 text

/-- `substitute` on each span between quoted literals, which stay as they are. Outside a literal
`span` is the reversed span so far, inside it the reversed literal. -/
def outsideQuotesFrom (substitute : Text → Text) : (quote : Option Char) → (span : Text) →
    Text → Text
  | none, span, [] => if span = [] then [] else substitute span.reverse
  | some _, span, [] => span.reverse
  | none, span, c :: rest =>
    if isQuote c then
      (if span = [] then [] else substitute span.reverse) ++
        outsideQuotesFrom substitute (some c) [c] rest
    else outsideQuotesFrom substitute none (c :: span) rest
  | some q, span, c :: rest =>
    if c = q then (c :: span).reverse ++ outsideQuotesFrom substitute none [] rest
    else outsideQuotesFrom substitute (some q) (c :: span) rest

def outsideQuotes (substitute : Text → Text) (line : Text) : Text :=
  outsideQuotesFrom substitute none [] line

theorem outsideQuotesFrom_id (quote : Option Char) (span line : Text) :
    outsideQuotesFrom (fun text ↦ text) quote span line = span.reverse ++ line := by
  induction line generalizing quote span with
  | nil => cases quote <;> simp [outsideQuotesFrom]
  | cons c rest ih =>
    cases quote <;> rw [outsideQuotesFrom] <;> split_ifs <;> simp [*]

/-- The order in which names are substituted: longer names first. -/
def longestFirst {α : Type} (name : α → Text) (symbols : List α) : List α :=
  symbols.insertionSort fun a b ↦ (name b).length ≤ (name a).length

theorem longestFirst_perm {α : Type} (name : α → Text) (symbols : List α) :
    (longestFirst name symbols).Perm symbols :=
  List.perm_insertionSort _ _

theorem longestFirst_pairwise {α : Type} (name : α → Text) (symbols : List α) :
    (longestFirst name symbols).Pairwise fun a b ↦ (name b).length ≤ (name a).length := by
  have htotal : Std.Total fun a b : α ↦ (name b).length ≤ (name a).length :=
    ⟨fun _ _ ↦ Nat.le_total _ _⟩
  have htrans : IsTrans α fun a b ↦ (name b).length ≤ (name a).length :=
    ⟨fun _ _ _ h h' ↦ Nat.le_trans h' h⟩
  exact List.pairwise_insertionSort _ symbols

example : replaceWholeToken "ax".toList "1".toList "mov rax,ax".toList = "mov rax,1".toList := by
  decide

end Cecore.AutoAsm
