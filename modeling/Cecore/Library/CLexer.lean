import Cecore.Library.Characters
import Mathlib.Data.List.Infix

/-!
# The lexical rules of C

The first phases of a C translation, on lists of characters: lines that end in a backslash are
spliced with the next one, and the text is cut into preprocessing tokens by the longest match,
comments being white space. Trigraphs are not replaced. A quoted constant has a value for each
character and escape sequence in it (`unquote`); universal character names have none here.
-/

set_option autoImplicit false
set_option relaxedAutoImplicit false

namespace Cecore.Library.CLexer

def doubleMark : Char := Char.ofNat 34
def singleMark : Char := Char.ofNat 39
def backslash : Char := Char.ofNat 92

/-! ### Spliced lines -/

/-- Each backslash in front of a newline is deleted with the newline. -/
def splice : List Char → List Char
  | [] => []
  | [c] => [c]
  | c :: d :: rest => if c = backslash ∧ d = '\n' then splice rest else c :: splice (d :: rest)

attribute [local grind =] splice

/-- A line that does not end in a backslash stays. -/
theorem splice_line {line : List Char} (hline : '\n' ∉ line) (hlast : line.getLast? ≠ some backslash)
    (rest : List Char) : splice (line ++ '\n' :: rest) = line ++ '\n' :: splice rest := by
  have hnewline : splice ('\n' :: rest) = '\n' :: splice rest := by
    cases rest with
    | nil => rfl
    | cons c rest => rw [splice, if_neg fun h ↦ absurd h.1 (by decide)]
  induction line with
  | nil => exact hnewline
  | cons c line ih =>
    obtain ⟨hc, hline⟩ := List.ne_and_not_mem_of_not_mem_cons hline
    cases line with
    | nil =>
      have hne : c ≠ backslash := fun h ↦ hlast (by rw [h]; rfl)
      rw [List.cons_append, List.nil_append, splice, if_neg fun h ↦ hne h.1, hnewline]
      rfl
    | cons d line =>
      have hd : d ≠ '\n' := fun h ↦ hline (h ▸ List.mem_cons_self)
      rw [List.getLast?_cons_cons] at hlast
      have hih := ih hline hlast
      rw [List.cons_append] at hih
      rw [List.cons_append, List.cons_append, splice, if_neg fun h ↦ hd h.2, hih]
      rfl

/-- A line that ends in a backslash is joined with the next one. -/
theorem splice_continued {line : List Char} (hline : '\n' ∉ line) (rest : List Char) :
    splice (line ++ backslash :: '\n' :: rest) = line ++ splice rest := by
  induction line with
  | nil => rw [List.nil_append, splice, if_pos ⟨rfl, rfl⟩, List.nil_append]
  | cons c line ih =>
    obtain ⟨-, hline⟩ := List.ne_and_not_mem_of_not_mem_cons hline
    cases line with
    | nil =>
      rw [List.cons_append, List.nil_append, splice, if_neg fun h ↦ absurd h.2 (by decide), splice,
        if_pos ⟨rfl, rfl⟩]
      rfl
    | cons d line =>
      have hd : d ≠ '\n' := fun h ↦ hline (h ▸ List.mem_cons_self)
      have hih := ih hline
      rw [List.cons_append] at hih
      rw [List.cons_append, List.cons_append, splice, if_neg fun h ↦ hd h.2, hih]
      rfl

/-! ### Preprocessing tokens -/

inductive Token
  | identifier (text : List Char)
  | number (text : List Char)
  | punctuator (text : List Char)
  | string (text : List Char)
  | character (text : List Char)
  | header (text : List Char)
  /-- A quote that its line does not close. -/
  | unfinished (text : List Char)
  | other (c : Char)
  deriving DecidableEq, Repr

inductive Mode
  | between
  | word (text : List Char)
  | number (text : List Char)
  | punctuator (text : List Char)
  | header (close : Char) (text : List Char)
  | string (text : List Char)
  | stringEscape (text : List Char)
  | character (text : List Char)
  | characterEscape (text : List Char)
  | lineComment
  | blockComment
  | blockStar
  deriving DecidableEq, Repr

/-- How much of an `#include` directive the line has. -/
inductive Place
  | lineStart
  | afterHash
  | afterInclude
  | elsewhere
  deriving DecidableEq, Repr

structure Control where
  mode : Mode
  place : Place
  deriving DecidableEq, Repr

/-- The lexer at the start of a line. -/
def fresh : Control := ⟨.between, .lineStart⟩

def isBlank (c : Char) : Bool :=
  c = ' ' || c = '\t' || c = '\r' || c.toNat = 11 || c.toNat = 12

def isDecimal (c : Char) : Bool := '0' ≤ c ∧ c ≤ '9'

def isNondigit (c : Char) : Bool := ('a' ≤ c ∧ c ≤ 'z') ∨ ('A' ≤ c ∧ c ≤ 'Z') ∨ c = '_'

def isWordChar (c : Char) : Bool := isNondigit c || isDecimal c

def punctuators : List (List Char) :=
  [['['], [']'], ['('], [')'], ['{'], ['}'], ['.'], ['-', '>'], ['+', '+'], ['-', '-'], ['&'],
    ['*'], ['+'], ['-'], ['~'], ['!'], ['/'], ['%'], ['<', '<'], ['>', '>'], ['<'], ['>'],
    ['<', '='], ['>', '='], ['=', '='], ['!', '='], ['^'], ['|'], ['&', '&'], ['|', '|'], ['?'],
    [':'], [';'], ['.', '.', '.'], ['='], ['*', '='], ['/', '='], ['%', '='], ['+', '='],
    ['-', '='], ['<', '<', '='], ['>', '>', '='], ['&', '='], ['^', '='], ['|', '='], [','], ['#'],
    ['#', '#'], ['<', ':'], [':', '>'], ['<', '%'], ['%', '>'], ['%', ':'], ['%', ':', '%', ':']]

/-- Some punctuator starts with the text and the character behind it. -/
def prolongs (text : List Char) (c : Char) : Bool :=
  punctuators.any fun punctuator ↦ (text ++ [c]).isPrefixOf punctuator

/-- The prefixes of string and character constants. -/
def encodings : List (List Char) := [['L'], ['u'], ['U'], ['u', '8']]

def Place.after (place : Place) (token : Token) : Place :=
  if place = .lineStart ∧ (token = .punctuator ['#'] ∨ token = .punctuator ['%', ':']) then .afterHash
  else if place = .afterHash ∧ token = .identifier ['i', 'n', 'c', 'l', 'u', 'd', 'e'] then .afterInclude
  else .elsewhere

/-- Tokens end in front of `c`, and `c` is the first character of what follows. -/
def Place.begin (place : Place) (ended : List Token) (c : Char) : Control × List Token :=
  let place := ended.foldl Place.after place
  if c = '\n' then (fresh, ended)
  else if isBlank c then (⟨.between, place⟩, ended)
  else if c = doubleMark ∧ place = .afterInclude then (⟨.header doubleMark [c], place⟩, ended)
  else if c = '<' ∧ place = .afterInclude then (⟨.header '>' [c], place⟩, ended)
  else if c = doubleMark then (⟨.string [c], place⟩, ended)
  else if c = singleMark then (⟨.character [c], place⟩, ended)
  else if isNondigit c then (⟨.word [c], place⟩, ended)
  else if isDecimal c then (⟨.number [c], place⟩, ended)
  else if prolongs [] c then (⟨.punctuator [c], place⟩, ended)
  else (⟨.between, place.after (.other c)⟩, ended ++ [.other c])

/-- The punctuators in a text that starts no punctuator with the next character, and the last of
them. -/
def longest (text : List Char) : List Token × List Char :=
  if text = ['.', '.'] then ([.punctuator ['.']], ['.'])
  else if text = ['%', ':', '%'] then ([.punctuator ['%', ':']], ['%'])
  else ([], text)

/-- The next character of a number: letters, digits and points, and a sign behind an exponent. -/
def continuesNumber (text : List Char) (c : Char) : Bool :=
  isWordChar c || c = '.' || ((c = '+' || c = '-') &&
    text.getLast?.any fun last ↦ last = 'e' || last = 'E' || last = 'p' || last = 'P')

/-- A quoted token, which ends with its line at the latest. -/
def Place.quote (place : Place) (close : Char) (text : List Char) (c : Char) (token : List Char → Token)
    (body escape : List Char → Mode) : Control × List Token :=
  if c = '\n' then (fresh, [.unfinished text])
  else if c = close then (⟨.between, place.after (token (text ++ [c]))⟩, [token (text ++ [c])])
  else if c = backslash then (⟨escape (text ++ [c]), place⟩, [])
  else (⟨body (text ++ [c]), place⟩, [])

/-- The character behind a backslash in a quoted token. -/
def Place.escaped (place : Place) (text : List Char) (c : Char) (body : List Char → Mode) :
    Control × List Token :=
  if c = '\n' then (fresh, [.unfinished text]) else (⟨body (text ++ [c]), place⟩, [])

/-- One character is read: the tokens that it ends. -/
def step (κ : Control) (c : Char) : Control × List Token :=
  match κ.mode with
  | .between => κ.place.begin [] c
  | .word text =>
    if isWordChar c then (⟨.word (text ++ [c]), κ.place⟩, [])
    else if text ∈ encodings ∧ c = doubleMark then (⟨.string (text ++ [c]), κ.place⟩, [])
    else if text ∈ encodings ∧ c = singleMark then (⟨.character (text ++ [c]), κ.place⟩, [])
    else κ.place.begin [.identifier text] c
  | .number text =>
    if continuesNumber text c then (⟨.number (text ++ [c]), κ.place⟩, [])
    else κ.place.begin [.number text] c
  | .punctuator text =>
    if text = ['/'] ∧ c = '/' then (⟨.lineComment, κ.place⟩, [])
    else if text = ['/'] ∧ c = '*' then (⟨.blockComment, κ.place⟩, [])
    else if prolongs text c then (⟨.punctuator (text ++ [c]), κ.place⟩, [])
    else
      let (ended, last) := longest text
      if last = ['.'] ∧ isDecimal c then
        (⟨.number (last ++ [c]), ended.foldl Place.after κ.place⟩, ended)
      else if ended ≠ [] ∧ prolongs last c then
        (⟨.punctuator (last ++ [c]), ended.foldl Place.after κ.place⟩, ended)
      else κ.place.begin (ended ++ [.punctuator last]) c
  | .header close text =>
    if c = '\n' then (fresh, [.unfinished text])
    else if c = close then (⟨.between, .elsewhere⟩, [.header (text ++ [c])])
    else (⟨.header close (text ++ [c]), κ.place⟩, [])
  | .string text => κ.place.quote doubleMark text c .string .string .stringEscape
  | .stringEscape text => κ.place.escaped text c .string
  | .character text => κ.place.quote singleMark text c .character .character .characterEscape
  | .characterEscape text => κ.place.escaped text c .character
  | .lineComment => if c = '\n' then (fresh, []) else (κ, [])
  | .blockComment => (⟨if c = '*' then .blockStar else .blockComment, κ.place⟩, [])
  | .blockStar =>
    (⟨if c = '/' then .between else if c = '*' then .blockStar else .blockComment, κ.place⟩, [])

/-- The tokens that end in a text, with the lexer behind it. -/
def run : Control → List Char → Control × List Token
  | κ, [] => (κ, [])
  | κ, c :: rest => ((run (step κ c).1 rest).1, (step κ c).2 ++ (run (step κ c).1 rest).2)

theorem run_append (κ : Control) (first second : List Char) :
    run κ (first ++ second) =
      ((run (run κ first).1 second).1, (run κ first).2 ++ (run (run κ first).1 second).2) := by
  induction first generalizing κ with
  | nil => rfl
  | cons c first ih => simp only [List.cons_append, run, ih, List.append_assoc]

/-- The tokens of a source text, which ends in a newline. -/
def lex (source : List Char) : List Token := (run fresh (splice source ++ ['\n'])).2

/-! ### The values of quoted constants -/

/-- A quoted constant that has been read up to some character, with the values so far. -/
inductive Reading
  | body (values : List ℕ)
  | escape (values : List ℕ)
  | octal (values : List ℕ) (digits value : ℕ)
  | hexStart (values : List ℕ)
  | hex (values : List ℕ) (value : ℕ)
  | closed (values : List ℕ)
  | bad
  deriving DecidableEq, Repr

def octalDigit (c : Char) : Option ℕ := if '0' ≤ c ∧ c ≤ '7' then some (c.toNat - 48) else none

def hexDigit (c : Char) : Option ℕ :=
  if '0' ≤ c ∧ c ≤ '9' then some (c.toNat - 48)
  else if 'a' ≤ c ∧ c ≤ 'f' then some (c.toNat - 87)
  else if 'A' ≤ c ∧ c ≤ 'F' then some (c.toNat - 55)
  else none

/-- The simple escape sequences. -/
def simpleEscape (c : Char) : Option ℕ :=
  if c = singleMark ∨ c = doubleMark ∨ c = '?' ∨ c = backslash then some c.toNat
  else if c = 'a' then some 7
  else if c = 'b' then some 8
  else if c = 'f' then some 12
  else if c = 'n' then some 10
  else if c = 'r' then some 13
  else if c = 't' then some 9
  else if c = 'v' then some 11
  else none

/-- A character that belongs to no escape sequence. -/
def readPlain (close : Char) (values : List ℕ) (c : Char) : Reading :=
  if c = close then .closed values
  else if c = '\n' then .bad
  else if c = backslash then .escape values
  else .body (values ++ [c.toNat])

/-- A numeric escape sequence ends in front of `c`; its value has to fit a character. -/
def readBehind (close : Char) (values : List ℕ) (value : ℕ) (c : Char) : Reading :=
  if value ≤ 255 then readPlain close (values ++ [value]) c else .bad

/-- An octal escape sequence has up to three digits, a hexadecimal one as many as there are. -/
def readNext (close : Char) : Reading → Char → Reading
  | .body values, c => readPlain close values c
  | .escape values, c =>
    match simpleEscape c, octalDigit c with
    | some value, _ => .body (values ++ [value])
    | none, some digit => .octal values 1 digit
    | none, none => if c = 'x' then .hexStart values else .bad
  | .octal values digits value, c =>
    match octalDigit c with
    | some digit =>
      if digits < 3 then .octal values (digits + 1) (value * 8 + digit)
      else readBehind close values value c
    | none => readBehind close values value c
  | .hexStart values, c =>
    match hexDigit c with
    | some digit => .hex values digit
    | none => .bad
  | .hex values value, c =>
    match hexDigit c with
    | some digit => .hex values (value * 16 + digit)
    | none => readBehind close values value c
  | .closed _, _ => .bad
  | .bad, _ => .bad

/-- The values of the characters of a constant between two marks. -/
def unquote (mark : Char) : List Char → Option (List ℕ)
  | [] => none
  | c :: text =>
    match text.foldl (readNext mark) (.body []) with
    | .closed values => if c = mark then some values else none
    | _ => none

/-- A character constant has at least one character. -/
def IsCharacterConstant (text : List Char) : Prop :=
  ∃ value values, unquote singleMark text = some (value :: values)

theorem foldl_bad (close : Char) (text : List Char) : text.foldl (readNext close) .bad = .bad := by
  induction text with
  | nil => rfl
  | cons c text ih => exact ih

/-- The values so far, where an escape sequence may still go on. -/
def Reading.Stands (reading : Reading) (values : List ℕ) : (pending : Bool) → Prop
  | false => reading = .body values
  | true => ∃ front value, values = front ++ [value] ∧ value ≤ 255 ∧ reading = .hex front value

theorem Reading.Stands.next {reading : Reading} {values : List ℕ} {pending : Bool} {c : Char}
    (h : reading.Stands values pending) (hc : pending = true → hexDigit c = none) (close : Char) :
    readNext close reading c = readPlain close values c := by
  cases pending with
  | false =>
    obtain rfl := h
    rfl
  | true =>
    obtain ⟨front, value, rfl, hvalue, rfl⟩ := h
    rw [readNext, hc rfl]
    dsimp only
    rw [readBehind, if_pos hvalue]

/-- At most so many values. -/
def Reading.Upto (reading : Reading) (count : ℕ) : Prop :=
  reading = .bad ∨ (∃ values, reading = .body values ∧ values.length ≤ count) ∨
    ∃ values value, reading = .hex values value ∧ values.length + 1 ≤ count

theorem Reading.Upto.mono {reading : Reading} {count more : ℕ} (h : reading.Upto count)
    (hle : count ≤ more) : reading.Upto more := by
  rcases h with hbad | ⟨values, hbody, hcount⟩ | ⟨values, value, hhex, hcount⟩
  · exact .inl hbad
  · exact .inr (.inl ⟨values, hbody, hcount.trans hle⟩)
  · exact .inr (.inr ⟨values, value, hhex, hcount.trans hle⟩)

/-- The next character ends what was read, or is one more digit. -/
theorem Reading.Upto.next {reading : Reading} {count : ℕ} (h : reading.Upto count) (close c : Char) :
    readNext close reading c = .bad ∨
      (∃ values, values.length ≤ count ∧ readNext close reading c = readPlain close values c) ∨
      (hexDigit c).isSome ∧ ∃ values value, values.length + 1 ≤ count ∧
        readNext close reading c = .hex values value := by
  rcases h with rfl | ⟨values, rfl, hcount⟩ | ⟨values, value, rfl, hcount⟩
  · exact .inl rfl
  · exact .inr (.inl ⟨values, hcount, rfl⟩)
  · cases hdigit : hexDigit c with
    | some digit =>
      exact .inr (.inr ⟨rfl, values, value * 16 + digit, hcount, by rw [readNext, hdigit]⟩)
    | none =>
      by_cases hvalue : value ≤ 255
      · refine .inr (.inl ⟨values ++ [value], by simpa using hcount, ?_⟩)
        rw [readNext, hdigit]
        dsimp only
        rw [readBehind, if_pos hvalue]
      · refine .inl ?_
        rw [readNext, hdigit]
        dsimp only
        rw [readBehind, if_neg hvalue]

/-- A constant of one character, which must not be a mark, a backslash or a newline. -/
theorem isCharacterConstant_iff (c : Char) : IsCharacterConstant [singleMark, c, singleMark] ↔
    c ≠ singleMark ∧ c ≠ backslash ∧ c ≠ '\n' := by
  have hempty : ∀ {text : List Char}, unquote singleMark text = none → ¬IsCharacterConstant text := by
    rintro text hnone ⟨value, values, hvalue⟩
    rw [hnone] at hvalue
    cases hvalue
  constructor
  · intro hvalid
    refine ⟨?_, ?_, ?_⟩
    · rintro rfl
      exact hempty (by decide) hvalid
    · rintro rfl
      exact hempty (by decide) hvalid
    · rintro rfl
      exact hempty (by decide) hvalid
  · rintro ⟨hmark, hback, hnewline⟩
    have hread : readPlain singleMark [] c = .body [c.toNat] := by
      rw [readPlain, if_neg hmark, if_neg hnewline, if_neg hback, List.nil_append]
    refine ⟨c.toNat, [], ?_⟩
    rw [unquote, List.foldl_cons, readNext, hread]
    rfl

end Cecore.Library.CLexer
