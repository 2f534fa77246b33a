import Cecore.Core.Digits
import Cecore.Library.Markup
import Cecore.Table.Types

/-!
# XML text

The helpers of `core/ct_file.cpp` that the XML form of a table is written and read with: escaping,
the names of value types, hotkeys as virtual-key codes, and the search for tags.
-/

set_option autoImplicit false
set_option relaxedAutoImplicit false

namespace Cecore.Table

open Library.Markup

/-! ### Escaping -/

def xmlEscapeChar (c : Char) : Text :=
  if c = '&' then "&amp;".toList
  else if c = '<' then "&lt;".toList
  else if c = '>' then "&gt;".toList
  else if c = doubleQuote then "&quot;".toList
  else [c]

/-- `xmlEscape`. -/
def xmlEscape (s : Text) : Text := s.flatMap xmlEscapeChar

/-- `xmlUnescape`. -/
def xmlUnescape : Text → Text
  | [] => []
  | '&' :: 'l' :: 't' :: ';' :: rest => '<' :: xmlUnescape rest
  | '&' :: 'g' :: 't' :: ';' :: rest => '>' :: xmlUnescape rest
  | '&' :: 'a' :: 'm' :: 'p' :: ';' :: rest => '&' :: xmlUnescape rest
  | '&' :: 'q' :: 'u' :: 'o' :: 't' :: ';' :: rest => doubleQuote :: xmlUnescape rest
  | '&' :: 'a' :: 'p' :: 'o' :: 's' :: ';' :: rest => singleQuote :: xmlUnescape rest
  | c :: rest => c :: xmlUnescape rest

/-! ### Value types -/

/-- `typeToStr`. -/
def typeToStr : ValueType → Text
  | .byte => "Byte".toList
  | .int16 => "2 Bytes".toList
  | .int32 => "4 Bytes".toList
  | .int64 => "8 Bytes".toList
  | .float => "Float".toList
  | .double => "Double".toList
  | .string => "String".toList
  | .unicodeString => "String".toList
  | .byteArray => "Array of byte".toList
  | .binary => "Binary".toList
  | .pointer => "Pointer".toList
  | .custom => "Custom".toList
  | _ => "4 Bytes".toList

/-- `std::isalnum` in the C locale. -/
def isAlnum (c : Char) : Bool :=
  isDigit c || (decide ('a' ≤ c) && decide (c ≤ 'z')) || (decide ('A' ≤ c) && decide (c ≤ 'Z'))

/-- `normalizedTypeName`. -/
def normalizedTypeName (s : Text) : Text := (s.filter isAlnum).map toLowerChar

/-- `std::atoi`, where the number fits. -/
def atoi (s : Text) : ℤ :=
  match readInteger 10 s with
  | some (negative, value, _) => if negative then -value else value
  | none => 0

/-- The type of a number that stands for one. -/
def typeOfCode : ℤ → ValueType
  | 0 => .byte
  | 1 => .int16
  | 2 => .int32
  | 3 => .int64
  | 4 => .float
  | 5 => .double
  | 6 => .string
  | 8 => .byteArray
  | 9 => .binary
  | 10 => .all
  | 12 => .custom
  | 13 => .pointer
  | _ => .int32

/-- `strToType`. -/
def strToType (s : Text) : ValueType :=
  if !s.isEmpty && s.all isDigit then typeOfCode (atoi s)
  else
    let type := normalizedTypeName s
    let named (names : List String) : Bool := names.any fun name ↦ decide (type = name.toList)
    if named ["byte", "1byte"] then .byte
    else if named ["2bytes", "short"] then .int16
    else if named ["4bytes", "integer", "int"] then .int32
    else if named ["8bytes", "long", "int64"] then .int64
    else if named ["float", "single"] then .float
    else if named ["double"] then .double
    else if named ["string", "text"] then .string
    else if named ["arrayofbyte", "bytearray", "aob"] then .byteArray
    else if named ["binary", "bits"] then .binary
    else if named ["pointer"] then .pointer
    else if named ["custom", "customtype"] then .custom
    else .int32

/-! ### Hotkeys -/

/-- The names of virtual keys that are neither digits, letters nor function keys. -/
def namedKeys : List (ℤ × String) :=
  [(16, "Shift"), (17, "Ctrl"), (18, "Alt"), (91, "Meta"), (92, "Meta"), (8, "Backspace"),
    (9, "Tab"), (13, "Return"), (27, "Esc"), (32, "Space"), (33, "PgUp"), (34, "PgDown"),
    (35, "End"), (36, "Home"), (37, "Left"), (38, "Up"), (39, "Right"), (40, "Down"), (45, "Ins"),
    (46, "Del")]

/-- `vkToKeyToken`. -/
def vkToKeyToken (vk : ℤ) : Text :=
  match namedKeys.find? fun key ↦ decide (key.1 = vk) with
  | some key => key.2.toList
  | none =>
    if 48 ≤ vk ∧ vk ≤ 57 then [Char.ofNat vk.toNat]
    else if 65 ≤ vk ∧ vk ≤ 90 then [Char.ofNat vk.toNat]
    else if 96 ≤ vk ∧ vk ≤ 105 then [Char.ofNat (vk.toNat - 48)]
    else if 112 ≤ vk ∧ vk ≤ 123 then 'F' :: decimal (vk.toNat - 111)
    else []

/-- The modifiers and the key that `vksToKeyString` collects. -/
structure KeyChord where
  hasCtrl : Bool := false
  hasAlt : Bool := false
  hasShift : Bool := false
  hasMeta : Bool := false
  key : Text := []
  deriving DecidableEq, Repr

/-- The step of the loop of `vksToKeyString`. -/
def KeyChord.add (chord : KeyChord) (vk : ℤ) : KeyChord :=
  let tok := vkToKeyToken vk
  if tok = "Ctrl".toList then { chord with hasCtrl := true }
  else if tok = "Alt".toList then { chord with hasAlt := true }
  else if tok = "Shift".toList then { chord with hasShift := true }
  else if tok = "Meta".toList then { chord with hasMeta := true }
  else if tok ≠ [] ∧ chord.key = [] then { chord with key := tok }
  else chord

/-- The text of a chord; a `+` at its end is taken off. -/
def KeyChord.text (chord : KeyChord) : Text :=
  let out := (if chord.hasCtrl then "Ctrl+".toList else []) ++
    (if chord.hasAlt then "Alt+".toList else []) ++ (if chord.hasShift then "Shift+".toList else []) ++
    (if chord.hasMeta then "Meta+".toList else []) ++ chord.key
  if out.getLast? = some '+' then out.dropLast else out

/-- `vksToKeyString`. -/
def vksToKeyString (vks : List ℤ) : Text := (vks.foldl KeyChord.add {}).text

/-- The key tokens with a code of their own. -/
def tokenCodes : List (String × ℤ) :=
  [("Ctrl", 17), ("Alt", 18), ("Shift", 16), ("Meta", 91), ("Backspace", 8), ("Tab", 9),
    ("Return", 13), ("Enter", 13), ("Esc", 27), ("Space", 32), ("PgUp", 33), ("PgDown", 34),
    ("End", 35), ("Home", 36), ("Left", 37), ("Up", 38), ("Right", 39), ("Down", 40), ("Ins", 45),
    ("Del", 46)]

/-- `keyTokenToVK`, zero for an unknown token. -/
def keyTokenToVK (t : Text) : ℤ :=
  match tokenCodes.find? fun code ↦ decide (code.1.toList = t) with
  | some code => code.2
  | none =>
    match t with
    | [c] =>
      if '0' ≤ c ∧ c ≤ '9' then c.toNat
      else if 'A' ≤ c ∧ c ≤ 'Z' then c.toNat
      else 0
    | 'F' :: number =>
      match stoi 10 number with
      | some n => if 1 ≤ n ∧ n ≤ 12 then 111 + n else 0
      | none => 0
    | _ => 0

/-- Blanks taken off both ends. -/
def trimBlanks (s : Text) : Text :=
  let isBlank (c : Char) : Bool := decide (c = ' ')
  (((s.dropWhile isBlank).reverse).dropWhile isBlank).reverse

/-- `keyStringToVKs`. -/
def keyStringToVKs (s : Text) : List ℤ :=
  (s.splitOn '+').filterMap fun tok ↦
    let vk := keyTokenToVK (trimBlanks tok)
    if vk = 0 then none else some vk

/-! ### Tags -/

def openTag (tag : String) : Text := '<' :: (tag.toList ++ ['>'])

def closeTag (tag : String) : Text := '<' :: '/' :: (tag.toList ++ ['>'])

/-- `getTag`: what is between the first opening tag and the next closing tag, or an empty text. -/
def getTag (xml : Text) (tag : String) : Text :=
  match cut (openTag tag) xml with
  | none => []
  | some (_, rest) =>
    match cut (closeTag tag) rest with
    | none => []
    | some (inner, _) => inner

/-- The loop of `getTagBlocks`; every turn moves forward in the text. -/
def tagBlocks (tag : String) : (turns : ℕ) → Text → List Text
  | 0, _ => []
  | turns + 1, xml =>
    match cut (openTag tag) xml with
    | none => []
    | some (_, rest) =>
      match cut (closeTag tag) rest with
      | none => []
      | some (inner, rest) => (openTag tag ++ inner ++ closeTag tag) :: tagBlocks tag turns rest

/-- `getTagBlocks`. -/
def getTagBlocks (xml : Text) (tag : String) : List Text := tagBlocks tag xml.length xml

/-- The loop of `findMatchingClose`, `depth` more elements of the name being open; every turn moves
forward in the text. -/
def matchingClose (tag : String) : (turns depth : ℕ) → Text → Option (Text × Text)
  | 0, _, _ => none
  | turns + 1, depth, xml =>
    match cut (closeTag tag) xml with
    | none => none
    | some (beforeClose, afterClose) =>
      let closes :=
        if depth = 0 then some (beforeClose, afterClose)
        else (matchingClose tag turns (depth - 1) afterClose).map
          (under (beforeClose ++ closeTag tag))
      match cut (openTag tag) xml with
      | none => closes
      | some (beforeOpen, afterOpen) =>
        if beforeOpen.length < beforeClose.length then
          (matchingClose tag turns (depth + 1) afterOpen).map (under (beforeOpen ++ openTag tag))
        else closes

/-- `findMatchingClose` from behind an opening tag: what is in front of the closing tag that belongs
to it, and what is behind. -/
def findMatchingClose (tag : String) (xml : Text) : Option (Text × Text) :=
  matchingClose tag (xml.length + 1) 0 xml

end Cecore.Table
