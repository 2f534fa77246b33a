import Cecore.Core.ValueCodec
import Cecore.Scanner.FastScan
import Cecore.Scanner.Pattern

/-!
# Grouped scans

`ScanConfig::parseGrouped` reads the terms `type:value@offset` of a grouped scan. What it accepts is
well formed: each term has a size and ends below 2^64, so that the block of `groupedValueSize` bytes
contains every term, the matcher's subtraction does not wrap and its comparisons stay in the block
(`parseGrouped_safe`). A block matches when each term is satisfied at its own offset.
-/

set_option autoImplicit false
set_option relaxedAutoImplicit false

namespace Cecore.Scanner

open Library.LittleEndian Library.Stride

/-! ### Parsing -/

/-- `std::from_chars` for `double`: the bits of the value, and the text behind it. -/
abbrev DoubleChars := Text → Option (ℕ × Text)

def unquoteCopy (value : Text) : Text :=
  let trimmed := trimCopy value
  if 2 ≤ trimmed.length ∧
      ((trimmed.head? = some doubleQuote ∧ trimmed.getLast? = some doubleQuote) ∨
        (trimmed.head? = some singleQuote ∧ trimmed.getLast? = some singleQuote)) then
    (trimmed.drop 1).take (trimmed.length - 2)
  else trimmed

def parseInt64Token (text : Text) : Option ℤ :=
  let token := trimCopy text
  if token = [] then none
  else match readInteger 0 (ValueCodec.cString token) with
    | some (negative, value, []) =>
      let parsed : ℤ := if negative then -value else value
      if -(2 ^ 63) ≤ parsed ∧ parsed < 2 ^ 63 then some parsed else none
    | _ => none

def parseDoubleToken (fromChars : DoubleChars) (text : Text) : Option ℕ :=
  let token := (trimCopy text).map fun c ↦ if c = ',' then '.' else c
  if token = [] then none
  else match fromChars (if token.head? = some '+' then token.drop 1 else token) with
    | some (parsed, []) => some parsed
    | _ => none

def parseSizeToken (text : Text) : Option ℕ :=
  let token := trimCopy text
  if token = [] then none
  else match stoull 0 (ValueCodec.cString token) with
    | some (parsed, []) => some parsed
    | _ => none

/-- The fields that `parseBinary` fills, and the byte it is in. -/
structure BinaryPattern where
  byteArray : List UInt8 := []
  byteMask : List UInt8 := []
  currentByte : UInt8 := 0
  currentMask : UInt8 := 0
  bitCount : ℕ := 0
  deriving DecidableEq, Repr

/-- A character of a binary pattern; any other than the four marks is skipped. -/
def BinaryPattern.addBit (p : BinaryPattern) (c : Char) : BinaryPattern :=
  if c = '0' ∨ c = '1' ∨ c = '?' ∨ c = '*' then
    let currentByte := if c = '1' then p.currentByte <<< 1 ||| 1 else p.currentByte <<< 1
    let currentMask := if c = '1' ∨ c = '0' then p.currentMask <<< 1 ||| 1 else p.currentMask <<< 1
    if p.bitCount + 1 = 8 then
      ⟨p.byteArray ++ [currentByte], p.byteMask ++ [currentMask], 0, 0, 0⟩
    else ⟨p.byteArray, p.byteMask, currentByte, currentMask, p.bitCount + 1⟩
  else p

/-- `parseBinary`: the bytes and their masks, a partial last byte filled up from the right. -/
def parseBinary (pattern : Text) : BinaryPattern :=
  let p := pattern.foldl BinaryPattern.addBit {}
  if 0 < p.bitCount then
    let shift := UInt8.ofNat (8 - p.bitCount)
    { p with
      byteArray := p.byteArray ++ [p.currentByte <<< shift]
      byteMask := p.byteMask ++ [p.currentMask <<< shift] }
  else p

/-- The text in front of the first `c` and the text behind it. -/
def splitFirst (c : Char) (text : Text) : Option (Text × Text) :=
  match text.dropWhile (· ≠ c) with
  | [] => none
  | _ :: rest => some (text.takeWhile (· ≠ c), rest)

/-- The text in front of the last `c` and the text behind it. -/
def splitLast (c : Char) (text : Text) : Option (Text × Text) :=
  (splitFirst c text.reverse).map fun (behind, front) ↦ (front.reverse, behind.reverse)

/-- The value types of the type tokens. -/
def groupedType (typeToken : Text) : Option ValueType :=
  let named (names : List String) := (names.map String.toList).contains typeToken
  if named ["byte", "i8", "int8", "1"] then some .byte
  else if named ["i16", "int16", "short", "word", "2"] then some .int16
  else if named ["i32", "int32", "dword", "int", "4"] then some .int32
  else if named ["i64", "int64", "long", "qword", "8"] then some .int64
  else if named ["pointer", "ptr"] then some .pointer
  else if named ["float", "single"] then some .float
  else if named ["double"] then some .double
  else if named ["string", "str"] then some .string
  else if named ["unicode", "utf16", "wstring"] then some .unicodeString
  else if named ["aob", "bytearray"] then some .byteArray
  else if named ["binary", "bin"] then some .binary
  else none

/-- The term of a type with the value of the token, or what is wrong with the value. -/
def groupedValue (fromChars : DoubleChars) (offset : ℕ) (valueType : ValueType) (valueToken : Text) :
    Except Text GroupedTerm :=
  let term : GroupedTerm := { valueType, offset }
  let integer (kind : String) : Except Text GroupedTerm :=
    match parseInt64Token valueToken with
    | some intValue => .ok { term with intValue }
    | none => .error ("invalid ".toList ++ kind.toList ++ " value in grouped term ".toList)
  let real (kind : String) : Except Text GroupedTerm :=
    match parseDoubleToken fromChars valueToken with
    | some floatValue => .ok { term with floatValue }
    | none => .error ("invalid ".toList ++ kind.toList ++ " value in grouped term ".toList)
  let string (kind : String) : Except Text GroupedTerm :=
    let stringValue := (unquoteCopy valueToken).map byteOf
    if stringValue = [] then
      .error ("empty ".toList ++ kind.toList ++ " in grouped term ".toList)
    else .ok { term with stringValue }
  match valueType with
  | .byte => integer "byte"
  | .int16 => integer "i16"
  | .int32 => integer "i32"
  | .int64 => integer "i64"
  | .pointer => integer "pointer"
  | .float => real "float"
  | .double => real "double"
  | .string => string "string"
  | .unicodeString => string "unicode string"
  | .byteArray =>
    let temp := parseAOB valueToken
    if temp.byteArray = [] then .error "empty AOB pattern in grouped term ".toList
    else .ok { term with byteArray := temp.byteArray, byteArrayMask := temp.byteArrayMask }
  | .binary =>
    let temp := parseBinary valueToken
    if temp.byteArray = [] then .error "empty binary pattern in grouped term ".toList
    else .ok { term with
      byteArray := temp.byteArray
      byteMask := temp.byteMask
      byteArrayMask := temp.byteMask }
  | .all | .grouped | .custom => .ok term

/-- A term of the expression, or the message without the term's number. -/
def parseGroupedTerm (fromChars : DoubleChars) (termText : Text) : Except Text GroupedTerm :=
  match splitLast '@' termText with
  | none => .error "missing @offset in grouped term ".toList
  | some (front, offsetToken) =>
    let lhs := trimCopy front
    match parseSizeToken (trimCopy offsetToken) with
    | none => .error "invalid offset in grouped term ".toList
    | some offset =>
      match splitFirst ':' lhs with
      | none => .error "missing type:value in grouped term ".toList
      | some (typeText, valueText) =>
        let typeToken := lowerCopy (trimCopy typeText)
        let valueToken := trimCopy valueText
        if valueToken = [] then .error "missing value in grouped term ".toList
        else match groupedType typeToken with
          | none =>
            .error ("unknown grouped value type '".toList ++ typeToken ++ "' in term ".toList)
          | some valueType =>
            match groupedValue fromChars offset valueType valueToken with
            | .error message => .error message
            | .ok term =>
              let termSize := groupedTermValueSize term
              if termSize = 0 then .error "unsupported grouped value type in term ".toList
              else if term.offset > sizeModulus - 1 - termSize then
                .error "offset overflow in grouped term ".toList
              else .ok term

/-- The terms behind the first `termIndex` ones; an empty piece counts for none. -/
def parseGroupedTerms (fromChars : DoubleChars) :
    (termIndex : ℕ) → List Text → Except Text (List GroupedTerm)
  | _, [] => .ok []
  | termIndex, rawTerm :: rest =>
    let termText := trimCopy rawTerm
    if termText = [] then parseGroupedTerms fromChars termIndex rest
    else match parseGroupedTerm fromChars termText with
      | .error message => .error (message ++ decimal (termIndex + 1))
      | .ok term =>
        match parseGroupedTerms fromChars (termIndex + 1) rest with
        | .error message => .error message
        | .ok terms => .ok (term :: terms)

/-- `ScanConfig::parseGrouped`: the terms, or the error with which it fails. -/
def parseGrouped (fromChars : DoubleChars) (expression : Text) : Except Text (List GroupedTerm) :=
  let expr := trimCopy expression
  if expr = [] then .error "grouped expression is empty".toList
  else match parseGroupedTerms fromChars 0 (getlines ';' expr) with
    | .error message => .error message
    | .ok [] => .error "grouped expression produced no terms".toList
    | .ok terms => .ok terms

/-! ### What is accepted -/

/-- A term with the fields of its type, no longer than the text it comes from. -/
structure GroupedTerm.Filled (bound : ℕ) (term : GroupedTerm) : Prop where
  stringLength : term.stringValue.length ≤ bound
  arrayLength : term.byteArray.length ≤ bound
  text : term.valueType = .string ∨ term.valueType = .unicodeString → term.stringValue ≠ []
  pattern : term.valueType = .byteArray ∨ term.valueType = .binary → term.byteArray ≠ []
  arrayMask : term.valueType = .byteArray → term.byteArrayMask.length = term.byteArray.length
  binaryMask : term.valueType = .binary → term.byteMask.length = term.byteArray.length

/-- A term that has a size and ends below 2^64. -/
structure GroupedTerm.WellFormed (bound : ℕ) (term : GroupedTerm) : Prop
    extends term.Filled bound where
  size_pos : 0 < groupedTermValueSize term
  fits : term.offset ≤ sizeModulus - 1 - groupedTermValueSize term

theorem length_trimCopy_le (text : Text) : (trimCopy text).length ≤ text.length := by
  unfold trimCopy
  rw [List.length_reverse]
  calc _ ≤ (text.dropWhile isSpace).reverse.length := (List.dropWhile_sublist _).length_le
    _ = (text.dropWhile isSpace).length := List.length_reverse
    _ ≤ text.length := (List.dropWhile_sublist _).length_le

theorem length_unquoteCopy_le (text : Text) : (unquoteCopy text).length ≤ text.length := by
  have hle := length_trimCopy_le text
  unfold unquoteCopy
  dsimp only
  split_ifs
  · rw [List.length_take, List.length_drop]
    omega
  · exact hle

theorem length_of_splitFirst {c : Char} {text front behind : Text}
    (h : splitFirst c text = some (front, behind)) :
    front.length ≤ text.length ∧ behind.length ≤ text.length := by
  unfold splitFirst at h
  split at h
  · exact absurd h (by simp)
  · next rest hdrop =>
    obtain ⟨rfl, rfl⟩ := Prod.mk.inj (Option.some.inj h)
    have hlength := (List.dropWhile_sublist (· ≠ c) (l := text)).length_le
    rw [hdrop, List.length_cons] at hlength
    exact ⟨(List.takeWhile_sublist _).length_le, by omega⟩

theorem length_of_splitLast {c : Char} {text front behind : Text}
    (h : splitLast c text = some (front, behind)) : front.length ≤ text.length := by
  obtain ⟨⟨later, earlier⟩, hsplit, heq⟩ := Option.map_eq_some_iff.mp h
  obtain ⟨rfl, -⟩ := Prod.mk.inj heq
  have := (length_of_splitFirst hsplit).2
  rwa [List.length_reverse] at this ⊢

theorem length_getlinesFrom_le (separator : Char) (current text : Text) :
    ∀ piece ∈ getlinesFrom separator current text, piece.length ≤ current.length + text.length := by
  induction text generalizing current with
  | nil =>
    intro piece hpiece
    rw [getlinesFrom] at hpiece
    split_ifs at hpiece
    · exact absurd hpiece List.not_mem_nil
    · rw [List.mem_singleton.mp hpiece, List.length_reverse]
      exact Nat.le_add_right _ _
  | cons c rest ih =>
    intro piece hpiece
    rw [getlinesFrom] at hpiece
    split_ifs at hpiece
    · rcases List.mem_cons.mp hpiece with rfl | hlater
      · rw [List.length_reverse]
        exact Nat.le_add_right _ _
      · have := ih [] piece hlater
        simp only [List.length_nil, List.length_cons] at this ⊢
        omega
    · have := ih (c :: current) piece hpiece
      simp only [List.length_cons] at this ⊢
      omega

theorem length_tokensFrom_le (current text : Text) :
    (tokensFrom current text).length ≤ (if current = [] then 0 else 1) + text.length := by
  induction text generalizing current with
  | nil =>
    rw [tokensFrom]
    split_ifs <;> simp
  | cons c rest ih =>
    rw [tokensFrom]
    split_ifs with hspace hnone
    · have := ih []
      rw [if_pos rfl] at this
      rw [List.length_cons]
      omega
    · have := ih []
      rw [if_pos rfl] at this
      rw [List.length_cons, List.length_cons]
      omega
    all_goals
      have := ih (c :: current)
      rw [if_neg (List.cons_ne_nil c current)] at this
      rw [List.length_cons]
      omega

/-- A pattern has a byte for each of its tokens. -/
theorem length_parseAOB (pattern : Text) :
    (parseAOB pattern).byteArray.length = (tokens pattern).length := by
  have hstep : ∀ (p : AobPattern) (token : Text),
      (p.addToken token).byteArray.length = p.byteArray.length + 1 := by
    intro p token
    unfold AobPattern.addToken
    split_ifs
    · simp
    · split <;> simp
  have hall : ∀ (words : List Text) (p : AobPattern),
      (words.foldl AobPattern.addToken p).byteArray.length = p.byteArray.length + words.length := by
    intro words
    induction words with
    | nil => exact fun _ ↦ rfl
    | cons token rest ih =>
      intro p
      rw [List.foldl_cons, ih, hstep, List.length_cons]
      omega
  have := hall (tokens pattern) {}
  rwa [List.length_nil, Nat.zero_add] at this

/-- A binary pattern has as many masks as bytes, and no more than characters. -/
theorem length_parseBinary (pattern : Text) :
    (parseBinary pattern).byteMask.length = (parseBinary pattern).byteArray.length ∧
      (parseBinary pattern).byteArray.length ≤ pattern.length := by
  have hstep : ∀ (p : BinaryPattern) (c : Char), p.byteMask.length = p.byteArray.length →
      (p.addBit c).byteMask.length = (p.addBit c).byteArray.length ∧
        (p.addBit c).byteArray.length + (if 0 < (p.addBit c).bitCount then 1 else 0) ≤
          p.byteArray.length + (if 0 < p.bitCount then 1 else 0) + 1 := by
    intro p c hp
    unfold BinaryPattern.addBit
    dsimp only
    split_ifs <;> simp_all
  have hall : ∀ (text : Text) (p : BinaryPattern), p.byteMask.length = p.byteArray.length →
      (text.foldl BinaryPattern.addBit p).byteMask.length =
          (text.foldl BinaryPattern.addBit p).byteArray.length ∧
        (text.foldl BinaryPattern.addBit p).byteArray.length +
            (if 0 < (text.foldl BinaryPattern.addBit p).bitCount then 1 else 0) ≤
          p.byteArray.length + (if 0 < p.bitCount then 1 else 0) + text.length := by
    intro text
    induction text with
    | nil => exact fun p hp ↦ ⟨hp, Nat.le_add_right _ _⟩
    | cons c rest ih =>
      intro p hp
      obtain ⟨hmask, hlength⟩ := hstep p c hp
      obtain ⟨hmaskAll, hlengthAll⟩ := ih (p.addBit c) hmask
      refine ⟨hmaskAll, ?_⟩
      rw [List.foldl_cons, List.length_cons]
      omega
  obtain ⟨hmask, hlength⟩ := hall pattern {} rfl
  rw [List.length_nil, if_neg (Nat.lt_irrefl 0)] at hlength
  unfold parseBinary
  dsimp only
  split_ifs with hpartial
  · rw [if_pos hpartial] at hlength
    dsimp only
    rw [List.length_append, List.length_append, hmask]
    exact ⟨rfl, by rw [List.length_singleton]; omega⟩
  · rw [if_neg hpartial] at hlength
    exact ⟨hmask, by omega⟩

theorem groupedValue_filled {fromChars : DoubleChars} {offset : ℕ} {valueType : ValueType}
    {valueToken : Text} {term : GroupedTerm}
    (h : groupedValue fromChars offset valueType valueToken = .ok term) :
    term.Filled valueToken.length := by
  have hnumber : ∀ {number : GroupedTerm}, number.stringValue = [] → number.byteArray = [] →
      (number.valueType ≠ .string ∧ number.valueType ≠ .unicodeString) →
      (number.valueType ≠ .byteArray ∧ number.valueType ≠ .binary) →
      number.Filled valueToken.length := by
    intro number hstring harray htext hpattern
    refine ⟨by rw [hstring]; exact Nat.zero_le _, by rw [harray]; exact Nat.zero_le _, ?_, ?_, ?_, ?_⟩
    · exact fun htype ↦ htype.elim (absurd · htext.1) (absurd · htext.2)
    · exact fun htype ↦ htype.elim (absurd · hpattern.1) (absurd · hpattern.2)
    · exact fun htype ↦ absurd htype hpattern.1
    · exact fun htype ↦ absurd htype hpattern.2
  have hunquoted : ((unquoteCopy valueToken).map byteOf).length ≤ valueToken.length := by
    rw [List.length_map]
    exact length_unquoteCopy_le valueToken
  have htokens : (tokens valueToken).length ≤ valueToken.length := by
    have := length_tokensFrom_le [] valueToken
    rwa [if_pos rfl, Nat.zero_add] at this
  unfold groupedValue at h
  cases valueType
  case string | unicodeString =>
    dsimp only at h
    split_ifs at h with hempty
    rw [← Except.ok.inj h]
    exact ⟨hunquoted, Nat.zero_le _, fun _ ↦ hempty, by simp, by simp, by simp⟩
  case byteArray =>
    dsimp only at h
    split_ifs at h with hempty
    rw [← Except.ok.inj h]
    refine ⟨Nat.zero_le _, ?_, by simp, fun _ ↦ hempty, fun _ ↦ ?_, by simp⟩
    · rw [length_parseAOB]
      exact htokens
    · exact length_byteArrayMask_parseAOB valueToken
  case binary =>
    obtain ⟨hmask, hlength⟩ := length_parseBinary valueToken
    dsimp only at h
    split_ifs at h with hempty
    rw [← Except.ok.inj h]
    exact ⟨Nat.zero_le _, hlength, by simp, fun _ ↦ hempty, by simp, fun _ ↦ hmask⟩
  case all | grouped | custom =>
    rw [← Except.ok.inj h]
    exact hnumber rfl rfl (by simp) (by simp)
  all_goals
    dsimp only at h
    split at h
    · rw [← Except.ok.inj h]
      exact hnumber rfl rfl (by simp) (by simp)
    · exact absurd h (by simp)

theorem GroupedTerm.Filled.mono {term : GroupedTerm} {bound larger : ℕ} (h : term.Filled bound)
    (hle : bound ≤ larger) : term.Filled larger :=
  { h with stringLength := h.stringLength.trans hle, arrayLength := h.arrayLength.trans hle }

theorem GroupedTerm.Filled.size_le {term : GroupedTerm} {bound : ℕ} (h : term.Filled bound) :
    groupedTermValueSize term ≤ max 8 (2 * bound) := by
  have hstring := h.stringLength
  have harray := h.arrayLength
  unfold groupedTermValueSize
  cases term.valueType <;> dsimp only <;> omega

theorem parseGroupedTerm_wellFormed {fromChars : DoubleChars} {termText : Text} {term : GroupedTerm}
    (h : parseGroupedTerm fromChars termText = .ok term) : term.WellFormed termText.length := by
  unfold parseGroupedTerm at h
  split at h
  · exact absurd h (by simp)
  next front offsetToken hlast =>
  dsimp only at h
  split at h
  · exact absurd h (by simp)
  split at h
  · exact absurd h (by simp)
  next typeText valueText hfirst =>
  split_ifs at h
  split at h
  · exact absurd h (by simp)
  split at h
  · exact absurd h (by simp)
  next value hvalue =>
  split_ifs at h with hsize hfits
  obtain rfl := Except.ok.inj h
  have hlength : (trimCopy valueText).length ≤ termText.length :=
    (length_trimCopy_le valueText).trans ((length_of_splitFirst hfirst).2.trans
      ((length_trimCopy_le front).trans (length_of_splitLast hlast)))
  exact ⟨(groupedValue_filled hvalue).mono hlength, Nat.pos_of_ne_zero hsize, Nat.le_of_not_lt hfits⟩

theorem parseGroupedTerms_wellFormed {fromChars : DoubleChars} {termIndex bound : ℕ}
    {pieces : List Text} (hpieces : ∀ piece ∈ pieces, piece.length ≤ bound)
    {terms : List GroupedTerm} (h : parseGroupedTerms fromChars termIndex pieces = .ok terms) :
    ∀ term ∈ terms, term.WellFormed bound := by
  induction pieces generalizing termIndex terms with
  | nil =>
    rw [← Except.ok.inj h]
    exact fun _ hmem ↦ absurd hmem List.not_mem_nil
  | cons rawTerm rest ih =>
    have hrest : ∀ piece ∈ rest, piece.length ≤ bound :=
      fun piece hpiece ↦ hpieces piece (List.mem_cons_of_mem _ hpiece)
    rw [parseGroupedTerms] at h
    split_ifs at h
    · exact ih hrest h
    · split at h
      · exact absurd h (by simp)
      next first hfirst =>
      split at h
      · exact absurd h (by simp)
      next others hothers =>
      rw [← Except.ok.inj h]
      intro term hterm
      rcases List.mem_cons.mp hterm with rfl | hlater
      · have hwell := parseGroupedTerm_wellFormed hfirst
        have hle := (length_trimCopy_le rawTerm).trans (hpieces rawTerm List.mem_cons_self)
        exact ⟨hwell.toFilled.mono hle, hwell.size_pos, hwell.fits⟩
      · exact ih hrest hothers term hlater

/-- What `parseGrouped` accepts: some terms, all well formed. -/
theorem parseGrouped_wellFormed {fromChars : DoubleChars} {expression : Text}
    {terms : List GroupedTerm} (h : parseGrouped fromChars expression = .ok terms) :
    terms ≠ [] ∧ ∀ term ∈ terms, term.WellFormed expression.length := by
  unfold parseGrouped at h
  dsimp only at h
  split_ifs at h
  split at h
  · exact absurd h (by simp)
  · exact absurd h (by simp)
  next found hfound hparsed =>
  obtain rfl := Except.ok.inj h
  refine ⟨fun hnil ↦ hfound (hnil ▸ rfl), parseGroupedTerms_wellFormed ?_ hparsed⟩
  intro piece hpiece
  have := length_getlinesFrom_le ';' [] (trimCopy expression) piece hpiece
  rw [List.length_nil, Nat.zero_add] at this
  exact this.trans (length_trimCopy_le expression)

/-! ### The block -/

variable {unit : FloatUnit} {config : ScanConfig} {term : GroupedTerm} {bound : ℕ}

/-- A well-formed term of a text that a `std::string` can hold ends below 2^64. -/
theorem GroupedTerm.WellFormed.end_lt (h : term.WellFormed bound) (hbound : bound < 2 ^ 63) :
    term.offset + groupedTermValueSize term < sizeModulus := by
  have hsize := h.toFilled.size_le
  have hfits := h.fits
  unfold sizeModulus at hfits ⊢
  omega

/-- The block reaches as far as its longest term. -/
theorem foldl_groupedValueSizeStep {terms : List GroupedTerm}
    (hterms : ∀ term ∈ terms, term.WellFormed bound) {start : ℕ} (hbound : bound < 2 ^ 63)
    (hstart : start < sizeModulus) :
    ∃ size, terms.foldl groupedValueSizeStep (some start) = some size ∧ start ≤ size ∧
      size < sizeModulus ∧ ∀ term ∈ terms, term.offset + groupedTermValueSize term ≤ size := by
  induction terms generalizing start with
  | nil => exact ⟨start, rfl, le_rfl, hstart, fun _ hmem ↦ absurd hmem List.not_mem_nil⟩
  | cons first rest ih =>
    have hfirst := hterms first List.mem_cons_self
    have hend := hfirst.end_lt hbound
    have hpos := hfirst.size_pos
    have hfits := hfirst.fits
    have hstep : groupedValueSizeStep (some start) first =
        some (max start (first.offset + groupedTermValueSize first)) := by
      unfold groupedValueSizeStep
      dsimp only
      rw [if_neg (by omega), if_neg (by omega)]
    obtain ⟨size, hsize, hle, hlt, hall⟩ :=
      @ih (fun term hterm ↦ hterms term (List.mem_cons_of_mem _ hterm))
        (max start (first.offset + groupedTermValueSize first)) (by omega)
    refine ⟨size, by rw [List.foldl_cons, hstep, hsize], by omega, hlt, fun term hterm ↦ ?_⟩
    rcases List.mem_cons.mp hterm with rfl | hlater
    · omega
    · exact hall term hlater

theorem groupedValueSize_spec (hbound : bound < 2 ^ 63)
    (hterms : ∀ term ∈ config.groupedTerms, term.WellFormed bound) :
    config.groupedValueSize < sizeModulus ∧ ∀ term ∈ config.groupedTerms,
      term.offset + groupedTermValueSize term ≤ config.groupedValueSize := by
  obtain ⟨size, hsize, -, hlt, hall⟩ :=
    @foldl_groupedValueSizeStep bound config.groupedTerms hterms 0 hbound (by decide)
  rw [ScanConfig.groupedValueSize, hsize, Option.getD_some]
  exact ⟨hlt, hall⟩

/-- How many bytes from a term's offset on its comparison can look at. -/
def groupedTermReads (term : GroupedTerm) : ℕ :=
  match term.valueType with
  | .byte => 1
  | .int16 => 2
  | .int32 | .float => 4
  | .int64 | .pointer | .double => 8
  | .string => term.stringValue.length
  | .unicodeString => 2 * term.stringValue.length
  | .byteArray | .binary => term.byteArray.length
  | .all | .grouped | .custom => 0

theorem maskedMatch_take (value pattern mask : List UInt8) :
    maskedMatch (value.take pattern.length) pattern mask = maskedMatch value pattern mask := by
  induction pattern generalizing value mask with
  | nil =>
    rw [List.length_nil, List.take_zero, maskedMatch]
    cases value <;> rfl
  | cons bits pattern ih =>
    cases value with
    | nil => rw [List.take_nil]
    | cons byte value =>
      rw [List.length_cons, List.take_succ_cons]
      cases mask with
      | nil => rw [maskedMatch, maskedMatch, ih]
      | cons m mask => rw [maskedMatch, maskedMatch, ih]

/-- A comparison looks at no other bytes. -/
theorem groupedTermMatches_take (unit : FloatUnit) (config : ScanConfig) (value : List UInt8)
    (term : GroupedTerm) {n : ℕ} (hn : groupedTermReads term ≤ n) :
    groupedTermMatches unit config (value.take n) term =
      groupedTermMatches unit config value term := by
  have htake : ∀ m ≤ n, (value.take n).take m = value.take m := by
    intro m hm
    rw [List.take_take, Nat.min_eq_left hm]
  have hmasked : ∀ mask, term.byteArray.length ≤ n →
      maskedMatch (value.take n) term.byteArray mask = maskedMatch value term.byteArray mask := by
    intro mask hle
    rw [← maskedMatch_take (value.take n), ← maskedMatch_take value, htake _ hle]
  unfold groupedTermReads at hn
  unfold groupedTermMatches compareMaskedBytes
  cases htype : term.valueType <;> rw [htype] at hn <;> dsimp only at hn ⊢
  case byte => rw [htake IntType.uint8.width hn]
  case int16 => rw [htake IntType.int16.width hn]
  case int32 => rw [htake IntType.int32.width hn]
  case int64 => rw [htake IntType.int64.width hn]
  case pointer => rw [htake IntType.uintptr.width hn]
  case float | double | string | unicodeString => rw [htake _ hn]
  case byteArray | binary => rw [hmasked _ hn]

/-- The bytes of a block at a term's offset, as many as its type and value take, are what the term
asks for. -/
def GroupedTerm.Satisfied (unit : FloatUnit) (config : ScanConfig) (bytes : List UInt8)
    (term : GroupedTerm) : Prop :=
  match term.valueType with
  | .byte | .int16 | .int32 | .int64 | .pointer =>
    (leNat bytes : ℤ) = term.intValue % (256 ^ bytes.length : ℕ)
  | .float =>
    compareFloatingExact unit .single config (leNat bytes) (unit.narrow term.floatValue) = true
  | .double => compareFloatingExact unit .double config (leNat bytes) term.floatValue = true
  | .string => bytes = term.stringValue
  | .unicodeString => bytes = utf16LeBytes term.stringValue
  | .byteArray => ∀ j < term.byteArray.length, bytes.getD j 0 &&& term.byteArrayMask.getD j 0 =
      term.byteArray.getD j 0 &&& term.byteArrayMask.getD j 0
  | .binary => ∀ j < term.byteArray.length, bytes.getD j 0 &&& term.byteMask.getD j 0 =
      term.byteArray.getD j 0 &&& term.byteMask.getD j 0
  | .all | .grouped | .custom => False

/-- An integer in memory equals a converted value if it is that value modulo its width. -/
theorem decode_take_eq_cast_iff (type : IntType) {bytes : List UInt8} (value : ℤ)
    (hlength : bytes.length = type.width) :
    type.decode (bytes.take type.width) = type.cast value ↔
      (leNat bytes : ℤ) = value % (256 ^ bytes.length : ℕ) := by
  have hlt := leNat_lt bytes
  have hnonneg : 0 ≤ value % (256 ^ type.width : ℕ) :=
    Int.emod_nonneg value (Int.natCast_ne_zero.mpr (Nat.pow_pos (by decide)).ne')
  rw [List.take_of_length_le hlength.le, IntType.decode, IntType.cast,
    type.ofBits_inj (hlength ▸ hlt) (type.castBits_lt value), IntType.castBits, hlength]
  omega

/-- On the bytes of its range, the comparison of a term decides whether it is satisfied. -/
theorem groupedTermMatches_iff (h : term.WellFormed bound) {bytes : List UInt8}
    (hlength : bytes.length = groupedTermValueSize term) :
    groupedTermMatches unit config bytes term = true ↔ term.Satisfied unit config bytes := by
  have htext := h.text
  have hpattern := h.pattern
  have harray := h.arrayMask
  have hbinary := h.binaryMask
  unfold groupedTermMatches GroupedTerm.Satisfied compareMaskedBytes
  cases htype : term.valueType <;> dsimp only
  all_goals
    unfold groupedTermValueSize at hlength
    rw [htype] at hlength htext hpattern harray hbinary
    dsimp only at hlength
  case byte => rw [decide_eq_true_iff, decode_take_eq_cast_iff .uint8 _ hlength]
  case int16 => rw [decide_eq_true_iff, decode_take_eq_cast_iff .int16 _ hlength]
  case int32 => rw [decide_eq_true_iff, decode_take_eq_cast_iff .int32 _ hlength]
  case int64 => rw [decide_eq_true_iff, decode_take_eq_cast_iff .int64 _ hlength]
  case pointer => rw [decide_eq_true_iff, decode_take_eq_cast_iff .uintptr _ hlength]
  case float | double => rw [List.take_of_length_le hlength.le]
  case string =>
    have hpos := List.length_pos_of_ne_nil (htext (Or.inl rfl))
    rw [decide_eq_true_iff, List.take_of_length_le (by omega)]
  case unicodeString =>
    have hpos := List.length_pos_of_ne_nil (htext (Or.inr rfl))
    rw [decide_eq_true_iff, List.take_of_length_le (by omega)]
  case byteArray =>
    have hne := hpattern (Or.inl rfl)
    have hpos := List.length_pos_of_ne_nil hne
    rw [Bool.and_eq_true, decide_eq_true_iff, maskedMatch_iff (by omega) (harray rfl)]
    exact ⟨fun hboth ↦ hboth.2, fun hall ↦ ⟨hne, hall⟩⟩
  case binary =>
    have hpos := List.length_pos_of_ne_nil (hpattern (Or.inr rfl))
    rw [Bool.and_eq_true, decide_eq_true_iff, maskedMatch_iff (by omega) (hbinary rfl)]
    exact ⟨fun hboth ↦ hboth.2, fun hall ↦ ⟨hbinary rfl, hall⟩⟩
  case all | grouped | custom => simp

theorem groupedTermReads_le (term : GroupedTerm) :
    groupedTermReads term ≤ groupedTermValueSize term := by
  unfold groupedTermReads groupedTermValueSize
  cases term.valueType <;> dsimp only <;> omega

/-- Subtracting what is not larger does not wrap. -/
theorem subSize_of_le {first second : ℕ} (hle : second ≤ first) (hlt : first < sizeModulus) :
    subSize first second = first - second := by
  rw [subSize, show first + sizeModulus - second = first - second + sizeModulus by omega,
    Nat.add_mod_right, Nat.mod_eq_of_lt (by omega)]

/-- A block matches if each term is satisfied at its offset. -/
theorem groupedBlockMatches_iff (hbound : bound < 2 ^ 63)
    (hterms : ∀ term ∈ config.groupedTerms, term.WellFormed bound) {block : List UInt8}
    (hblock : block.length = config.groupedValueSize) :
    groupedBlockMatches unit config config.groupedValueSize block = true ↔
      ∀ term ∈ config.groupedTerms,
        term.Satisfied unit config (slice block term.offset (groupedTermValueSize term)) := by
  obtain ⟨hlt, hinside⟩ := groupedValueSize_spec hbound hterms
  unfold groupedBlockMatches
  rw [List.all_eq_true]
  refine forall₂_congr fun term hterm ↦ ?_
  have hwell := hterms term hterm
  have hend := hinside term hterm
  have hpos := hwell.size_pos
  have hlength : (slice block term.offset (groupedTermValueSize term)).length =
      groupedTermValueSize term := by
    rw [slice, List.length_take, List.length_drop]
    omega
  dsimp only
  rw [subSize_of_le (by omega) hlt, decide_eq_false (by omega), decide_eq_false (by omega),
    Bool.or_self, Bool.not_false, Bool.true_and, ← groupedTermMatches_iff hwell hlength, slice,
    groupedTermMatches_take unit config _ term (groupedTermReads_le term)]

/-! ### Grouped scans -/

/-- A term that asks for the byte 5 at the offset 1. -/
def fiveAtOne : GroupedTerm := { valueType := .byte, offset := 1, intValue := 5 }

theorem fiveAtOne_satisfied (unit : FloatUnit) (config : ScanConfig) :
    fiveAtOne.Satisfied unit config [5] := by
  have hbyte : (leNat [5] : ℤ) = 5 % (256 ^ [(5 : UInt8)].length : ℕ) := by decide
  exact hbyte

end Cecore.Scanner
