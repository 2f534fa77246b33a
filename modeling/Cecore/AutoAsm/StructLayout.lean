import Cecore.AutoAsm.DataValues
import Cecore.AutoAsm.Line
import Mathlib.Algebra.Order.BigOperators.Group.List
import Mathlib.Data.List.DropRight
import Mathlib.Data.List.TakeWhile
import Mathlib.Tactic.IntervalCases

/-!
# Structure definitions

`expandStructDefinitions` of `core/autoasm.cpp` turns each member of a `STRUCT` into a definition
of its offset. `parseStructDataSize` counts the bytes of a data line for that; `parseDataDirective`
emits them. A cast emits the width of its format whatever the directive, and is counted with the
width of the directive (`structLayout_agrees`).
-/

set_option autoImplicit false
set_option relaxedAutoImplicit false

namespace Cecore.AutoAsm

open Library.LittleEndian Scanner

/-! ### The code -/

/-- The size of the values of a data directive in turn. -/
def structDataSize (width : ℕ) : List Text → Except Text ℕ
  | [] => .ok 0
  | token :: rest =>
    let token := trim token
    if isQuoted token then
      if width = 1 then (structDataSize width rest).map ((stripOptionalQuotes token).length + ·)
      else .error "STRUCT string literal is only supported for DB".toList
    else (structDataSize width rest).map (width + ·)

/-- The error is empty for a line that is no data line. -/
def parseStructDataSize (line : Text) : Except Text ℕ :=
  let trimmed := trim line
  let upper := toUpper trimmed
  if startsData upper then
    match splitDataValues (trimmed.drop 3) with
    | [] => .error "STRUCT data directive requires at least one value".toList
    | values => structDataSize (dataWidth (upper.take 2)) values
  else if startsWith upper "DS ".toList then
    if stripOptionalQuotes (trimmed.drop 3) = [] then .error "STRUCT DS requires a string".toList
    else .ok (stripOptionalQuotes (trimmed.drop 3)).length
  else .error []

/-- The variables of the loop; there is a name inside a `STRUCT`. -/
structure StructScan where
  generated : Text := []
  body : Text := []
  structName : Option Text := none
  offset : ℕ := 0
  log : List Text := []

/-- An error, with the log as it is then. -/
abbrev StructResult := Except (List Text × Text) StructScan

def defineLine (name value : Text) : Text :=
  "define(".toList ++ name ++ ',' :: value ++ ")\n".toList

/-- The definitions of a member, under its own name and behind that of the structure. -/
def memberDefines (structName field : Text) (offset : ℕ) : Text :=
  defineLine (structName ++ '.' :: field) (formatHexLiteral offset) ++
    defineLine field (formatHexLiteral offset)

def isSkipped (line : Text) : Bool :=
  decide (line = []) || line.head? == some ';' || line.head? == some '/'

def isStructEnd (upper : Text) : Bool := upper == "ENDS".toList || upper == "ENDSTRUCT".toList

/-- The data part `work` of a line. -/
def structData (structName work : Text) (s : StructScan) : StructResult :=
  match parseStructDataSize work with
  | .ok dataSize => .ok { s with offset := s.offset + dataSize }
  | .error sizeError =>
    if sizeError ≠ [] then .error (s.log, sizeError)
    else .error (s.log, "Unsupported STRUCT line in ".toList ++ structName ++ ": ".toList ++ work)

/-- A line between `STRUCT` and its end. -/
def structMember (structName line : Text) (s : StructScan) : StructResult :=
  match cutAt ':' line with
  | none => structData structName line s
  | some (field, work) =>
    if trim field = [] then .error (s.log, "STRUCT has an empty field name".toList)
    else
      let s := { s with
        generated := s.generated ++ memberDefines structName (trim field) s.offset
        log := s.log ++ ["STRUCT: ".toList ++ structName ++ '.' :: trim field ++ " = ".toList ++
          formatHexLiteral s.offset] }
      if trim work = [] then .ok s else structData structName (trim work) s

/-- One line of the loop. -/
def structLine (rawLine : Text) (s : StructScan) : StructResult :=
  let line := stripInlineComment rawLine
  let upper := toUpper line
  match s.structName with
  | none =>
    if startsWith upper "STRUCT ".toList then
      if trim (line.drop 7) = [] then .error (s.log, "STRUCT requires a name".toList)
      else .ok { s with
        structName := some (trim (line.drop 7))
        offset := 0
        log := s.log ++ ["STRUCT: ".toList ++ trim (line.drop 7)] }
    else .ok { s with body := s.body ++ rawLine ++ ['\n'] }
  | some structName =>
    if isSkipped line then .ok s
    else if isStructEnd upper then
      .ok { s with
        generated := s.generated ++ defineLine structName (formatHexLiteral s.offset)
        log := s.log ++ ["ENDSTRUCT: ".toList ++ structName ++ " size=".toList ++ decimal s.offset]
        structName := none }
    else structMember structName line s

def structLines : List Text → StructScan → StructResult
  | [], s => .ok s
  | rawLine :: rest, s =>
    match structLine rawLine s with
    | .ok s => structLines rest s
    | .error failed => .error failed

def expandStructDefinitions (code : Text) (log : List Text) : Expansion Text :=
  match structLines (getlines '\n' code) { log := log } with
  | .error (log, error) => ⟨false, [], log, error⟩
  | .ok s =>
    match s.structName with
    | some structName =>
      ⟨false, [], s.log, "STRUCT missing ENDSTRUCT/ENDS: ".toList ++ structName⟩
    | none => ⟨true, s.generated ++ s.body, s.log, []⟩

/-! ### What a line stands for -/

/-- The bytes that the size of a structure counts for a value. -/
def countedSize (width : ℕ) (token : Text) : ℕ :=
  if isQuoted token then (stripOptionalQuotes token).length else width

/-- The bytes that a value emits. -/
def emittedSize (width : ℕ) (token : Text) : ℕ :=
  if isQuoted token then (stripOptionalQuotes token).length
  else ((castFormat token).map FloatFormat.width).getD width

def isDataLine (line : Text) : Bool :=
  startsData (toUpper (trim line)) || startsWith (toUpper (trim line)) "DS ".toList

/-- The width of the directive that a line starts with. -/
def lineWidth (line : Text) : ℕ := dataWidth ((toUpper (trim line)).take 2)

/-- The text that the directive of a line is read from. -/
def dataText (symbols : Symbols) (line : Text) : Text :=
  symbols.substituteSymbols (trim ((trim line).drop 3))

/-- A line as parsing leaves it for assembly, when it is a data line. -/
def deferredData (line : Text) : Text :=
  if startsWith (toUpper line) "DS ".toList then "__DS__:".toList ++ trim (line.drop 3) else line

/-- What a data line gives when it is assembled, nothing for another line. -/
def assembledBytes (fromChars : FromChars) (symbols : Symbols) (line : Text) :
    Option (Except Text (List UInt8)) :=
  match classify (deferredData (trim line)) with
  | .data op values => some (parseDataDirective fromChars op (symbols.substituteSymbols values))
  | .ds text =>
    some (if stripOptionalQuotes text = [] then .error "DS requires a string".toList
      else .ok ((stripOptionalQuotes text).map byteOf))
  | _ => none

/-- The data line that a member line is, or that stands behind its field. -/
def dataPart (rawLine : Text) : Option Text :=
  let line := stripInlineComment rawLine
  if isSkipped line then none
  else if isDataLine line then some line
  else match cutAt ':' line with
    | none => none
    | some (_, work) => if trim work = [] then none else some (trim work)

/-- A line that is a data line has no colon, in front of which a field would be read. -/
def Unambiguous (rawLine : Text) : Prop :=
  isDataLine (stripInlineComment rawLine) = true → ':' ∉ stripInlineComment rawLine

/-- Substitution leaves each value of a data line one value, and a literal as long as it is. -/
def KeepsValues (symbols : Symbols) (line : Text) : Prop :=
  startsData (toUpper (trim line)) = true →
    (splitDataValues (dataText symbols line)).map (fun v ↦ countedSize (lineWidth line) (trim v)) =
      (splitDataValues ((trim line).drop 3)).map fun v ↦ countedSize (lineWidth line) (trim v)

/-- Each cast of a data line is to a format of the directive's width. -/
def CastsFit (symbols : Symbols) (line : Text) : Prop :=
  startsData (toUpper (trim line)) = true → ∀ token ∈ splitDataValues (dataText symbols line),
    ∀ format ∈ castFormat (trim token), format.width = lineWidth line

/-! ### Blanks around values -/

theorem trim_append_blank {s blanks : Text} (hblanks : blanks.all isBlank = true) :
    trim (s ++ blanks) = trim s := by
  unfold trim
  rw [List.all_eq_true] at hblanks
  have hdrop (l : Text) (hl : ∀ c ∈ l, isBlank c = true) : l.dropWhile isBlank = [] :=
    List.dropWhile_eq_nil_iff.mpr hl
  rw [List.dropWhile_append]
  split_ifs with hempty
  · rw [hdrop blanks hblanks, List.isEmpty_iff.mp hempty]
  · rw [List.reverse_append, List.dropWhile_append, hdrop blanks.reverse (by simpa using hblanks)]
    rfl

theorem trim_append_dropped (s : Text) :
    ∃ blanks : Text, blanks.all isBlank = true ∧ s.dropWhile isBlank = trim s ++ blanks := by
  refine ⟨((s.dropWhile isBlank).reverse.takeWhile isBlank).reverse, ?_, ?_⟩
  · rw [List.all_reverse, List.all_takeWhile]
  · rw [trim, ← List.reverse_append, List.takeWhile_append_dropWhile, List.reverse_reverse]

theorem trim_trim (s : Text) : trim (trim s) = trim s := by
  obtain ⟨blanks, hblanks, hdropped⟩ := trim_append_dropped s
  rw [← trim_append_blank hblanks, ← hdropped, trim, List.dropWhile_idempotent, trim]

theorem isSpace_of_isBlank {c : Char} (h : isBlank c = true) : isSpace c = true := by
  unfold isBlank at h
  unfold isSpace
  simp only [Bool.or_eq_true, decide_eq_true_eq] at h ⊢
  tauto

theorem not_isQuote_of_isBlank {c : Char} (h : isBlank c = true) : isQuote c = false := by
  unfold isBlank at h
  simp only [Bool.or_eq_true, decide_eq_true_eq] at h
  rcases h with ((rfl | rfl) | rfl) | rfl <;> decide

/-- A blank outside quotes ends the value before it. -/
theorem splitDataValuesFrom_cons_blank {c : Char} (hc : isBlank c = true) (current rest : Text) :
    splitDataValuesFrom none current (c :: rest) =
      if trim current.reverse = [] then splitDataValuesFrom none current rest
      else trim current.reverse :: splitDataValuesFrom none [] rest := by
  have hquote : ¬(isQuote c = true ∧ (none = (none : Option Char) ∨ none = some c)) := by
    rw [not_isQuote_of_isBlank hc]
    exact fun h ↦ Bool.noConfusion h.1
  rw [splitDataValuesFrom, if_neg hquote, if_pos ⟨rfl, .inr (isSpace_of_isBlank hc)⟩]

theorem splitDataValuesFrom_blank (quote : Option Char) (current : Text) {blanks : Text}
    (hblanks : blanks.all isBlank = true) :
    splitDataValuesFrom quote current blanks = splitDataValuesFrom quote current [] := by
  induction blanks generalizing current with
  | nil => rfl
  | cons c rest ih =>
    rw [List.all_cons, Bool.and_eq_true] at hblanks
    cases quote with
    | none =>
      rw [splitDataValuesFrom_cons_blank hblanks.1, ih _ hblanks.2, ih _ hblanks.2,
        splitDataValuesFrom, splitDataValuesFrom]
      by_cases hcurrent : trim current.reverse = []
      · rw [if_pos hcurrent]
      · rw [if_neg hcurrent, if_neg hcurrent]
        rfl
    | some q =>
      have hstep : splitDataValuesFrom (some q) current (c :: rest) =
          splitDataValuesFrom (some q) (c :: current) rest := by
        rw [splitDataValuesFrom, not_isQuote_of_isBlank hblanks.1]
        simp
      rw [hstep, ih _ hblanks.2, splitDataValuesFrom, splitDataValuesFrom, List.reverse_cons,
        trim_append_blank (by simp [hblanks.1])]

theorem splitDataValuesFrom_append_blank (quote : Option Char) (current data : Text) {blanks : Text}
    (hblanks : blanks.all isBlank = true) :
    splitDataValuesFrom quote current (data ++ blanks) =
      splitDataValuesFrom quote current data := by
  induction data generalizing quote current with
  | nil => exact splitDataValuesFrom_blank quote current hblanks
  | cons c rest ih =>
    rw [List.cons_append, splitDataValuesFrom, splitDataValuesFrom]
    simp only [ih]

theorem splitDataValues_dropBlank (data : Text) :
    splitDataValues (data.dropWhile isBlank) = splitDataValues data := by
  induction data with
  | nil => rfl
  | cons c rest ih =>
    by_cases hc : isBlank c = true
    · rw [List.dropWhile_cons_of_pos hc, ih, splitDataValues, splitDataValues,
        splitDataValuesFrom_cons_blank hc]
      rfl
    · rw [List.dropWhile_cons_of_neg hc]

theorem splitDataValues_trim (data : Text) : splitDataValues (trim data) = splitDataValues data := by
  rw [← splitDataValues_dropBlank data]
  obtain ⟨blanks, hblanks, hdropped⟩ := trim_append_dropped data
  rw [hdropped, splitDataValues, splitDataValues,
    splitDataValuesFrom_append_blank _ _ _ hblanks]

/-! ### Sizes of values -/

theorem structDataSize_eq {width size : ℕ} {tokens : List Text}
    (h : structDataSize width tokens = .ok size) :
    size = (tokens.map fun v ↦ countedSize width (trim v)).sum := by
  induction tokens generalizing size with
  | nil =>
    cases h
    rfl
  | cons token rest ih =>
    rw [structDataSize] at h
    rw [List.map_cons, List.sum_cons, countedSize]
    split_ifs at h ⊢ with hquoted hwidth
    all_goals
      cases hrest : structDataSize width rest with
      | error error =>
        rw [hrest] at h
        cases h
      | ok more =>
        rw [hrest] at h
        cases h
        rw [ih hrest]

theorem dataValueBytes_length {fromChars : FromChars} {op token : Text} {width : ℕ}
    {bytes : List UInt8} (h : dataValueBytes fromChars op width token = .ok bytes) :
    bytes.length = emittedSize width token := by
  by_cases hquoted : isQuoted token = true
  · rw [dataValueBytes, if_pos hquoted] at h
    rw [emittedSize, if_pos hquoted]
    split_ifs at h
    cases h
    rw [List.length_map]
  · rw [emittedSize, if_neg hquoted]
    cases hcast : castFormat token with
    | some format =>
      obtain ⟨error, hbytes⟩ := dataValueBytes_cast fromChars op width hcast
      rw [hbytes] at h
      split at h
      · cases h
        exact length_toLE _ _
      · cases h
    | none =>
      rw [dataValueBytes_plain fromChars op width (by simpa using hquoted) hcast] at h
      split at h
      · cases h
      · split_ifs at h
        cases h
        exact length_toLE _ _

theorem dataBytes_length {fromChars : FromChars} {op : Text} {tokens : List Text}
    {bytes : List UInt8} (h : dataBytes fromChars op tokens = .ok bytes) :
    bytes.length = (tokens.map fun v ↦ emittedSize (dataWidth op) (trim v)).sum := by
  induction tokens generalizing bytes with
  | nil =>
    cases h
    rfl
  | cons token rest ih =>
    rw [dataBytes] at h
    split at h
    · cases h
    · rename_i first hfirst
      split at h
      · cases h
      · rename_i more hmore
        cases h
        rw [List.length_append, List.map_cons, List.sum_cons, dataValueBytes_length hfirst,
          ih hmore]

theorem dataWidth_cases (op : Text) :
    dataWidth op = 1 ∨ dataWidth op = 2 ∨ dataWidth op = 4 ∨ dataWidth op = 8 := by
  unfold dataWidth
  split_ifs <;> simp

theorem castFormat_width {token : Text} {format : FloatFormat}
    (h : castFormat token = some format) : format.width = 4 ∨ format.width = 8 := by
  unfold castFormat at h
  split_ifs at h
  · exact .inl (Option.some.inj h ▸ rfl)
  · exact .inr (Option.some.inj h ▸ rfl)

/-- A value is counted as it is emitted exactly when it is not cast to another width. -/
theorem countedSize_eq_iff (width : ℕ) (token : Text) :
    countedSize width token = emittedSize width token ↔
      ∀ format ∈ castFormat token, format.width = width := by
  by_cases hquoted : isQuoted token = true
  · rw [countedSize, emittedSize, if_pos hquoted, if_pos hquoted, castFormat_of_quoted hquoted]
    simp
  · rw [countedSize, emittedSize, if_neg hquoted, if_neg hquoted]
    cases castFormat token with
    | none => simp
    | some format => simp [eq_comm]

/-- The casts of one line all emit at least as much as is counted, or all at most as much. -/
theorem countedSize_le_or (op : Text) :
    (∀ token, countedSize (dataWidth op) token ≤ emittedSize (dataWidth op) token) ∨
      ∀ token, emittedSize (dataWidth op) token ≤ countedSize (dataWidth op) token := by
  have hcast (token : Text) : emittedSize (dataWidth op) token = countedSize (dataWidth op) token ∨
      countedSize (dataWidth op) token = dataWidth op ∧
        (emittedSize (dataWidth op) token = 4 ∨ emittedSize (dataWidth op) token = 8) := by
    by_cases hquoted : isQuoted token = true
    · exact .inl (by rw [countedSize, emittedSize, if_pos hquoted, if_pos hquoted])
    · rw [countedSize, emittedSize, if_neg hquoted, if_neg hquoted]
      cases h : castFormat token with
      | none => exact .inl rfl
      | some format => exact .inr ⟨rfl, castFormat_width h⟩
  rcases dataWidth_cases op with h | h | h | h
  case inr.inr.inr =>
    refine .inr fun token ↦ ?_
    have := hcast token
    omega
  all_goals
    refine .inl fun token ↦ ?_
    have := hcast token
    omega

/-- Two sums of which one bounds the other term by term agree only term by term. -/
theorem sum_map_eq_iff {α : Type} {f g : α → ℕ} (hle : ∀ a, f a ≤ g a) (l : List α) :
    (l.map f).sum = (l.map g).sum ↔ ∀ a ∈ l, f a = g a := by
  induction l with
  | nil => simp
  | cons a rest ih =>
    have hsum : (rest.map f).sum ≤ (rest.map g).sum := List.sum_le_sum fun b _ ↦ hle b
    have ha := hle a
    rw [List.map_cons, List.map_cons, List.sum_cons, List.sum_cons, List.forall_mem_cons, ← ih]
    omega

theorem sum_countedSize_iff (op : Text) (tokens : List Text) :
    (tokens.map fun v ↦ countedSize (dataWidth op) (trim v)).sum =
        (tokens.map fun v ↦ emittedSize (dataWidth op) (trim v)).sum ↔
      ∀ token ∈ tokens, ∀ format ∈ castFormat (trim token), format.width = dataWidth op := by
  rcases countedSize_le_or op with hle | hle
  · rw [sum_map_eq_iff fun v ↦ hle (trim v)]
    exact forall₂_congr fun v _ ↦ countedSize_eq_iff _ _
  · rw [eq_comm, sum_map_eq_iff fun v ↦ hle (trim v)]
    exact forall₂_congr fun v _ ↦ eq_comm.trans (countedSize_eq_iff _ _)

/-! ### Data lines -/

theorem toUpperChar_eq_space {c : Char} (h : toUpperChar c = ' ') : c = ' ' := by
  unfold toUpperChar at h
  split_ifs at h with hletter
  · exfalso
    have hlow : 97 ≤ c.toNat := hletter.1
    have hhigh : c.toNat ≤ 122 := hletter.2
    generalize c.toNat = n at h hlow hhigh
    interval_cases n <;> exact absurd h (by decide)
  · exact h

theorem startsData_cons {line : Text} (h : startsData (toUpper line) = true) :
    ∃ a b rest, line = a :: b :: ' ' :: rest ∧ toUpperChar a = 'D' := by
  match line with
  | [] => exact absurd h (by decide)
  | [a] => simp [startsData, toUpper, startsWith] at h
  | [a, b] => simp [startsData, toUpper, startsWith] at h
  | a :: b :: c :: rest =>
    have hac : 'D' = toUpperChar a ∧ ' ' = toUpperChar c := by
      simp [startsData, toUpper, startsWith] at h
      tauto
    rw [toUpperChar_eq_space hac.2.symm]
    exact ⟨a, b, rest, rfl, hac.1.symm⟩

/-- A data line is classified as one. -/
theorem classify_of_startsData {line : Text} (h : startsData (toUpper line) = true) :
    classify line = .data ((toUpper line).take 2) (trim (line.drop 3)) := by
  obtain ⟨a, b, rest, rfl, ha⟩ := startsData_cons h
  have hlabel : isSimpleLabelDefinition (a :: b :: ' ' :: rest) = false := by
    simp [isSimpleLabelDefinition]
  have hmark : a ≠ '_' := by
    rintro rfl
    exact absurd ha (by decide)
  have hunmark : unmark (a :: b :: ' ' :: rest) markers = none := by
    simp [unmark, markers, startsWith, hmark.symm]
  rw [classify, hlabel, hunmark, if_pos h]
  rfl

/-- A data line that is assembled is one of numbers, cast to bytes, or a string. -/
theorem assembledBytes_data {fromChars : FromChars} {symbols : Symbols} {line : Text}
    (h : startsData (toUpper (trim line)) = true) :
    assembledBytes fromChars symbols line =
      some (parseDataDirective fromChars ((toUpper (trim line)).take 2)
        (dataText symbols line)) := by
  have hds : startsWith (toUpper (trim line)) "DS ".toList = false := by
    obtain ⟨tail, htail⟩ : ∃ tail, toUpper (trim line) = tail := ⟨_, rfl⟩
    rw [htail] at h ⊢
    match tail with
    | [] => rfl
    | [a] => simp [startsData, startsWith, List.isPrefixOf] at h
    | [a, b] => simp [startsData, startsWith, List.isPrefixOf] at h
    | a :: b :: c :: rest =>
      simp [startsData, startsWith] at h ⊢
      grind
  rw [assembledBytes, deferredData, hds, if_neg Bool.false_ne_true, classify_of_startsData h]
  rfl

theorem assembledBytes_ds {fromChars : FromChars} {symbols : Symbols} {line : Text}
    {bytes : List UInt8} (hds : startsWith (toUpper (trim line)) "DS ".toList = true)
    (h : assembledBytes fromChars symbols line = some (.ok bytes)) :
    bytes.length = (stripOptionalQuotes ((trim line).drop 3)).length := by
  have hmark : unmark ("__DS__:".toList ++ trim ((trim line).drop 3)) markers =
      some (.ds (trim ((trim line).drop 3))) := by
    simp [unmark, markers, startsWith]
  by_cases hlabel :
      isSimpleLabelDefinition ("__DS__:".toList ++ trim ((trim line).drop 3)) = true
  · rw [assembledBytes, deferredData, if_pos hds, classify, if_pos hlabel] at h
    cases h
  · rw [assembledBytes, deferredData, if_pos hds, classify, if_neg hlabel, hmark] at h
    dsimp only at h
    split_ifs at h with htext
    · cases h
    · have hbytes := Except.ok.inj (Option.some.inj h)
      rw [← hbytes, List.length_map, stripOptionalQuotes, trim_trim]
      rfl

/-! ### Sizes of lines -/

theorem parseDataDirective_length {fromChars : FromChars} {op data : Text} {bytes : List UInt8}
    (h : parseDataDirective fromChars op data = .ok bytes) :
    bytes.length = ((splitDataValues data).map fun v ↦
      emittedSize (dataWidth op) (trim v)).sum := by
  unfold parseDataDirective at h
  split at h
  · cases h
  · exact dataBytes_length h

/-- A data line is counted as it is emitted exactly when its casts fit. -/
theorem parseStructDataSize_eq_iff {fromChars : FromChars} {symbols : Symbols} {line : Text}
    {size : ℕ} {bytes : List UInt8} (hsize : parseStructDataSize line = .ok size)
    (hbytes : assembledBytes fromChars symbols line = some (.ok bytes))
    (hkeeps : KeepsValues symbols line) : size = bytes.length ↔ CastsFit symbols line := by
  unfold parseStructDataSize at hsize
  by_cases hdata : startsData (toUpper (trim line)) = true
  · rw [if_pos hdata] at hsize
    rw [assembledBytes_data hdata] at hbytes
    have hcounted : size = ((splitDataValues ((trim line).drop 3)).map fun v ↦
        countedSize (lineWidth line) (trim v)).sum := by
      split at hsize
      · cases hsize
      · exact structDataSize_eq hsize
    rw [hcounted, ← hkeeps hdata, parseDataDirective_length (Option.some.inj hbytes)]
    refine (sum_countedSize_iff _ _).trans ⟨fun h _ ↦ h, fun h ↦ h hdata⟩
  · rw [if_neg hdata] at hsize
    split_ifs at hsize with hds htext
    cases hsize
    rw [assembledBytes_ds hds hbytes]
    exact ⟨fun _ h ↦ absurd h hdata, fun _ ↦ rfl⟩

/-- Without symbols every data line keeps its values. -/
theorem keepsValues_of_none (globalSymbols : Text → Option ℕ) (line : Text) :
    KeepsValues ⟨[], [], [], globalSymbols⟩ line := by
  intro _
  have htext : dataText ⟨[], [], [], globalSymbols⟩ line = trim ((trim line).drop 3) :=
    outsideQuotesFrom_id none [] _
  rw [htext, splitDataValues_trim]

/-! ### A member line -/

/-- The definitions that a line generates at an offset. -/
def fieldDefines (structName : Text) (offset : ℕ) (rawLine : Text) : Text :=
  if isSkipped (stripInlineComment rawLine) then []
  else match cutAt ':' (stripInlineComment rawLine) with
    | none => []
    | some (field, _) => memberDefines structName (trim field) offset

theorem structData_ok {structName work : Text} {s s' : StructScan}
    (h : structData structName work s = .ok s') :
    ∃ size, parseStructDataSize work = .ok size ∧ s' = { s with offset := s.offset + size } := by
  unfold structData at h
  split at h
  · rename_i size hsize
    cases h
    exact ⟨size, hsize, rfl⟩
  · split_ifs at h

theorem isDataLine_of_size {line : Text} {size : ℕ} (h : parseStructDataSize line = .ok size) :
    isDataLine line = true := by
  unfold parseStructDataSize at h
  unfold isDataLine
  by_cases hdata : startsData (toUpper (trim line)) = true
  · rw [hdata, Bool.true_or]
  · by_cases hds : startsWith (toUpper (trim line)) "DS ".toList = true
    · rw [hds, Bool.or_true]
    · rw [if_neg hdata, if_neg hds] at h
      cases h

/-- What a member line does: its definitions, and the size of its data line. -/
theorem structLine_member {structName rawLine : Text} {s s' : StructScan}
    (hname : s.structName = some structName)
    (hopen : isStructEnd (toUpper (stripInlineComment rawLine)) = false)
    (hclear : Unambiguous rawLine) (h : structLine rawLine s = .ok s') :
    s'.structName = some structName ∧
      s'.generated = s.generated ++ fieldDefines structName s.offset rawLine ∧
      ∃ size, s'.offset = s.offset + size ∧
        match dataPart rawLine with
        | some line => parseStructDataSize line = .ok size
        | none => size = 0 := by
  unfold structLine at h
  rw [hname] at h
  dsimp only at h
  unfold fieldDefines dataPart
  dsimp only
  by_cases hskip : isSkipped (stripInlineComment rawLine) = true
  · rw [if_pos hskip] at h
    cases h
    rw [if_pos hskip, if_pos hskip]
    exact ⟨hname, (List.append_nil _).symm, 0, rfl, rfl⟩
  rw [if_neg hskip, if_neg (by simp [hopen]), structMember] at h
  rw [if_neg hskip, if_neg hskip]
  cases hcut : cutAt ':' (stripInlineComment rawLine) with
  | none =>
    rw [hcut] at h
    obtain ⟨size, hsize, rfl⟩ := structData_ok h
    rw [if_pos (isDataLine_of_size hsize)]
    exact ⟨hname, (List.append_nil _).symm, size, rfl, hsize⟩
  | some parts =>
    obtain ⟨field, work⟩ := parts
    have hcolon : ':' ∈ stripInlineComment rawLine := by
      unfold cutAt at hcut
      split_ifs at hcut with hcolon
      exact hcolon
    have hdata : ¬isDataLine (stripInlineComment rawLine) = true := fun hdata ↦
      hclear hdata hcolon
    rw [hcut] at h
    dsimp only at h
    rw [if_neg hdata]
    dsimp only
    split_ifs at h with hfield hwork
    · cases h
      rw [if_pos hwork]
      exact ⟨hname, rfl, 0, rfl, rfl⟩
    · obtain ⟨size, hsize, rfl⟩ := structData_ok h
      rw [if_neg hwork]
      exact ⟨hname, rfl, size, rfl, hsize⟩

/-! ### A structure -/

/-- The bytes that a member line emits when its data line is assembled. -/
def realSize (fromChars : FromChars) (symbols : Symbols) (rawLine : Text) : ℕ :=
  match (dataPart rawLine).bind (assembledBytes fromChars symbols) with
  | some (.ok bytes) => bytes.length
  | _ => 0

/-- The definitions of the members at their real offsets. -/
def realLayout (fromChars : FromChars) (symbols : Symbols) (structName : Text) :
    (offset : ℕ) → List Text → Text
  | _, [] => []
  | offset, rawLine :: rest =>
    fieldDefines structName offset rawLine ++
      realLayout fromChars symbols structName (offset + realSize fromChars symbols rawLine) rest

/-- A member line whose data line is assembled to bytes, and counted as many. -/
structure Agrees (fromChars : FromChars) (symbols : Symbols) (rawLine : Text) : Prop where
  clear : Unambiguous rawLine
  assembled : ∀ line ∈ dataPart rawLine,
    ∃ bytes, assembledBytes fromChars symbols line = some (.ok bytes)
  keeps : ∀ line ∈ dataPart rawLine, KeepsValues symbols line
  fit : ∀ line ∈ dataPart rawLine, CastsFit symbols line

theorem structLine_agrees {fromChars : FromChars} {symbols : Symbols} {structName rawLine : Text}
    {s s' : StructScan} (hname : s.structName = some structName)
    (hopen : isStructEnd (toUpper (stripInlineComment rawLine)) = false)
    (hagrees : Agrees fromChars symbols rawLine) (h : structLine rawLine s = .ok s') :
    s'.structName = some structName ∧
      s'.generated = s.generated ++ fieldDefines structName s.offset rawLine ∧
      s'.offset = s.offset + realSize fromChars symbols rawLine := by
  obtain ⟨hname', hgenerated, size, hoffset, hsize⟩ := structLine_member hname hopen hagrees.clear h
  refine ⟨hname', hgenerated, hoffset.trans ?_⟩
  unfold realSize
  cases hpart : dataPart rawLine with
  | none =>
    rw [hpart] at hsize
    rw [hsize]
    rfl
  | some line =>
    rw [hpart] at hsize
    obtain ⟨bytes, hbytes⟩ := hagrees.assembled line hpart
    have heq := (parseStructDataSize_eq_iff hsize hbytes (hagrees.keeps line hpart)).mpr
      (hagrees.fit line hpart)
    simp only [Option.bind_some, hbytes, heq]

theorem structLines_agree {fromChars : FromChars} {symbols : Symbols} {structName : Text}
    {rawLines : List Text} {s s' : StructScan} (hname : s.structName = some structName)
    (hopen : ∀ rawLine ∈ rawLines, isStructEnd (toUpper (stripInlineComment rawLine)) = false)
    (hagrees : ∀ rawLine ∈ rawLines, Agrees fromChars symbols rawLine)
    (h : structLines rawLines s = .ok s') :
    s'.structName = some structName ∧
      s'.generated =
        s.generated ++ realLayout fromChars symbols structName s.offset rawLines ∧
      s'.offset = s.offset + (rawLines.map (realSize fromChars symbols)).sum := by
  induction rawLines generalizing s with
  | nil =>
    cases h
    exact ⟨hname, (List.append_nil _).symm, rfl⟩
  | cons rawLine rest ih =>
    rw [List.forall_mem_cons] at hopen hagrees
    rw [structLines] at h
    split at h
    · rename_i next hnext
      obtain ⟨hname', hgenerated, hoffset⟩ :=
        structLine_agrees hname hopen.1 hagrees.1 hnext
      obtain ⟨hname'', hgenerated', hoffset'⟩ := ih hname' hopen.2 hagrees.2 h
      refine ⟨hname'', ?_, ?_⟩
      · rw [hgenerated', hgenerated, hoffset, realLayout, List.append_assoc]
      · rw [hoffset', hoffset, List.map_cons, List.sum_cons, Nat.add_assoc]
    · cases h

end Cecore.AutoAsm
