import Cecore.Table.JsonFile
import Mathlib.Data.List.DropRight
import Mathlib.Data.List.Forall2

/-!
# Reading back what was written

`Reads levels text value`: in front of any text that ends a value, the parser takes `text` off and
hands back `value`. Every construct of the writer has its rule.
-/

set_option autoImplicit false
set_option relaxedAutoImplicit false

namespace Cecore.Table

open Library.BinaryFloat

/-- A text behind which a value is over. -/
def Delimited (rest : Text) : Prop :=
  ∀ c ∈ rest.head?, c = ',' ∨ c = ']' ∨ c = '\x7d' ∨ isSpace c = true

/-- The text is read as the value, whatever follows. -/
def Reads (levels : ℕ) (text : Text) (value : JsonValue) : Prop :=
  ∀ rest, Delimited rest → parseValue levels (text ++ rest) = some (value, rest)

theorem delimited_cons {c : Char} (h : c = ',' ∨ c = ']' ∨ c = '\x7d' ∨ isSpace c = true)
    (rest : Text) : Delimited (c :: rest) := by
  intro d hd
  obtain rfl : c = d := by simpa using hd
  exact h

/-! ### White space -/

theorem skipWs_append {blank : Text} (h : ∀ c ∈ blank, isSpace c = true) (text : Text) :
    skipWs (blank ++ text) = skipWs text := by
  rw [skipWs, List.dropWhile_append_of_pos h]
  rfl

theorem skipWs_cons {c : Char} (h : isSpace c = false) (rest : Text) :
    skipWs (c :: rest) = c :: rest := by
  rw [skipWs, List.dropWhile_cons, if_neg (by simp [h])]

theorem consume_cons {c : Char} (h : isSpace c = false) (rest : Text) :
    consume c (c :: rest) = some rest := by
  rw [consume, skipWs_cons h]
  dsimp only
  rw [if_pos rfl]

theorem skipWs_skipWs (text : Text) : skipWs (skipWs text) = skipWs text :=
  List.dropWhile_idempotent isSpace text

theorem parseValue_skipWs (levels : ℕ) (text : Text) :
    parseValue levels (skipWs text) = parseValue levels text := by
  cases levels with
  | zero => rfl
  | succ levels => simp only [parseValue, skipWs_skipWs]

theorem parseValue_blank {blank : Text} (h : ∀ c ∈ blank, isSpace c = true) (levels : ℕ)
    (text : Text) : parseValue levels (blank ++ text) = parseValue levels text := by
  rw [← parseValue_skipWs, skipWs_append h, parseValue_skipWs]

/-- No value begins with a closing bracket. -/
theorem parseValue_closing {levels : ℕ} {text rest : Text} (h : skipWs text = ']' :: rest) :
    parseValue levels text = none := by
  cases levels with
  | zero => rfl
  | succ levels =>
    rw [parseValue, h]
    rfl

/-! ### Strings -/

/-- One turn of the string loop undoes the escape of one character. -/
theorem parseStringFrom_escape (turns : ℕ) (c : Char) (rest : Text) :
    parseStringFrom (turns + 1) (jsonEscapeChar c ++ rest) =
      (parseStringFrom turns rest).map fun parsed ↦ (c :: parsed.1, parsed.2) := by
  unfold jsonEscapeChar
  by_cases hback : c = '\\'
  · subst hback
    rfl
  · by_cases hquote : c = doubleQuote
    · subst hquote
      rfl
    · by_cases hline : c = '\n'
      · subst hline
        rfl
      · by_cases hreturn : c = '\r'
        · subst hreturn
          rfl
        · by_cases htab : c = '\t'
          · subst htab
            rfl
          · rw [if_neg hback, if_neg hquote, if_neg hline, if_neg hreturn, if_neg htab,
              List.singleton_append, parseStringFrom, if_neg hquote, if_neg hback]

theorem parseStringFrom_jsonEscape (s rest : Text) {turns : ℕ} (hturns : s.length < turns) :
    parseStringFrom turns (jsonEscape s ++ doubleQuote :: rest) = some (s, rest) := by
  induction s generalizing turns with
  | nil =>
    obtain ⟨turns, rfl⟩ := Nat.exists_eq_succ_of_ne_zero (Nat.ne_of_gt hturns)
    rfl
  | cons c s ih =>
    obtain ⟨turns, rfl⟩ := Nat.exists_eq_succ_of_ne_zero (Nat.ne_zero_of_lt hturns)
    have hshort : s.length < turns := by simpa using hturns
    rw [jsonEscape, List.flatMap_cons, List.append_assoc, parseStringFrom_escape, ← jsonEscape,
      ih hshort]
    rfl

theorem length_le_jsonEscape (s : Text) : s.length ≤ (jsonEscape s).length := by
  induction s with
  | nil => exact Nat.le_refl _
  | cons c s ih =>
    have hc : 1 ≤ (jsonEscapeChar c).length := by
      unfold jsonEscapeChar
      split_ifs <;> simp
    rw [jsonEscape, List.flatMap_cons, List.length_append, ← jsonEscape, List.length_cons]
    omega

/-- A quoted text is read back, whatever characters it has. -/
theorem parseString_quoted (s rest : Text) : parseString (quoted s ++ rest) = some (s, rest) := by
  have hquoted : quoted s ++ rest = doubleQuote :: (jsonEscape s ++ doubleQuote :: rest) := by
    simp [quoted]
  have hturns : s.length < (jsonEscape s ++ doubleQuote :: rest).length := by
    have := length_le_jsonEscape s
    rw [List.length_append, List.length_cons]
    omega
  rw [hquoted, parseString, if_pos rfl, parseStringFrom_jsonEscape s rest hturns]

theorem reads_quoted (levels : ℕ) (s : Text) : Reads (levels + 1) (quoted s) (.string s) := by
  intro rest _
  have hcons : quoted s ++ rest = doubleQuote :: (jsonEscape s ++ [doubleQuote] ++ rest) := by
    simp [quoted]
  rw [parseValue, hcons, skipWs_cons (by decide)]
  dsimp only
  rw [if_pos rfl, ← hcons, parseString_quoted]
  rfl

/-! ### Literals -/

theorem reads_flag (levels : ℕ) (b : Bool) : Reads (levels + 1) (Scalar.flag b).render (.bool b) := by
  intro rest _
  cases b <;> rfl

/-! ### Numbers -/

theorem isDigit_of_mem_decimal {n : ℕ} {c : Char} (h : c ∈ decimal n) : isDigit c = true := by
  have hdigit : c.isDigit = true := Nat.isDigit_of_mem_toDigits (by decide) (by decide) h
  rw [Char.isDigit, Bool.and_eq_true, decide_eq_true_iff, decide_eq_true_iff] at hdigit
  rw [isDigit, Bool.and_eq_true, decide_eq_true_iff, decide_eq_true_iff]
  exact hdigit

theorem digitsValue_decimal (n : ℕ) : digitsValue (decimal n) = n := by
  have h := takeDigits_toDigits (by decide : 1 < 10) (by decide) n []
  rw [List.append_nil] at h
  rw [digitsValue, decimal, h]
  rfl

theorem decimal_ne_nil (n : ℕ) : decimal n ≠ [] := toDigits_ne_nil (by decide) (by decide) n

theorem isSpace_of_isDigit {c : Char} (h : isDigit c = true) : isSpace c = false := by
  rw [isDigit, Bool.and_eq_true, decide_eq_true_iff, decide_eq_true_iff] at h
  have hlow : 48 ≤ c.toNat := h.1
  by_contra hspace
  rw [Bool.not_eq_false, isSpace] at hspace
  simp only [Bool.or_eq_true, decide_eq_true_eq] at hspace
  rcases hspace with ((((rfl | rfl) | rfl) | rfl) | hfeed) | hfeed
  · exact absurd hlow (by decide)
  · exact absurd hlow (by decide)
  · exact absurd hlow (by decide)
  · exact absurd hlow (by decide)
  · omega
  · omega

/-- What ends a value is no part of a number. -/
theorem Delimited.plain {c : Char} {rest : Text} (h : Delimited (c :: rest)) :
    isDigit c = false ∧ c ≠ '.' ∧ c ≠ 'e' ∧ c ≠ 'E' := by
  rcases h c rfl with rfl | rfl | rfl | hspace
  · decide
  · decide
  · decide
  · refine ⟨?_, ?_, ?_, ?_⟩
    · by_contra hdigit
      rw [Bool.not_eq_false] at hdigit
      exact absurd hspace (by rw [isSpace_of_isDigit hdigit]; decide)
    all_goals rintro rfl; exact absurd hspace (by decide)

/-- The whole part of a number is all of it where no point follows. -/
theorem takeMantissa_decimal (n : ℕ) {rest : Text} (h : Delimited rest) :
    takeMantissa (decimal n ++ rest) = some (n, 0, rest) := by
  have hdigits : ∀ c ∈ decimal n, isDigit c = true := fun c hc ↦ isDigit_of_mem_decimal hc
  have hstop : rest.takeWhile isDigit = [] ∧ rest.dropWhile isDigit = rest := by
    cases rest with
    | nil => exact ⟨rfl, rfl⟩
    | cons c rest => simp [h.plain.1]
  rw [takeMantissa, List.takeWhile_append_of_pos hdigits, List.dropWhile_append_of_pos hdigits,
    hstop.1, hstop.2, List.append_nil]
  dsimp only
  split
  · next hpoint => exact absurd rfl h.plain.2.1
  · rw [if_neg (decimal_ne_nil n), digitsValue_decimal]

theorem takeExponent_delimited {rest : Text} (h : Delimited rest) : takeExponent rest = (0, rest) := by
  cases rest with
  | nil => rfl
  | cons c rest =>
    rw [takeExponent, if_neg]
    exact fun hc ↦ hc.elim h.plain.2.2.1 h.plain.2.2.2

theorem takeMinus_printInt (n : ℤ) (rest : Text) :
    takeMinus (printInt n ++ rest) = (decide (n < 0), decimal n.natAbs ++ rest) := by
  unfold printInt
  split_ifs with hneg
  · rw [decide_eq_true hneg]
    rfl
  · obtain ⟨c, others, heq, -, -⟩ := head_toDigits (by decide : 1 < 10) (by decide) n.natAbs
    have hminus : c ≠ '-' :=
      (isNumeral_of_mem (by decide : 1 < 10) (by decide) (heq ▸ List.mem_cons_self)).plain.2.1
    rw [decimal, heq, List.cons_append, decide_eq_false hneg]
    unfold takeMinus
    split
    · next hc => exact absurd (List.cons.inj hc).1 hminus
    · rfl

/-- The doubles that a whole number may be rounded to without a failure. -/
def DoubleRange (n : ℤ) : Prop :=
  ¬(2 ^ 1024 ≤ |roundToDouble n| ∨ (roundToDouble n = 0 ∧ n.natAbs ≠ 0))

/-- A written number is read back as the nearest double. -/
theorem fromCharsDouble_printInt {n : ℤ} (hn : DoubleRange n) {rest : Text} (h : Delimited rest) :
    fromCharsDouble (printInt n ++ rest) = some (some (roundToDouble n), rest) := by
  have hscale : (n.natAbs : ℚ) * 10 ^ ((0 : ℤ) - ((0 : ℕ) : ℤ)) = n.natAbs := by simp
  have hsigned : (if decide (n < 0) = true then -(n.natAbs : ℚ) else n.natAbs) = (n : ℚ) := by
    by_cases hneg : n < 0
    · rw [if_pos (decide_eq_true hneg), Nat.cast_natAbs, abs_of_neg hneg]
      push_cast
      ring
    · rw [if_neg (by simpa using hneg), Nat.cast_natAbs, abs_of_nonneg (Int.not_lt.mp hneg)]
  rw [fromCharsDouble, takeMinus_printInt]
  dsimp only
  rw [takeMantissa_decimal n.natAbs h]
  dsimp only
  rw [takeExponent_delimited h]
  dsimp only
  rw [hscale, hsigned, if_neg hn]

/-- Whole numbers of at most 53 bits are doubles. -/
theorem doubleRange_of_lt {n : ℤ} (hn : |n| < 2 ^ 53) : DoubleRange n := by
  rw [DoubleRange, roundToDouble_intCast hn]
  rintro (hlarge | ⟨hzero, hnonzero⟩)
  · have hsmall : |(n : ℚ)| < 2 ^ 53 := by exact_mod_cast hn
    have hpow : (2 : ℚ) ^ 53 ≤ 2 ^ 1024 := pow_le_pow_right₀ one_le_two (by decide)
    exact absurd (hpow.trans hlarge) (not_le.mpr hsmall)
  · exact hnonzero (Int.natAbs_eq_zero.mpr (by exact_mod_cast hzero))

/-- No size is too large for a double. -/
theorem doubleRange_of_size {n : ℕ} (hn : n < sizeModulus) : DoubleRange n := by
  rcases Nat.eq_zero_or_pos n with rfl | hpos
  · exact doubleRange_of_lt (by decide)
  · obtain ⟨hlow, hhigh⟩ := roundToDouble_natCast hpos
    have hsize : (n : ℚ) < 2 ^ 64 := by exact_mod_cast hn
    have hsmall : 2 * (n : ℚ) < 2 ^ 65 := by linarith
    rw [DoubleRange, Int.cast_natCast, abs_of_pos hlow]
    rintro (hlarge | ⟨hzero, -⟩)
    · have hpow : (2 : ℚ) ^ 65 ≤ 2 ^ 1024 := pow_le_pow_right₀ one_le_two (by decide)
      exact absurd (hpow.trans (hlarge.trans hhigh)) (not_le.mpr hsmall)
    · exact hlow.ne' hzero

/-- A written number begins with a sign or a digit. -/
theorem head_printInt (n : ℤ) : ∃ c rest, printInt n = c :: rest ∧ (c = '-' ∨ isDigit c = true) := by
  unfold printInt
  split_ifs with hneg
  · exact ⟨'-', decimal n.natAbs, rfl, Or.inl rfl⟩
  · obtain ⟨c, rest, heq, -, -⟩ := head_toDigits (by decide : 1 < 10) (by decide) n.natAbs
    refine ⟨c, rest, heq, Or.inr (isDigit_of_mem_decimal (n := n.natAbs) ?_)⟩
    rw [decimal, heq]
    exact List.mem_cons_self

/-- A number is read as the nearest double. -/
theorem reads_rounded (levels : ℕ) {n : ℤ} (hn : DoubleRange n) :
    Reads (levels + 1) (printInt n) (.number (some (roundToDouble n))) := by
  intro rest hrest
  obtain ⟨c, others, heq, hc⟩ := head_printInt n
  have hplain : isSpace c = false ∧ c ≠ doubleQuote ∧ c ≠ '\x7b' ∧ c ≠ '[' := by
    rcases hc with rfl | hdigit
    · decide
    · refine ⟨isSpace_of_isDigit hdigit, ?_, ?_, ?_⟩
      all_goals rintro rfl; exact absurd hdigit (by decide)
  obtain ⟨hspace, hquote, hbrace, hbracket⟩ := hplain
  rw [parseValue, heq, List.cons_append, skipWs_cons hspace]
  dsimp only
  rw [if_neg hquote, if_neg hbrace, if_neg hbracket, if_pos hc, ← List.cons_append, ← heq,
    fromCharsDouble_printInt hn hrest]
  rfl

/-- A whole number of at most 53 bits is read back exactly. -/
theorem reads_printInt (levels : ℕ) {n : ℤ} (hn : |n| < 2 ^ 53) :
    Reads (levels + 1) (printInt n) (.number (some n)) := by
  have hread := reads_rounded levels (doubleRange_of_lt hn)
  rwa [roundToDouble_intCast hn] at hread

theorem castInt_intCast (n : ℤ) : castInt (some (n : ℚ)) = n := by
  simp [castInt]

/-! ### Arrays and objects -/

/-- A text of white space only. -/
abbrev Blank (text : Text) : Prop := ∀ c ∈ text, isSpace c = true

theorem Delimited.blank_append {blank rest : Text} (hblank : Blank blank) (hrest : Delimited rest) :
    Delimited (blank ++ rest) := by
  cases blank with
  | nil => exact hrest
  | cons c blank => exact delimited_cons (Or.inr (Or.inr (Or.inr (hblank c List.mem_cons_self)))) _

/-- There are as many commas as items behind the first. -/
theorem length_le_count_comma (item : Text) (items : List Text) :
    items.length ≤ (List.intercalate [','] (item :: items)).count ',' := by
  induction items generalizing item with
  | nil => exact Nat.zero_le _
  | cons second items ih =>
    have := ih second
    rw [List.intercalate_cons_cons, List.count_append, List.count_append, List.length_cons]
    have : List.count ',' [','] = 1 := by decide
    omega

/-- Skipping white space leaves every comma. -/
theorem count_comma_le_skipWs (text : Text) : text.count ',' ≤ (skipWs text).length := by
  have hsplit : text.count ',' = (text.takeWhile isSpace).count ',' + (skipWs text).count ',' := by
    rw [← List.count_append, skipWs, List.takeWhile_append_dropWhile]
  have hnone : (text.takeWhile isSpace).count ',' = 0 := by
    rw [List.count_eq_zero]
    intro hmem
    exact absurd (List.mem_takeWhile_imp hmem) (by decide)
  rw [hsplit, hnone, Nat.zero_add]
  exact List.count_le_length

theorem parseItems_skipWs (levels turns : ℕ) (text : Text) :
    parseItems (parseValue levels) turns (skipWs text) = parseItems (parseValue levels) turns text := by
  cases turns with
  | zero => rfl
  | succ turns => rw [parseItems, parseItems, parseValue_skipWs]

/-- No item begins with the closing bracket. -/
theorem parseItems_closing {levels : ℕ} {text rest : Text} (h : skipWs text = ']' :: rest)
    (turns : ℕ) : parseItems (parseValue levels) turns text = none := by
  cases turns with
  | zero => rfl
  | succ turns => rw [parseItems, parseValue_closing h]

/-- The array loop reads items with commas between them up to the bracket. -/
theorem parseItems_intercalate {levels : ℕ} {lead tail : Text} (hlead : Blank lead)
    (htail : Blank tail) {item : Text} {value : JsonValue} (hitem : Reads levels item value)
    {items : List Text} {values : List JsonValue} (hitems : List.Forall₂ (Reads levels) items values)
    {turns : ℕ} (hturns : items.length < turns) (rest : Text) :
    parseItems (parseValue levels) turns
      (List.intercalate [','] ((item :: items).map (lead ++ ·)) ++ (tail ++ ']' :: rest)) =
        some (value :: values, rest) := by
  induction hitems generalizing item value turns with
  | nil =>
    obtain ⟨turns, rfl⟩ := Nat.exists_eq_succ_of_ne_zero (Nat.ne_of_gt hturns)
    have hend : Delimited (tail ++ ']' :: rest) :=
      Delimited.blank_append htail (delimited_cons (by decide) rest)
    rw [List.map_singleton, List.intercalate_singleton, List.append_assoc, parseItems,
      parseValue_blank hlead, hitem _ hend]
    dsimp only
    rw [skipWs_append htail, skipWs_cons (by decide)]
    rfl
  | @cons second secondValue items values hsecond _ ih =>
    obtain ⟨turns, rfl⟩ := Nat.exists_eq_succ_of_ne_zero (Nat.ne_zero_of_lt hturns)
    have hfewer : items.length < turns := by simpa using hturns
    have hnext := ih hsecond hfewer
    rw [List.map_cons] at hnext
    rw [List.map_cons, List.map_cons, List.intercalate_cons_cons]
    simp only [List.append_assoc, List.cons_append, List.nil_append]
    rw [parseItems, parseValue_blank hlead, hitem _ (delimited_cons (by decide) _)]
    dsimp only
    rw [skipWs_cons (by decide)]
    split
    · next hclose => exact absurd (List.cons.inj hclose).1 (by decide)
    · rw [consume_cons (by decide)]
      dsimp only
      rw [hnext]
      rfl

/-- An array of texts that are read is read as the array of their values. -/
theorem reads_arrayText {levels : ℕ} {lead tail : Text} (hlead : Blank lead) (htail : Blank tail)
    {items : List Text} {values : List JsonValue}
    (hitems : List.Forall₂ (Reads levels) items values) :
    Reads (levels + 1) (arrayText lead tail items) (.array values) := by
  intro rest _
  have hopen : arrayText lead tail items ++ rest =
      '[' :: (List.intercalate [','] (items.map (lead ++ ·)) ++ (tail ++ ']' :: rest)) := by
    simp [arrayText]
  rw [parseValue, hopen, skipWs_cons (by decide)]
  dsimp only
  rw [if_neg (by decide), if_neg (by decide), if_pos rfl]
  cases hitems with
  | nil =>
    have hclose : skipWs (List.intercalate [','] (([] : List Text).map (lead ++ ·)) ++
        (tail ++ ']' :: rest)) = ']' :: rest := by
      rw [List.map_nil, List.intercalate_nil, List.nil_append, skipWs_append htail,
        skipWs_cons (by decide)]
    rw [hclose]
    rfl
  | @cons item value items values hitem hitems =>
    set text := List.intercalate [','] ((item :: items).map (lead ++ ·)) ++ (tail ++ ']' :: rest)
      with htext
    have hcommas : items.length < (skipWs text).length + 1 := by
      have hitemsLe : items.length ≤ text.count ',' := by
        have hcommas := length_le_count_comma (lead ++ item) (items.map (lead ++ ·))
        rw [List.length_map] at hcommas
        rw [htext, List.count_append, List.map_cons]
        exact Nat.le_add_right_of_le hcommas
      exact Nat.lt_succ_of_le (hitemsLe.trans (count_comma_le_skipWs text))
    have hloop := parseItems_intercalate hlead htail hitem hitems hcommas rest
    rw [← htext] at hloop
    split
    · next hclose =>
      rw [parseItems_closing hclose] at hloop
      cases hloop
    · rw [parseItems_skipWs, hloop]
      rfl

/-- A member of an object is read as a field. -/
def ReadsMember (levels : ℕ) (member : String × Text) (field : Text × JsonValue) : Prop :=
  field.1 = member.1.toList ∧ Reads levels member.2 field.2

theorem parseMembers_skipWs (levels turns : ℕ) (text : Text) :
    parseMembers (parseValue levels) turns (skipWs text) =
      parseMembers (parseValue levels) turns text := by
  cases turns with
  | zero => rfl
  | succ turns => rw [parseMembers, parseMembers, skipWs_skipWs]

/-- No member begins with the closing brace. -/
theorem parseMembers_closing {levels : ℕ} {text rest : Text} (h : skipWs text = '\x7d' :: rest)
    (turns : ℕ) : parseMembers (parseValue levels) turns text = none := by
  cases turns with
  | zero => rfl
  | succ turns =>
    rw [parseMembers, h]
    rfl

/-- What a turn of the object loop reads of a member. -/
theorem parseMember {levels : ℕ} {lead gap : Text} (hlead : Blank lead) (hgap : Blank gap)
    {member : String × Text} {field : Text × JsonValue} (h : ReadsMember levels member field)
    {rest : Text} (hrest : Delimited rest) :
    parseString (skipWs (lead ++ (quoted member.1.toList ++ ':' :: (gap ++ (member.2 ++ rest))))) =
        some (field.1, ':' :: (gap ++ (member.2 ++ rest))) ∧
      consume ':' (':' :: (gap ++ (member.2 ++ rest))) = some (gap ++ (member.2 ++ rest)) ∧
      parseValue levels (gap ++ (member.2 ++ rest)) = some (field.2, rest) := by
  have hkey : skipWs (quoted member.1.toList ++ ':' :: (gap ++ (member.2 ++ rest))) =
      quoted member.1.toList ++ ':' :: (gap ++ (member.2 ++ rest)) :=
    skipWs_cons (by decide) _
  refine ⟨?_, ?_, ?_⟩
  · rw [skipWs_append hlead, hkey, parseString_quoted, h.1]
  · exact consume_cons (by decide) _
  · rw [parseValue_blank hgap, h.2 rest hrest]

/-- The object loop reads members with commas between them up to the brace. -/
theorem parseMembers_intercalate {levels : ℕ} {lead gap tail : Text} (hlead : Blank lead)
    (hgap : Blank gap) (htail : Blank tail) {member : String × Text} {field : Text × JsonValue}
    (hmember : ReadsMember levels member field) {members : List (String × Text)}
    {fields : List (Text × JsonValue)} (hmembers : List.Forall₂ (ReadsMember levels) members fields)
    {turns : ℕ} (hturns : members.length < turns) (rest : Text) :
    parseMembers (parseValue levels) turns
      (List.intercalate [','] ((member :: members).map fun member ↦
        lead ++ (quoted member.1.toList ++ ':' :: (gap ++ member.2))) ++ (tail ++ '\x7d' :: rest)) =
        some (field :: fields, rest) := by
  induction hmembers generalizing member field turns with
  | nil =>
    obtain ⟨turns, rfl⟩ := Nat.exists_eq_succ_of_ne_zero (Nat.ne_of_gt hturns)
    obtain ⟨hkey, hcolon, hvalue⟩ := parseMember hlead hgap hmember
      (Delimited.blank_append htail (delimited_cons (c := '\x7d') (by decide) rest))
    rw [List.map_singleton, List.intercalate_singleton]
    simp only [List.append_assoc, List.cons_append]
    rw [parseMembers, hkey]
    dsimp only
    rw [hcolon]
    dsimp only
    rw [hvalue]
    dsimp only
    rw [skipWs_append htail, skipWs_cons (by decide)]
    rfl
  | @cons second secondField members fields hsecond _ ih =>
    obtain ⟨turns, rfl⟩ := Nat.exists_eq_succ_of_ne_zero (Nat.ne_zero_of_lt hturns)
    have hfewer : members.length < turns := by simpa using hturns
    have hnext := ih hsecond hfewer
    rw [List.map_cons] at hnext
    rw [List.map_cons, List.map_cons, List.intercalate_cons_cons]
    simp only [List.append_assoc, List.cons_append, List.nil_append] at hnext ⊢
    obtain ⟨hkey, hcolon, hvalue⟩ := parseMember hlead hgap hmember
      (delimited_cons (c := ',') (by decide) _)
    rw [parseMembers, hkey]
    dsimp only
    rw [hcolon]
    dsimp only
    rw [hvalue]
    dsimp only
    rw [skipWs_cons (by decide)]
    split
    · next hclose => exact absurd (List.cons.inj hclose).1 (by decide)
    · rw [consume_cons (by decide)]
      dsimp only
      rw [hnext]
      rfl

/-- An object whose members are read is read as the object of their fields. -/
theorem reads_objectText {levels : ℕ} {lead gap tail : Text} (hlead : Blank lead) (hgap : Blank gap)
    (htail : Blank tail) {members : List (String × Text)} {fields : List (Text × JsonValue)}
    (hmembers : List.Forall₂ (ReadsMember levels) members fields) :
    Reads (levels + 1) (objectText lead gap tail members) (.object fields) := by
  intro rest _
  have hopen : objectText lead gap tail members ++ rest =
      '\x7b' :: (List.intercalate [','] (members.map fun member ↦
        lead ++ (quoted member.1.toList ++ ':' :: (gap ++ member.2))) ++
          (tail ++ '\x7d' :: rest)) := by
    simp [objectText]
  rw [parseValue, hopen, skipWs_cons (by decide)]
  dsimp only
  rw [if_neg (by decide), if_pos rfl]
  cases hmembers with
  | nil =>
    rw [List.map_nil, List.intercalate_nil, List.nil_append, skipWs_append htail,
      skipWs_cons (by decide)]
    rfl
  | @cons member field members fields hmember hmembers =>
    set written := fun member : String × Text ↦
      lead ++ (quoted member.1.toList ++ ':' :: (gap ++ member.2)) with hwritten
    set text := List.intercalate [','] ((member :: members).map written) ++
      (tail ++ '\x7d' :: rest) with htext
    have hcommas : members.length < (skipWs text).length + 1 := by
      have hmembersLe : members.length ≤ text.count ',' := by
        have hcommas := length_le_count_comma (written member) (members.map written)
        rw [List.length_map] at hcommas
        rw [htext, List.count_append, List.map_cons]
        exact Nat.le_add_right_of_le hcommas
      exact Nat.lt_succ_of_le (hmembersLe.trans (count_comma_le_skipWs text))
    have hloop := parseMembers_intercalate hlead hgap htail hmember hmembers hcommas rest
    rw [← hwritten, ← htext] at hloop
    split
    · next hclose =>
      rw [parseMembers_closing hclose] at hloop
      cases hloop
    · rw [parseMembers_skipWs, hloop]
      rfl

end Cecore.Table
