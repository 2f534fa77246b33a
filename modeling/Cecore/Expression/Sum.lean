import Cecore.Core.Digits
import Cecore.Expression.Parser

/-!
# Sums of terms

The expressions that the parser is for: terms joined by `+` and `-`, where a term is a number, a
name or a sum in brackets. `Sum.total` is the signed sum of the values from left to right. The
parser computes it modulo `2^64` on the sums it can cut (`Sum.Regular`): where a bracketed first
term is not followed by a subtraction of more than one term, no term in front of an operator ends in
`x`, and module names do not get in the way of the cut.
-/

set_option autoImplicit false
set_option relaxedAutoImplicit false

namespace Cecore.Expression

open Platform

/-! ### The grammar -/

inductive Atom
  | hex (digits : Text)
  | prefixed (x : Char) (digits : Text)
  | decimal (digits : Text)
  | name (name : Text)
  deriving DecidableEq, Repr

mutual

inductive Term
  | atom (atom : Atom)
  | deref (address : Sum)

/-- Terms with the blanks in front of and behind each operator. -/
inductive Sum
  | one (term : Term)
  | more (term : Term) (after : Text) (minus : Bool) (before : Text) (rest : Sum)

end

def Atom.text : Atom → Text
  | .hex digits => digits
  | .prefixed x digits => '0' :: x :: digits
  | .decimal digits => '#' :: digits
  | .name text => text

def operator (minus : Bool) : Char := if minus then '-' else '+'

mutual

def Term.text : Term → Text
  | .atom a => a.text
  | .deref s => '[' :: (s.text ++ [']'])

def Sum.text : Sum → Text
  | .one t => t.text
  | .more t after minus before rest => t.text ++ (after ++ operator minus :: (before ++ rest.text))

end

/-- The number that digits of a base spell. -/
def digitsValue (base : ℕ) (digits : Text) : ℕ :=
  digits.foldl (fun value c ↦ value * base + (digitValue c).getD 0) 0

section Meaning

variable (parser : ExpressionParser)

def Atom.value : Atom → Option ℕ
  | .hex digits => some (digitsValue 16 digits)
  | .prefixed _ digits => some (digitsValue 16 digits)
  | .decimal digits => some (digitsValue 10 digits)
  | .name text => parser.nameAddress text

/-- `acc` with a term added or subtracted. -/
def signed (acc : ℤ) (minus : Bool) (value : ℕ) : ℤ := if minus then acc - value else acc + value

mutual

/-- The value of a term; a bracket is the pointer at the address inside. -/
def Term.value : Term → Option ℕ
  | .atom a => a.value parser
  | .deref s =>
    match s.total 0 false, parser.proc with
    | some address, some proc =>
      ExpressionParser.pointerAt proc (address % (sizeModulus : ℤ)).toNat
    | _, _ => none

/-- The signed sum of the terms in order, from `acc` and the operator in front. -/
def Sum.total : Sum → (acc : ℤ) → (minus : Bool) → Option ℤ
  | .one t, acc, minus => t.value.map fun value ↦ signed acc minus value
  | .more t _ next _ rest, acc, minus =>
    match t.value with
    | none => none
    | some value => rest.total (signed acc minus value) next

end

/-! ### Well-formed sums -/

/-- The token is read as what it is. -/
def Atom.WellFormed : Atom → Prop
  | .hex digits => digits ≠ [] ∧ digits.all isHexDigit = true ∧
      (2 ≤ digits.length ∨ digits.all isDigit = true ∨ parser.nameAddress digits = none)
  | .prefixed x digits => (x = 'x' ∨ x = 'X') ∧ digits ≠ [] ∧ digits.all isHexDigit = true
  | .decimal digits => digits ≠ [] ∧ digits.all isDigit = true
  | .name text => text ≠ [] ∧ '[' ∉ text ∧ ']' ∉ text ∧
      (text.head?.any isBlank = false) ∧ (text.getLast?.any isBlank = false) ∧
      text.head? ≠ some '#' ∧
      ¬(2 < text.length ∧ text.head? = some '0' ∧
        (text.tail.head? = some 'x' ∨ text.tail.head? = some 'X')) ∧
      ¬(text.all isHexDigit = true ∧ (2 ≤ text.length ∨ text.all isDigit = true)) ∧
      (text.head?.any isOperator = false)

mutual

def Term.WellFormed : Term → Prop
  | .atom a => a.WellFormed parser
  | .deref s => s.WellFormed

def Sum.WellFormed : Sum → Prop
  | .one t => t.WellFormed
  | .more t after _ before rest =>
    t.WellFormed ∧ after.all isBlank = true ∧ before.all isBlank = true ∧ rest.WellFormed

end

/-! ### Sums that the parser cuts where they end -/

/-- A number the conversion has room for. -/
def Atom.Fits : Atom → Prop
  | .hex digits | .prefixed _ digits => digitsValue 16 digits < sizeModulus
  | .decimal digits => digitsValue 10 digits < sizeModulus
  | .name _ => True

/-- The parser takes the token, with the blanks around it, for the next term: no module name gets in
the way of the cut at the operator, or the token is a module name itself. `rest` is what follows. -/
def Atom.CutAt (atStart : Bool) (before after : Text) (rest : Text) (a : Atom) : Prop :=
  (before = [] ∧ after = [] ∧
      ExpressionParser.moduleLength parser.modules (a.text ++ rest) = a.text.length) ∨
    ExpressionParser.moduleLength parser.modules (before ++ a.text ++ after ++ rest) = 0 ∧
      a.text.any isOperator = false ∧
      (after = [] → rest ≠ [] →
        a.text.getLast? ≠ some 'x' ∧ a.text.getLast? ≠ some 'X' ∨
          atStart = true ∧ before = [] ∧ a.text.length = 1)

mutual

/-- The sum of a bracket, or a whole expression. -/
def Sum.Regular : Sum → Prop
  | .one (.deref s) => s.Regular
  | .one (.atom a) => a.Fits ∧ a.CutAt parser true [] [] []
  | .more (.deref s) _ false _ rest => s.Regular ∧ rest.Regular
  | .more (.deref s) _ true _ rest => s.Regular ∧ rest.Regular ∧ ∃ t, rest = .one t
  | .more (.atom a) after minus before rest =>
    a.Fits ∧ a.CutAt parser true [] after (operator minus :: (before ++ rest.text)) ∧
      rest.Plain before

/-- The terms behind the first operator of an expression that starts with a number or a name. -/
def Sum.Plain : Sum → (before : Text) → Prop
  | .one (.deref s), before => s.Regular ∧
      ExpressionParser.moduleLength parser.modules (before ++ (Term.deref s).text) = 0
  | .one (.atom a), before => a.Fits ∧ a.CutAt parser false before [] []
  | .more (.deref s) after minus next rest, before => s.Regular ∧
      ExpressionParser.moduleLength parser.modules
        (before ++ (Sum.more (.deref s) after minus next rest).text) = 0 ∧ rest.Plain next
  | .more (.atom a) after minus next rest, before =>
    a.Fits ∧ a.CutAt parser false before after (operator minus :: (next ++ rest.text)) ∧
      rest.Plain next

end

end Meaning

mutual

/-- How many levels of nesting a term takes. -/
def Term.levels : Term → ℕ
  | .atom _ => 0
  | .deref s => s.levels + 1

/-- How many levels of nesting an expression takes; what follows a bracketed first term takes one
more. -/
def Sum.levels : Sum → ℕ
  | .one (.deref s) => s.levels + 1
  | .one (.atom _) => 1
  | .more (.deref s) _ _ _ rest => max s.levels rest.levels + 1
  | .more (.atom _) _ _ _ rest => rest.plainLevels + 1

def Sum.plainLevels : Sum → ℕ
  | .one t => t.levels
  | .more t _ _ _ rest => max t.levels rest.plainLevels

end

/-! ### Blanks and brackets -/

/-- A text that trimming leaves as it is. -/
structure Solid (w : Text) : Prop where
  head : ∃ c, w.head? = some c ∧ isBlank c = false
  last : ∃ c, w.getLast? = some c ∧ isBlank c = false

theorem dropWhile_blank {b w : Text} (hb : b.all isBlank = true)
    (hw : ∃ c, w.head? = some c ∧ isBlank c = false) : (b ++ w).dropWhile isBlank = w := by
  obtain ⟨c, hc, hblank⟩ := hw
  rw [List.dropWhile_append_of_pos (by simpa using hb)]
  cases w with
  | nil => cases hc
  | cons first rest =>
    obtain rfl : first = c := Option.some.inj hc
    rw [List.dropWhile_cons_of_neg (by simp [hblank])]

/-- Trimming takes the blanks around a text off. -/
theorem trim_pad (before after : Text) {w : Text} (hbefore : before.all isBlank = true)
    (hafter : after.all isBlank = true) (hw : Solid w) : trim (before ++ (w ++ after)) = w := by
  obtain ⟨c, hc, hblank⟩ := hw.head
  have hhead : ∃ c, (w ++ after).head? = some c ∧ isBlank c = false :=
    ⟨c, by rw [List.head?_append, hc]; rfl, hblank⟩
  obtain ⟨d, hd, hdBlank⟩ := hw.last
  have hlast : ∃ c, w.reverse.head? = some c ∧ isBlank c = false :=
    ⟨d, by rw [List.head?_reverse, hd], hdBlank⟩
  have hreverse : after.reverse.all isBlank = true := by rw [List.all_reverse, hafter]
  rw [trim, dropWhile_blank hbefore hhead, List.reverse_append, dropWhile_blank hreverse hlast,
    List.reverse_reverse]

theorem trim_solid {w : Text} (hw : Solid w) : trim w = w := by
  have hpad := trim_pad [] [] rfl rfl hw
  rwa [List.nil_append, List.append_nil] at hpad

theorem Solid.ne_nil {w : Text} (hw : Solid w) : w ≠ [] := by
  rintro rfl
  obtain ⟨c, hc, -⟩ := hw.head
  cases hc

/-- Texts whose brackets match. -/
inductive Balanced : Text → Prop
  | nil : Balanced []
  | char {c : Char} {w : Text} (hopen : c ≠ '[') (hclose : c ≠ ']') (hw : Balanced w) :
      Balanced (c :: w)
  | bracket {inner w : Text} (hinner : Balanced inner) (hw : Balanced w) :
      Balanced ('[' :: (inner ++ ']' :: w))

theorem Balanced.append {v w : Text} (hv : Balanced v) (hw : Balanced w) : Balanced (v ++ w) := by
  induction hv with
  | nil => exact hw
  | char hopen hclose _ ih => exact .char hopen hclose ih
  | bracket hinner _ _ ih =>
    rw [List.cons_append, List.append_assoc, List.cons_append]
    exact .bracket hinner ih

theorem Balanced.of_not_mem {w : Text} (hopen : '[' ∉ w) (hclose : ']' ∉ w) : Balanced w := by
  induction w with
  | nil => exact .nil
  | cons c w ih =>
    rw [List.mem_cons, not_or] at hopen hclose
    exact .char (Ne.symm hopen.1) (Ne.symm hclose.1) (ih hopen.2 hclose.2)

namespace ExpressionParser

theorem closing_balanced {w : Text} (hw : Balanced w) (depth : ℕ) (rest : Text) :
    closing (depth + 1) (w ++ rest) =
      (closing (depth + 1) rest).map fun (inner, behind) ↦ (w ++ inner, behind) := by
  induction hw generalizing depth rest with
  | nil => simp
  | char hopen hclose _ ih =>
    rw [List.cons_append, closing, if_neg hopen, if_neg hclose, ih]
    simp [Option.map_map, Function.comp_def]
  | bracket _ _ ihInner ih =>
    rw [List.cons_append, List.append_assoc, closing, if_pos rfl, ihInner, List.cons_append, closing,
      if_neg (by decide), if_pos rfl, if_neg (by omega), Nat.add_sub_cancel, ih]
    simp [Option.map_map, Function.comp_def]

/-- The bracket that closes a balanced text. -/
theorem closing_inner {w : Text} (hw : Balanced w) (behind : Text) :
    closing 1 (w ++ ']' :: behind) = some (w, behind) := by
  rw [closing_balanced hw 0, closing, if_neg (by decide), if_pos rfl, if_pos rfl]
  simp

/-- No operator is seen inside brackets. -/
theorem scanTerm_balanced {w : Text} (hw : Balanced w) (bd : ℕ) (guarded : Bool) (previous : Char)
    (rest : Text) : ∃ guarded' previous', scanTerm (bd + 1) guarded previous (w ++ rest) =
      (w ++ (scanTerm (bd + 1) guarded' previous' rest).1,
        (scanTerm (bd + 1) guarded' previous' rest).2) := by
  induction hw generalizing bd guarded previous rest with
  | nil => exact ⟨guarded, previous, rfl⟩
  | @char c w hopen hclose _ ih =>
    obtain ⟨guarded', previous', hscan⟩ := ih bd true c rest
    refine ⟨guarded', previous', ?_⟩
    rw [List.cons_append, scanTerm, if_neg hopen, if_neg hclose, if_neg (by omega), hscan]
    rfl
  | @bracket inner w _ _ ihInner ih =>
    obtain ⟨_, previousInner, hinner⟩ := ihInner (bd + 1) true '[' (']' :: (w ++ rest))
    obtain ⟨guarded', previous', hscan⟩ := ih bd true ']' rest
    refine ⟨guarded', previous', ?_⟩
    rw [List.cons_append, List.append_assoc, scanTerm, if_pos rfl, List.cons_append, hinner, scanTerm,
      if_neg (by decide), if_pos rfl, Nat.add_sub_cancel, hscan]
    simp

/-- A text without operators and brackets is passed over. -/
theorem scanTerm_flat {w : Text} (hopen : '[' ∉ w) (hclose : ']' ∉ w)
    (hop : w.any isOperator = false) (guarded : Bool) (previous : Char) (rest : Text) :
    scanTerm 0 guarded previous (w ++ rest) =
      (w ++ (scanTerm 0 (guarded || !w.isEmpty) ((previous :: w).getLast (List.cons_ne_nil _ _))
          rest).1,
        (scanTerm 0 (guarded || !w.isEmpty) ((previous :: w).getLast (List.cons_ne_nil _ _))
          rest).2) := by
  induction w generalizing guarded previous with
  | nil => simp
  | cons c w ih =>
    rw [List.mem_cons, not_or] at hopen hclose
    rw [List.any_cons, Bool.or_eq_false_iff] at hop
    rw [List.cons_append, scanTerm, if_neg (Ne.symm hopen.1), if_neg (Ne.symm hclose.1),
      if_neg (by simp [hop.1]), ih hopen.2 hclose.2 hop.2]
    simp

/-- A scan stops in front of an operator that is not behind an `x`. -/
theorem scanTerm_stop {guarded : Bool} {previous : Char} {rest : Text}
    (hrest : rest = [] ∨ ∃ minus more, rest = operator minus :: more ∧
      ¬(guarded = true ∧ (previous = 'x' ∨ previous = 'X'))) :
    scanTerm 0 guarded previous rest = ([], rest) := by
  rcases hrest with rfl | ⟨minus, more, rfl, hguard⟩
  · rfl
  · have hop : isOperator (operator minus) = true := by cases minus <;> rfl
    have hopen : operator minus ≠ '[' := by cases minus <;> decide
    have hclose : operator minus ≠ ']' := by cases minus <;> decide
    rw [scanTerm, if_neg hopen, if_neg hclose, if_pos ⟨rfl, hop, hguard⟩]

end ExpressionParser

/-! ### Tokens -/

/-- The characters of numbers. -/
theorem isHexDigit_cases {c : Char} (h : isHexDigit c = true) :
    ∃ digit, digitValue c = some digit ∧ digit < 16 ∧ isBlank c = false ∧ isSpace c = false ∧
      isOperator c = false ∧ c ≠ '[' ∧ c ≠ ']' ∧ c ≠ '#' ∧ c ≠ 'x' ∧ c ≠ 'X' := by
  unfold isHexDigit at h
  cases hdigit : digitValue c with
  | none => simp [hdigit] at h
  | some digit =>
    refine ⟨digit, rfl, by simpa [hdigit] using h, ?_⟩
    have hlt : digit < 16 := by simpa [hdigit] using h
    have hne : ∀ d : Char, (digitValue d = none ∨ digitValue d = some 33) → c ≠ d := by
      rintro d hd rfl
      rw [hdigit] at hd
      rcases hd with hd | hd
      · cases hd
      · have h33 : digit = 33 := Option.some.inj hd
        omega
    have h1 := hne ' ' (by decide)
    have h2 := hne '\t' (by decide)
    have h3 := hne '\n' (by decide)
    have h4 := hne '\r' (by decide)
    have h5 := hne '+' (by decide)
    have h6 := hne '-' (by decide)
    have h7 : c.toNat ≠ 11 := fun hc ↦ hne (Char.ofNat 11) (by decide) (by rw [← hc, Char.ofNat_toNat])
    have h8 : c.toNat ≠ 12 := fun hc ↦ hne (Char.ofNat 12) (by decide) (by rw [← hc, Char.ofNat_toNat])
    refine ⟨?_, ?_, ?_, hne '[' (by decide), hne ']' (by decide), hne '#' (by decide),
      hne 'x' (by decide), hne 'X' (by decide)⟩
    · simp [isBlank, h1, h2]
    · simp [isSpace, h1, h2, h3, h4, h7, h8]
    · simp [isOperator, h5, h6]

theorem isDigit_cases {c : Char} (h : isDigit c = true) :
    isHexDigit c = true ∧ ∃ digit, digitValue c = some digit ∧ digit < 10 := by
  have hle : '0' ≤ c ∧ c ≤ '9' := by simpa [isDigit] using h
  have hvalue : digitValue c = some (c.toNat - 48) := by rw [digitValue, if_pos hle]
  have hlow : c.toNat ≤ 57 := hle.2
  refine ⟨?_, c.toNat - 48, hvalue, by omega⟩
  rw [isHexDigit, hvalue]
  simp only [Option.any_some, decide_eq_true_eq]
  omega

/-- Reading digits to the end of the text. -/
theorem takeDigits_all {base : ℕ} {digits : Text}
    (h : ∀ c ∈ digits, ∃ digit, digitValue c = some digit ∧ digit < base) (value : ℕ) :
    takeDigits base value digits =
      (digits.foldl (fun value c ↦ value * base + (digitValue c).getD 0) value, []) := by
  induction digits generalizing value with
  | nil => rfl
  | cons c rest ih =>
    obtain ⟨digit, hdigit, hlt⟩ := h c List.mem_cons_self
    rw [takeDigits, hdigit]
    dsimp only
    rw [if_pos hlt, ih fun d hd ↦ h d (List.mem_cons_of_mem _ hd), List.foldl_cons, hdigit]
    rfl

theorem isHexDigit_of_mem_hex {value : ℕ} {c : Char} (hc : c ∈ hex value) : isHexDigit c = true := by
  obtain ⟨d, hd, rfl⟩ := isNumeral_of_mem (by decide) (by decide) hc
  rw [isHexDigit, digitValue_digitChar hd]
  simpa using hd

theorem isOperator_of_mem_hex {value : ℕ} {c : Char} (hc : c ∈ hex value) : isOperator c = false := by
  obtain ⟨-, hminus, hplus, -, -⟩ := (isNumeral_of_mem (by decide) (by decide) hc).plain
  simp [isOperator, hminus, hplus]

theorem hex_ne_nil (value : ℕ) : hex value ≠ [] := toDigits_ne_nil (by decide) (by decide) value

/-- Digits spell the number that they are written for. -/
theorem digitsValue_hex (value : ℕ) : digitsValue 16 (hex value) = value := by
  have hdigits : ∀ c ∈ hex value, ∃ digit, digitValue c = some digit ∧ digit < 16 := by
    intro c hc
    obtain ⟨d, hd, rfl⟩ := isNumeral_of_mem (by decide) (by decide) hc
    exact ⟨d, digitValue_digitChar hd, hd⟩
  have hread : takeDigits 16 0 (hex value ++ []) = takeDigits 16 value [] :=
    takeDigits_toDigits (by decide) (by decide) value []
  rw [List.append_nil, takeDigits_all hdigits 0] at hread
  exact (Prod.ext_iff.mp hread).1

/-- Digits are read to the end. -/
theorem readInteger_digits {base : ℕ} {digits : Text} (hne : digits ≠ [])
    (hhex : ∀ c ∈ digits, isHexDigit c = true)
    (h : ∀ c ∈ digits, ∃ digit, digitValue c = some digit ∧ digit < base) :
    readInteger base digits = some (false, digitsValue base digits, []) := by
  cases digits with
  | nil => exact absurd rfl hne
  | cons c rest =>
    obtain ⟨-, -, -, -, hspace, hop, -⟩ := isHexDigit_cases (hhex c List.mem_cons_self)
    obtain ⟨digit, hdigit, hlt⟩ := h c List.mem_cons_self
    have hsign : takeSign (c :: rest) = (false, c :: rest) := by
      simp only [isOperator, Bool.or_eq_false_iff, decide_eq_false_iff_not] at hop
      unfold takeSign
      split
      · next heq => exact absurd (List.cons.inj heq).1 hop.2
      · next heq => exact absurd (List.cons.inj heq).1 hop.1
      · rfl
    have hnumberStart : numberPrefix base (c :: rest) = (base, c :: rest) := by
      have hbase0 : base ≠ 0 := by omega
      unfold numberPrefix
      split
      · next x tail heq =>
        obtain ⟨-, hrest⟩ := List.cons.inj heq
        obtain ⟨-, -, -, -, -, -, -, -, -, hx, hX⟩ :=
          isHexDigit_cases (hhex x (by rw [hrest]; simp))
        rw [if_neg (by simp [hx, hX]), if_neg hbase0, heq]
      · rw [if_neg hbase0]
    have hstarts : startsDigit base (c :: rest) = true := by simp [startsDigit, hdigit, hlt]
    rw [readInteger, List.dropWhile_cons_of_neg (by simp [hspace]), hsign]
    dsimp only
    rw [hnumberStart]
    dsimp only
    rw [if_pos hstarts, takeDigits_all h 0]
    rfl

/-- The value of a number is the one its digits spell. -/
theorem number_digits {base : ℕ} {digits : Text} (hne : digits ≠ [])
    (hhex : ∀ c ∈ digits, isHexDigit c = true)
    (h : ∀ c ∈ digits, ∃ digit, digitValue c = some digit ∧ digit < base)
    (hfits : digitsValue base digits < sizeModulus) :
    ExpressionParser.number base digits = digitsValue base digits := by
  rw [ExpressionParser.number, stoull, readInteger_digits hne hhex h]
  dsimp only
  rw [if_pos hfits]
  simp

section Atoms

variable {parser : ExpressionParser} {a : Atom}

/-- What the scan has to know of a token. -/
theorem Atom.text_solid (h : a.WellFormed parser) : Solid a.text ∧ '[' ∉ a.text ∧ ']' ∉ a.text := by
  have hdigits : ∀ digits : Text, digits ≠ [] → (∀ c ∈ digits, isHexDigit c = true) →
      ('[' ∉ digits ∧ ']' ∉ digits) ∧ (∃ c, digits.head? = some c ∧ isBlank c = false) ∧
        ∃ c, digits.getLast? = some c ∧ isBlank c = false := by
    intro digits hne hhex
    have hblank : ∀ c ∈ digits, isBlank c = false := fun c hc ↦ by
      obtain ⟨-, -, -, hblank, -⟩ := isHexDigit_cases (hhex c hc)
      exact hblank
    refine ⟨⟨fun hc ↦ absurd (hhex _ hc) (by decide), fun hc ↦ absurd (hhex _ hc) (by decide)⟩,
      ⟨digits.head hne, List.head?_eq_some_head hne, hblank _ (List.head_mem hne)⟩,
      ⟨digits.getLast hne, List.getLast?_eq_some_getLast hne, hblank _ (List.getLast_mem hne)⟩⟩
  cases a with
  | hex digits =>
    obtain ⟨hne, hall, -⟩ := h
    obtain ⟨⟨hopen, hclose⟩, hhead, hlast⟩ := hdigits digits hne (by simpa using hall)
    exact ⟨⟨hhead, hlast⟩, hopen, hclose⟩
  | prefixed x digits =>
    obtain ⟨hx, hne, hall⟩ := h
    obtain ⟨⟨hopen, hclose⟩, -, c, hc, hblank⟩ := hdigits digits hne (by simpa using hall)
    refine ⟨⟨⟨'0', rfl, rfl⟩, c, ?_, hblank⟩, ?_, ?_⟩
    · rw [Atom.text, List.getLast?_cons_cons, List.getLast?_cons, hc]
      rfl
    · rcases hx with rfl | rfl <;> simp [Atom.text, hopen]
    · rcases hx with rfl | rfl <;> simp [Atom.text, hclose]
  | decimal digits =>
    obtain ⟨hne, hall⟩ := h
    obtain ⟨⟨hopen, hclose⟩, -, c, hc, hblank⟩ := hdigits digits hne
      fun d hd ↦ (isDigit_cases (List.all_eq_true.mp hall d hd)).1
    refine ⟨⟨⟨'#', rfl, rfl⟩, c, ?_, hblank⟩, by simp [Atom.text, hopen], by simp [Atom.text, hclose]⟩
    rw [Atom.text, List.getLast?_cons, hc]
    rfl
  | name text =>
    obtain ⟨hne, hopen, hclose, hhead, hlast, -⟩ := h
    refine ⟨⟨⟨text.head hne, List.head?_eq_some_head hne, ?_⟩,
      text.getLast hne, List.getLast?_eq_some_getLast hne, ?_⟩, hopen, hclose⟩
    · rw [List.head?_eq_some_head hne] at hhead
      exact hhead
    · rw [List.getLast?_eq_some_getLast hne] at hlast
      exact hlast

/-- A token that is no number resolves to the address of its name. -/
theorem resolveToken_name {text : Text} (hne : text ≠ []) (hhash : text.head? ≠ some '#')
    (hstarts : ¬(2 < text.length ∧ text.head? = some '0' ∧
      (text.tail.head? = some 'x' ∨ text.tail.head? = some 'X')))
    (hnumber : ¬(text.all isHexDigit = true ∧ (2 ≤ text.length ∨ text.all isDigit = true)))
    {value : ℕ} (hvalue : parser.nameAddress text = some value) :
    parser.resolveToken text = value := by
  unfold ExpressionParser.resolveToken
  split
  · exact absurd rfl hne
  · exact absurd rfl hhash
  · next first rest hfirst => rw [if_neg (by simpa using hstarts), if_neg hnumber, hvalue]

/-- A token that has a value resolves to it. -/
theorem Atom.resolveToken_text (h : a.WellFormed parser) (hfits : a.Fits) {value : ℕ}
    (hvalue : a.value parser = some value) : parser.resolveToken a.text = value := by
  have hhexDigits : ∀ digits : Text, (∀ c ∈ digits, isHexDigit c = true) →
      ∀ c ∈ digits, ∃ digit, digitValue c = some digit ∧ digit < 16 := fun digits hhex c hc ↦ by
    obtain ⟨digit, hdigit, hlt, -⟩ := isHexDigit_cases (hhex c hc)
    exact ⟨digit, hdigit, hlt⟩
  cases a with
  | hex digits =>
    obtain ⟨hne, hall, hkind⟩ := h
    have hhex : ∀ c ∈ digits, isHexDigit c = true := List.all_eq_true.mp hall
    have hnumber := number_digits hne hhex (hhexDigits digits hhex) hfits
    rw [Atom.value, Option.some.injEq] at hvalue
    rw [Atom.text, ← hvalue, ← hnumber]
    cases digits with
    | nil => exact absurd rfl hne
    | cons first rest =>
      obtain ⟨-, -, -, -, -, -, -, -, hhash, -⟩ := isHexDigit_cases (hhex first List.mem_cons_self)
      have hstarts : ¬(2 < (first :: rest).length ∧ first = '0' ∧
          (rest.head? = some 'x' ∨ rest.head? = some 'X')) := by
        rintro ⟨-, -, hx⟩
        cases rest with
        | nil => simp at hx
        | cons second tail =>
          obtain ⟨-, -, -, -, -, -, -, -, -, hsmall, hbig⟩ := isHexDigit_cases (hhex second (by simp))
          simp [hsmall, hbig] at hx
      unfold ExpressionParser.resolveToken
      split
      · simp_all
      · next heq => exact absurd (List.cons.inj heq).1 hhash
      · next heq =>
        obtain ⟨rfl, rfl⟩ := List.cons.inj heq
        rw [if_neg hstarts]
        by_cases hplain : (first :: rest).all isHexDigit = true ∧
            (2 ≤ (first :: rest).length ∨ (first :: rest).all isDigit = true)
        · rw [if_pos hplain]
        · rw [if_neg hplain]
          have hunknown : parser.nameAddress (first :: rest) = none := by
            rcases hkind with hlength | hdigit | hunknown
            · exact absurd ⟨hall, Or.inl hlength⟩ hplain
            · exact absurd ⟨hall, Or.inr hdigit⟩ hplain
            · exact hunknown
          rw [hunknown]
          dsimp only
          rw [if_pos hall]
  | prefixed x digits =>
    obtain ⟨hx, hne, hall⟩ := h
    have hhex : ∀ c ∈ digits, isHexDigit c = true := List.all_eq_true.mp hall
    have hnumber := number_digits hne hhex (hhexDigits digits hhex) hfits
    rw [Atom.value, Option.some.injEq] at hvalue
    rw [Atom.text, ← hvalue, ← hnumber]
    have hlength : 2 < ('0' :: x :: digits).length := by
      have hpos := List.length_pos_iff.mpr hne
      simp only [List.length_cons]
      omega
    unfold ExpressionParser.resolveToken
    split
    · simp_all
    · next heq => exact absurd (List.cons.inj heq).1 (by decide)
    · next heq =>
      obtain ⟨rfl, rfl⟩ := List.cons.inj heq
      rw [if_pos ⟨hlength, rfl, by simpa using hx⟩]
      rfl
  | decimal digits =>
    obtain ⟨hne, hall⟩ := h
    have hdigit : ∀ c ∈ digits, isDigit c = true := List.all_eq_true.mp hall
    have hnumber := number_digits hne (fun c hc ↦ (isDigit_cases (hdigit c hc)).1)
      (fun c hc ↦ (isDigit_cases (hdigit c hc)).2) hfits
    rw [Atom.value, Option.some.injEq] at hvalue
    rw [Atom.text, ← hvalue, ← hnumber, ExpressionParser.resolveToken, if_neg hne]
  | name text =>
    obtain ⟨hne, -, -, -, -, hhash, hstarts, hnumber, -⟩ := h
    exact resolveToken_name hne hhash hstarts hnumber hvalue

end Atoms

/-! ### Cutting a sum into its terms -/

/-- A text that the scan passes over and that the next operator may follow. -/
def EndsAt (rest : Text) : Prop := rest = [] ∨ ∃ minus more, rest = operator minus :: more

theorem isOperator_of_blank {b : Text} (hb : b.all isBlank = true) :
    b.any isOperator = false ∧ '[' ∉ b ∧ ']' ∉ b := by
  have hall : ∀ c ∈ b, isBlank c = true := List.all_eq_true.mp hb
  refine ⟨List.any_eq_false.mpr fun c hc hop ↦ ?_, fun hc ↦ ?_, fun hc ↦ ?_⟩
  · have hblank := hall c hc
    simp only [isBlank, isOperator, Bool.or_eq_true, decide_eq_true_eq] at hblank hop
    rcases hblank with rfl | rfl <;> simp at hop
  · exact absurd (hall _ hc) (by decide)
  · exact absurd (hall _ hc) (by decide)

namespace ExpressionParser

/-- The scan of a flat text stops at the operator behind it. -/
theorem scanTerm_cut {w rest : Text} (hopen : '[' ∉ w) (hclose : ']' ∉ w)
    (hop : w.any isOperator = false) (guarded : Bool) (previous : Char) (hrest : EndsAt rest)
    (hx : rest ≠ [] → ¬((guarded || !w.isEmpty) = true ∧
      ((previous :: w).getLast (List.cons_ne_nil _ _) = 'x' ∨
        (previous :: w).getLast (List.cons_ne_nil _ _) = 'X'))) :
    scanTerm 0 guarded previous (w ++ rest) = (w, rest) := by
  rw [scanTerm_flat hopen hclose hop, scanTerm_stop, List.append_nil]
  rcases hrest with hnil | ⟨minus, more, hmore⟩
  · exact Or.inl hnil
  · exact Or.inr ⟨minus, more, hmore, hx (by rw [hmore]; simp)⟩

/-- Blanks, a bracket and blanks are one term. -/
theorem scanTerm_deref {inner after rest : Text} (hinner : Balanced inner)
    (hafter : after.all isBlank = true) (hrest : EndsAt rest) (guarded : Bool) (previous : Char) :
    scanTerm 1 guarded previous (inner ++ ']' :: (after ++ rest)) =
      (inner ++ ']' :: after, rest) := by
  obtain ⟨hop, hopen, hclose⟩ := isOperator_of_blank hafter
  obtain ⟨guarded', previous', hscan⟩ := scanTerm_balanced hinner 0 guarded previous
    (']' :: (after ++ rest))
  have hcut : scanTerm 0 true ']' (after ++ rest) = (after, rest) := by
    refine scanTerm_cut hopen hclose hop true ']' hrest fun _ hboth ↦ ?_
    have hall : ∀ c ∈ ']' :: after, c ≠ 'x' ∧ c ≠ 'X' := by
      intro c hc
      rcases List.mem_cons.mp hc with rfl | hc
      · exact ⟨by decide, by decide⟩
      · have hblank := List.all_eq_true.mp hafter c hc
        exact ⟨fun h ↦ by rw [h] at hblank; exact absurd hblank (by decide),
          fun h ↦ by rw [h] at hblank; exact absurd hblank (by decide)⟩
    obtain ⟨hsmall, hbig⟩ := hall _ (List.getLast_mem (List.cons_ne_nil ']' after))
    exact hboth.2.elim hsmall hbig
  rw [hscan, scanTerm, if_neg (by decide), if_pos rfl, hcut]

theorem nextTerm_atom {parser : ExpressionParser} {a : Atom} (h : a.WellFormed parser)
    {atStart : Bool} {before after rest : Text} (hbefore : before.all isBlank = true)
    (hafter : after.all isBlank = true) (hrest : EndsAt rest)
    (hcut : a.CutAt parser atStart before after rest) :
    nextTerm parser.modules atStart (before ++ a.text ++ after ++ rest) =
      (before ++ a.text ++ after, rest) := by
  obtain ⟨hsolid, hopen, hclose⟩ := Atom.text_solid h
  rcases hcut with ⟨rfl, rfl, hlength⟩ | ⟨hlength, hop, hx⟩
  · have hpos := List.length_pos_iff.mpr hsolid.ne_nil
    simp only [List.nil_append, List.append_nil]
    unfold nextTerm
    dsimp only
    rw [hlength]
    rw [if_pos hpos, List.take_left', List.drop_left'] <;> rfl
  · obtain ⟨hopBefore, hopenBefore, hcloseBefore⟩ := isOperator_of_blank hbefore
    obtain ⟨hopAfter, hopenAfter, hcloseAfter⟩ := isOperator_of_blank hafter
    unfold nextTerm
    dsimp only
    rw [hlength]
    rw [if_neg (by omega)]
    have hw : ∀ w : Text, w = before ++ a.text ++ after → ∀ c tail, w = c :: tail →
        scanTerm (if c = '[' then 1 else 0) (!atStart) c (tail ++ rest) = (tail, rest) := by
      intro w hw c tail hcons
      have hopenW : '[' ∉ w := by
        rw [hw]
        simp only [List.mem_append, not_or]
        exact ⟨⟨hopenBefore, hopen⟩, hopenAfter⟩
      have hcloseW : ']' ∉ w := by
        rw [hw]
        simp only [List.mem_append, not_or]
        exact ⟨⟨hcloseBefore, hclose⟩, hcloseAfter⟩
      have hopW : w.any isOperator = false := by
        rw [hw, List.any_append, List.any_append, hopBefore, hop, hopAfter]
        rfl
      rw [hcons, List.mem_cons, not_or] at hopenW hcloseW
      rw [hcons, List.any_cons, Bool.or_eq_false_iff] at hopW
      rw [if_neg (Ne.symm hopenW.1)]
      refine scanTerm_cut hopenW.2 hcloseW.2 hopW.2 _ c hrest fun hne hboth ↦ ?_
      have hlast : (c :: tail).getLast? = some ((c :: tail).getLast (List.cons_ne_nil _ _)) :=
        List.getLast?_eq_some_getLast _
      generalize (c :: tail).getLast (List.cons_ne_nil _ _) = last at hlast hboth
      by_cases hafterNil : after = []
      · rw [← hcons, hw, hafterNil, List.append_nil, List.getLast?_append,
          Option.or_of_isSome (by simp [List.getLast?_isSome, hsolid.ne_nil])] at hlast
        rcases hx hafterNil hne with ⟨hsmall, hbig⟩ | ⟨hstart, hbeforeNil, hone⟩
        · rw [hlast] at hsmall hbig
          exact hboth.2.elim (fun hc ↦ hsmall (congrArg some hc)) fun hc ↦ hbig (congrArg some hc)
        · rw [hbeforeNil, hafterNil, List.append_nil, List.nil_append] at hw
          rw [← hw, hcons] at hone
          have htail : tail = [] := by simpa using hone
          rw [hstart, htail] at hboth
          simp at hboth
      · have hmem : last ∈ after := by
          have hafterLast := List.getLast?_eq_some_getLast hafterNil
          rw [← hcons, hw, List.getLast?_append, hafterLast, Option.some_or] at hlast
          rw [← Option.some.inj hlast]
          exact List.getLast_mem hafterNil
        have hblank := List.all_eq_true.mp hafter _ hmem
        rcases hboth.2 with hc | hc <;>
        · rw [hc] at hblank
          exact absurd hblank (by decide)
    cases hcons : before ++ a.text ++ after with
    | nil =>
      have hnil : a.text = [] := (List.append_eq_nil_iff.mp (List.append_eq_nil_iff.mp hcons).1).2
      exact absurd hnil hsolid.ne_nil
    | cons c tail =>
      rw [List.cons_append]
      dsimp only
      rw [hw _ rfl c tail hcons]

theorem nextTerm_deref {mods : List ModuleInfo} (atStart : Bool) {before inner : Text}
    (after : Text) {rest : Text}
    (hbefore : before.all isBlank = true) (hafter : after.all isBlank = true)
    (hinner : Balanced inner) (hrest : EndsAt rest)
    (hlength : moduleLength mods (before ++ '[' :: (inner ++ ']' :: (after ++ rest))) = 0) :
    nextTerm mods atStart (before ++ '[' :: (inner ++ ']' :: (after ++ rest))) =
      (before ++ '[' :: (inner ++ ']' :: after), rest) := by
  obtain ⟨hop, hopen, hclose⟩ := isOperator_of_blank hbefore
  unfold nextTerm
  dsimp only
  rw [hlength]
  rw [if_neg (by omega)]
  cases before with
  | nil =>
    rw [List.nil_append]
    dsimp only
    rw [if_pos rfl, scanTerm_deref hinner hafter hrest]
    rfl
  | cons c tail =>
    rw [List.mem_cons, not_or] at hopen hclose
    rw [List.any_cons, Bool.or_eq_false_iff] at hop
    rw [List.cons_append]
    dsimp only
    rw [if_neg (Ne.symm hopen.1), scanTerm_flat hopen.2 hclose.2 hop.2, scanTerm, if_pos rfl,
      scanTerm_deref hinner hafter hrest]
    simp

end ExpressionParser

/-! ### Texts of sums -/

section Texts

variable {parser : ExpressionParser}

mutual

theorem Term.text_solid : (t : Term) → t.WellFormed parser → Solid t.text ∧ Balanced t.text
  | .atom a, h => by
    obtain ⟨hsolid, hopen, hclose⟩ := Atom.text_solid h
    exact ⟨hsolid, .of_not_mem hopen hclose⟩
  | .deref s, h => by
    obtain ⟨-, hbalanced⟩ := Sum.text_solid s h
    refine ⟨⟨⟨'[', rfl, rfl⟩, ']', ?_, rfl⟩, .bracket hbalanced .nil⟩
    rw [Term.text, ← List.cons_append, List.getLast?_append]
    rfl

theorem Sum.text_solid : (s : Sum) → s.WellFormed parser → Solid s.text ∧ Balanced s.text
  | .one t, h => Term.text_solid t h
  | .more t after minus before rest, h => by
    obtain ⟨hterm, hafter, hbefore, hrest⟩ := h
    obtain ⟨hsolid, hbalanced⟩ := Term.text_solid t hterm
    obtain ⟨hsolidRest, hbalancedRest⟩ := Sum.text_solid rest hrest
    obtain ⟨-, hopenAfter, hcloseAfter⟩ := isOperator_of_blank hafter
    obtain ⟨-, hopenBefore, hcloseBefore⟩ := isOperator_of_blank hbefore
    have hop : operator minus ≠ '[' ∧ operator minus ≠ ']' := by cases minus <;> decide
    obtain ⟨c, hc, hcBlank⟩ := hsolid.head
    obtain ⟨d, hd, hdBlank⟩ := hsolidRest.last
    rw [Sum.text]
    refine ⟨⟨⟨c, ?_, hcBlank⟩, d, ?_, hdBlank⟩, ?_⟩
    · rw [List.head?_append, hc]
      rfl
    · rw [← List.cons_append, ← List.append_assoc, ← List.append_assoc, List.getLast?_append, hd]
      rfl
    · refine hbalanced.append ((Balanced.of_not_mem hopenAfter hcloseAfter).append ?_)
      exact .char hop.1 hop.2 ((Balanced.of_not_mem hopenBefore hcloseBefore).append hbalancedRest)

end

/-- Starting from a larger value makes the sum larger. -/
theorem Sum.total_add : (s : Sum) → (acc k : ℤ) → (minus : Bool) →
    s.total parser (acc + k) minus = (s.total parser acc minus).map (· + k)
  | .one t, acc, k, minus => by
    rw [Sum.total, Sum.total, Option.map_map]
    refine congrArg (fun f ↦ Option.map f (t.value parser)) (funext fun value ↦ ?_)
    cases minus <;> simp [signed] <;> omega
  | .more t after next before rest, acc, k, minus => by
    rw [Sum.total, Sum.total]
    cases t.value parser with
    | none => rfl
    | some value =>
      have hsigned : signed (acc + k) minus value = signed acc minus value + k := by
        cases minus <;> simp [signed] <;> omega
      dsimp only
      rw [hsigned, Sum.total_add rest]

end Texts

/-! ### What the parser computes -/

/-- The residue of an integer modulo `2^64`. -/
def residue (value : ℤ) : ℕ := (value % (sizeModulus : ℤ)).toNat

namespace ExpressionParser

theorem accumulate_residue (acc : ℤ) (minus : Bool) (value : ℕ) :
    accumulate (residue acc) minus value = residue (signed acc minus value) := by
  unfold accumulate residue signed sizeModulus
  cases minus
  · simp only [Bool.false_eq_true, if_false]
    omega
  · simp only [if_true]
    omega

theorem pointerAt_lt {proc : Process} {address ptr : ℕ} (h : pointerAt proc address = some ptr) :
    ptr < sizeModulus := by
  unfold pointerAt ProcessHandle.read at h
  dsimp only at h
  split at h
  · next bytes hread =>
    split_ifs at hread h with hempty hshort
    rw [← Option.some.inj h, ← Option.some.inj hread]
    have hle := length_readPrefix_le proc.handle.memory address 8
    have hlt := Library.LittleEndian.leNat_lt (readPrefix proc.handle.memory address 8)
    exact lt_of_lt_of_le hlt (Nat.pow_le_pow_right (by decide) hle)
  · cases h

section Turn

variable {parser : ExpressionParser} {parseImpl : Text → Option ℕ} {turns : ℕ} {atStart : Bool}
  {result : ℕ} {subtract : Bool} {before w after s : Text}

/-- The last turn of the loop. -/
theorem sumFrom_last (hbefore : before.all isBlank = true) (hafter : after.all isBlank = true)
    (hw : Solid w) (hs : s ≠ [])
    (hterm : nextTerm parser.modules atStart s = (before ++ (w ++ after), [])) :
    parser.sumFrom parseImpl (turns + 1) atStart result subtract s =
      accumulate result subtract (parser.termValue parseImpl w) := by
  rw [sumFrom, if_neg hs, hterm]
  dsimp only
  rw [trim_pad _ _ hbefore hafter hw, if_neg hw.ne_nil]

/-- A turn of the loop in front of an operator. -/
theorem sumFrom_more (before : Text) (hbefore : before.all isBlank = true)
    (hafter : after.all isBlank = true)
    (hw : Solid w) (hs : s ≠ []) {minus : Bool} {rest : Text}
    (hterm : nextTerm parser.modules atStart s =
      (before ++ (w ++ after), operator minus :: rest)) :
    parser.sumFrom parseImpl (turns + 1) atStart result subtract s =
      parser.sumFrom parseImpl turns false
        (accumulate result subtract (parser.termValue parseImpl w)) minus rest := by
  have hminus : decide (operator minus = '-') = minus := by cases minus <;> rfl
  rw [sumFrom, if_neg hs, hterm]
  dsimp only
  rw [trim_pad _ _ hbefore hafter hw, if_neg hw.ne_nil, hminus]

end Turn

end ExpressionParser

section Correct

variable {parser : ExpressionParser}

/-- What the loop makes of the terms behind an operator. -/
def PlainOk (parser : ExpressionParser) (s : Sum) : Prop :=
  ∀ (levels turns : ℕ) (before : Text) (acc : ℤ) (minus : Bool) (total : ℤ),
    s.Plain parser before → before.all isBlank = true → s.plainLevels ≤ levels →
      s.text.length ≤ turns → s.total parser acc minus = some total →
        parser.sumFrom (parser.parseImpl levels) turns false (residue acc) minus
          (before ++ s.text) = residue total

/-- What the parser makes of an expression behind blanks. -/
def ParseOk (parser : ExpressionParser) (s : Sum) : Prop :=
  ∀ (levels : ℕ) (before : Text) (total : ℤ), s.Regular parser → before.all isBlank = true →
    s.levels ≤ levels → s.total parser 0 false = some total →
      parser.parseImpl levels (before ++ s.text) = some (residue total)

/-- A text that starts with a bracket. -/
theorem parseImpl_deref {s : Sum} (hwf : s.WellFormed parser) (hs : ParseOk parser s)
    (hregular : s.Regular parser) {levels : ℕ} (hlevels : s.levels ≤ levels) {ptr : ℕ}
    (hvalue : (Term.deref s).value parser = some ptr) (before : Text) {behind : Text}
    (hbefore : before.all isBlank = true)
    (hsolid : Solid ('[' :: (s.text ++ ']' :: behind))) :
    parser.parseImpl (levels + 1) (before ++ '[' :: (s.text ++ ']' :: behind)) =
      match trim behind with
      | '+' :: offset =>
        (parser.parseImpl levels offset).map (ExpressionParser.accumulate ptr false)
      | '-' :: offset =>
        (parser.parseImpl levels offset).map (ExpressionParser.accumulate ptr true)
      | _ => some ptr := by
  obtain ⟨-, hbalanced⟩ := Sum.text_solid s hwf
  rw [Term.value] at hvalue
  split at hvalue
  · next address proc haddress hproc =>
    have hinner := hs levels [] address hregular rfl hlevels haddress
    rw [List.nil_append] at hinner
    have htrim := trim_pad before [] hbefore rfl hsolid
    rw [List.append_nil] at htrim
    rw [ExpressionParser.parseImpl, htrim]
    split
    · next heq => cases heq
    · next inner heq =>
      rw [← (List.cons.inj heq).2, ExpressionParser.closing_inner hbalanced]
      dsimp only
      rw [hinner, hproc]
      dsimp only
      have hread : ExpressionParser.pointerAt proc (residue address) = some ptr := hvalue
      cases hptr : ExpressionParser.pointerAt proc (residue address) with
      | none =>
        rw [hptr] at hread
        cases hread
      | some read =>
        rw [hptr] at hread
        cases hread
        rfl
    · next hother => exact absurd rfl (hother _)
  · cases hvalue

/-- The value of a bracketed term in a sum. -/
theorem termValue_deref {s : Sum} (hwf : s.WellFormed parser) (hs : ParseOk parser s)
    (hregular : s.Regular parser) {levels : ℕ} (hlevels : s.levels + 1 ≤ levels) {ptr : ℕ}
    (hvalue : (Term.deref s).value parser = some ptr) :
    parser.termValue (parser.parseImpl levels) (Term.deref s).text = ptr := by
  obtain ⟨hsolid, -⟩ := Term.text_solid (.deref s) hwf
  obtain ⟨levels, rfl⟩ : ∃ k, levels = k + 1 := ⟨levels - 1, by omega⟩
  have hparse := parseImpl_deref hwf hs hregular (by omega : s.levels ≤ levels) hvalue []
    rfl hsolid
  rw [List.nil_append] at hparse
  rw [ExpressionParser.termValue, if_pos (by simp [Term.text])]
  change (parser.parseImpl (levels + 1) ('[' :: (s.text ++ [']']))).getD 0 = ptr
  rw [hparse]
  rfl

theorem termValue_atom {a : Atom} (h : a.WellFormed parser) (hfits : a.Fits) {value : ℕ}
    (hvalue : a.value parser = some value) (parseImpl : Text → Option ℕ) :
    parser.termValue parseImpl a.text = value := by
  obtain ⟨-, hopen, -⟩ := Atom.text_solid h
  rw [ExpressionParser.termValue, if_neg hopen, Atom.resolveToken_text h hfits hvalue]

theorem endsAt_operator (minus : Bool) (rest : Text) : EndsAt (operator minus :: rest) :=
  Or.inr ⟨minus, rest, rfl⟩

theorem residue_of_lt {ptr : ℕ} (h : ptr < sizeModulus) : residue ptr = ptr := by
  unfold residue sizeModulus at *
  omega

theorem deref_lt {s : Sum} {ptr : ℕ} (hvalue : (Term.deref s).value parser = some ptr) :
    ptr < sizeModulus := by
  rw [Term.value] at hvalue
  split at hvalue
  · exact ExpressionParser.pointerAt_lt hvalue
  · cases hvalue

/-- The first term of an expression with the rest of it, when the term is no bracket. -/
theorem parseImpl_plain {s : Sum} (hsolid : Solid s.text) (hhead : s.text.head? ≠ some '[')
    {before : Text} (hbefore : before.all isBlank = true) (levels : ℕ) :
    parser.parseImpl (levels + 1) (before ++ s.text) =
      some (parser.sumFrom (parser.parseImpl levels) s.text.length true 0 false s.text) := by
  have htrim := trim_pad before [] hbefore rfl hsolid
  rw [List.append_nil] at htrim
  rw [ExpressionParser.parseImpl, htrim]
  split
  · next heq => exact absurd heq hsolid.ne_nil
  · next heq =>
    rw [heq] at hhead
    exact absurd rfl hhead
  · rfl

theorem head_atom {a : Atom} (h : a.WellFormed parser) (more : Text) :
    (a.text ++ more).head? ≠ some '[' := by
  obtain ⟨hsolid, hopen, -⟩ := Atom.text_solid h
  obtain ⟨c, hc, -⟩ := hsolid.head
  rw [List.head?_append, hc]
  intro heq
  obtain rfl : c = '[' := Option.some.inj heq
  exact hopen (List.mem_of_mem_head? hc)

/-! #### One term -/

theorem plainOk_atom {a : Atom} (hatom : a.WellFormed parser) :
    PlainOk parser (.one (.atom a)) := by
  obtain ⟨hsolid, hopen, hclose⟩ := Atom.text_solid hatom
  intro levels turns before acc minus total hplain hbefore hlevels hturns htotal
  obtain ⟨hfits, hcut⟩ := hplain
  obtain ⟨value, hvalue, rfl⟩ := Option.map_eq_some_iff.mp htotal
  have hpos := List.length_pos_iff.mpr hsolid.ne_nil
  obtain ⟨turns, rfl⟩ : ∃ k, turns = k + 1 := ⟨turns - 1, by
    change a.text.length ≤ turns at hturns
    omega⟩
  have hterm := ExpressionParser.nextTerm_atom hatom hbefore rfl (Or.inl rfl) hcut
  simp only [List.append_nil] at hterm
  change ExpressionParser.sumFrom _ _ _ _ _ _ (before ++ a.text) = _
  rw [ExpressionParser.sumFrom_last hbefore rfl hsolid
    (by simp [hsolid.ne_nil]) (by rw [hterm, List.append_nil]),
    termValue_atom hatom hfits hvalue, ExpressionParser.accumulate_residue]

theorem parseOk_atom {a : Atom} (hatom : a.WellFormed parser) :
    ParseOk parser (.one (.atom a)) := by
  obtain ⟨hsolid, hopen, hclose⟩ := Atom.text_solid hatom
  intro levels before total hregular hbefore hlevels htotal
  obtain ⟨hfits, hcut⟩ := hregular
  obtain ⟨value, hvalue, rfl⟩ := Option.map_eq_some_iff.mp htotal
  have hpos := List.length_pos_iff.mpr hsolid.ne_nil
  obtain ⟨levels, rfl⟩ : ∃ k, levels = k + 1 := ⟨levels - 1, by
    change 1 ≤ levels at hlevels
    omega⟩
  have hterm := ExpressionParser.nextTerm_atom hatom rfl rfl
    (Or.inl rfl) hcut
  simp only [List.append_nil, List.nil_append] at hterm
  have hhead := head_atom hatom []
  rw [List.append_nil] at hhead
  rw [parseImpl_plain (s := .one (.atom a)) hsolid hhead hbefore]
  change some (ExpressionParser.sumFrom _ _ a.text.length _ _ _ a.text) = _
  obtain ⟨turns, hturns⟩ : ∃ k, a.text.length = k + 1 := ⟨a.text.length - 1, by omega⟩
  rw [hturns, ExpressionParser.sumFrom_last rfl rfl hsolid
    hsolid.ne_nil (by rw [hterm, List.append_nil, List.nil_append]),
    termValue_atom hatom hfits hvalue,
    show (0 : ℕ) = residue 0 from rfl, ExpressionParser.accumulate_residue]

theorem plainOk_deref {s : Sum} (hs : s.WellFormed parser) (ih : ParseOk parser s) :
    PlainOk parser (.one (.deref s)) := by
  obtain ⟨hsolid, -⟩ := Term.text_solid (.deref s) hs
  obtain ⟨-, hbalanced⟩ := Sum.text_solid s hs
  intro levels turns before acc minus total hplain hbefore hlevels hturns htotal
  obtain ⟨hregular, hlength⟩ := hplain
  obtain ⟨value, hvalue, rfl⟩ := Option.map_eq_some_iff.mp htotal
  obtain ⟨turns, rfl⟩ : ∃ k, turns = k + 1 := ⟨turns - 1, by
    have hpos := List.length_pos_iff.mpr hsolid.ne_nil
    change (Term.deref s).text.length ≤ turns at hturns
    omega⟩
  have hterm := ExpressionParser.nextTerm_deref false [] hbefore rfl
    hbalanced (Or.inl rfl) hlength
  change ExpressionParser.sumFrom _ _ _ _ _ _ (before ++ (Term.deref s).text) = _
  rw [ExpressionParser.sumFrom_last hbefore rfl hsolid (by simp [hsolid.ne_nil])
    (by rw [List.append_nil]; exact hterm),
    termValue_deref hs ih hregular hlevels hvalue, ExpressionParser.accumulate_residue]

theorem parseOk_deref {s : Sum} (hs : s.WellFormed parser) (ih : ParseOk parser s) :
    ParseOk parser (.one (.deref s)) := by
  obtain ⟨hsolid, -⟩ := Term.text_solid (.deref s) hs
  intro levels before total hregular hbefore hlevels htotal
  obtain ⟨value, hvalue, rfl⟩ := Option.map_eq_some_iff.mp htotal
  obtain ⟨levels, rfl⟩ : ∃ k, levels = k + 1 := ⟨levels - 1, by
    change s.levels + 1 ≤ levels at hlevels
    omega⟩
  have hparse := parseImpl_deref hs ih hregular
    (Nat.succ_le_succ_iff.mp hlevels) hvalue before hbefore hsolid
  change parser.parseImpl (levels + 1) (before ++ '[' :: (s.text ++ [']'])) = _
  rw [hparse]
  change some value = some (residue (0 + value))
  rw [zero_add, residue_of_lt (deref_lt hvalue)]

/-! #### A term and more -/

section

variable {after next : Text} {minus : Bool} {rest : Sum}

theorem plainOk_atom_more {a : Atom}
    (hwf : (Sum.more (.atom a) after minus next rest).WellFormed parser) (ih : PlainOk parser rest) :
    PlainOk parser (.more (.atom a) after minus next rest) := by
  obtain ⟨hatom, hafter, hnext, hrest⟩ := hwf
  have hatom : a.WellFormed parser := hatom
  obtain ⟨hsolid, hopen, hclose⟩ := Atom.text_solid hatom
  have hpos := List.length_pos_iff.mpr hsolid.ne_nil
  have htext : (Sum.more (.atom a) after minus next rest).text =
      a.text ++ (after ++ operator minus :: (next ++ rest.text)) := rfl
  intro levels turns before acc sign total hplain hbefore hlevels hturns htotal
  obtain ⟨hfits, hcut, hplainRest⟩ := hplain
  rw [Sum.total] at htotal
  cases hvalue : (Term.atom a).value parser with
  | none =>
    rw [hvalue] at htotal
    cases htotal
  | some value =>
    rw [hvalue] at htotal
    rw [htext] at hturns ⊢
    simp only [List.length_append, List.length_cons] at hturns
    obtain ⟨turns, rfl⟩ : ∃ k, turns = k + 1 := ⟨turns - 1, by omega⟩
    have hterm := ExpressionParser.nextTerm_atom hatom hbefore hafter (endsAt_operator _ _) hcut
    simp only [List.append_assoc] at hterm
    rw [ExpressionParser.sumFrom_more _ hbefore hafter hsolid (by simp [hsolid.ne_nil]) hterm,
      termValue_atom hatom hfits hvalue, ExpressionParser.accumulate_residue]
    exact ih levels turns next _ minus total hplainRest hnext
      (le_trans (le_max_right _ _) hlevels) (by omega) htotal

theorem parseOk_atom_more {a : Atom}
    (hwf : (Sum.more (.atom a) after minus next rest).WellFormed parser) (ih : PlainOk parser rest) :
    ParseOk parser (.more (.atom a) after minus next rest) := by
  obtain ⟨hatom, hafter, hnext, hrest⟩ := hwf
  have hatom : a.WellFormed parser := hatom
  obtain ⟨hsolid, hopen, hclose⟩ := Atom.text_solid hatom
  have hpos := List.length_pos_iff.mpr hsolid.ne_nil
  have htext : (Sum.more (.atom a) after minus next rest).text =
      a.text ++ (after ++ operator minus :: (next ++ rest.text)) := rfl
  intro levels before total hregular hbefore hlevels htotal
  obtain ⟨hfits, hcut, hplainRest⟩ := hregular
  rw [Sum.total] at htotal
  obtain ⟨levels, rfl⟩ : ∃ k, levels = k + 1 := ⟨levels - 1, by
    change rest.plainLevels + 1 ≤ levels at hlevels
    omega⟩
  have hsum := (Sum.text_solid (.more (.atom a) after minus next rest)
    ⟨hatom, hafter, hnext, hrest⟩).1
  rw [parseImpl_plain hsum (by rw [htext]; exact head_atom hatom _) hbefore]
  cases hvalue : (Term.atom a).value parser with
  | none =>
    rw [hvalue] at htotal
    cases htotal
  | some value =>
    rw [hvalue] at htotal
    obtain ⟨turns, hturns⟩ : ∃ k, (Sum.more (.atom a) after minus next rest).text.length = k + 1 :=
      ⟨_, (Nat.succ_pred_eq_of_pos (List.length_pos_iff.mpr hsum.ne_nil)).symm⟩
    have hterm := ExpressionParser.nextTerm_atom hatom rfl hafter
      (endsAt_operator _ _) hcut
    simp only [List.append_assoc, List.nil_append] at hterm
    rw [hturns, ExpressionParser.sumFrom_more [] rfl hafter hsolid hsum.ne_nil
      (by rw [htext, hterm]; rfl), termValue_atom hatom hfits hvalue,
      show (0 : ℕ) = residue 0 from rfl, ExpressionParser.accumulate_residue]
    rw [htext] at hturns
    simp only [List.length_append, List.length_cons] at hturns
    rw [ih levels turns next _ minus total hplainRest hnext
      (Nat.succ_le_succ_iff.mp hlevels) (by omega) htotal]

theorem plainOk_deref_more {s : Sum}
    (hwf : (Sum.more (.deref s) after minus next rest).WellFormed parser) (ih : ParseOk parser s)
    (ihRest : PlainOk parser rest) :
    PlainOk parser (.more (.deref s) after minus next rest) := by
  obtain ⟨hs, hafter, hnext, hrest⟩ := hwf
  have hs : s.WellFormed parser := hs
  obtain ⟨hsolid, -⟩ := Term.text_solid (.deref s) hs
  obtain ⟨-, hbalanced⟩ := Sum.text_solid s hs
  obtain ⟨hsolidRest, -⟩ := Sum.text_solid rest hrest
  have hsum := (Sum.text_solid (.more (.deref s) after minus next rest)
    ⟨hs, hafter, hnext, hrest⟩).1
  have htext : (Sum.more (.deref s) after minus next rest).text =
      '[' :: (s.text ++ ']' :: (after ++ operator minus :: (next ++ rest.text))) := by
    change (Term.deref s).text ++ _ = _
    rw [Term.text, List.cons_append, List.append_assoc]
    rfl
  intro levels turns before acc sign total hplain hbefore hlevels hturns htotal
  obtain ⟨hregular, hlength, hplainRest⟩ := hplain
  rw [Sum.total] at htotal
  cases hvalue : (Term.deref s).value parser with
  | none =>
    rw [hvalue] at htotal
    cases htotal
  | some value =>
    rw [hvalue] at htotal
    rw [htext] at hturns hlength
    simp only [List.length_append, List.length_cons] at hturns
    obtain ⟨turns, rfl⟩ : ∃ k, turns = k + 1 := ⟨turns - 1, by omega⟩
    have hterm := ExpressionParser.nextTerm_deref false after hbefore hafter hbalanced
      (endsAt_operator minus (next ++ rest.text)) hlength
    have hcut : ExpressionParser.nextTerm parser.modules false
        (before ++ (Sum.more (.deref s) after minus next rest).text) =
        (before ++ ((Term.deref s).text ++ after), operator minus :: (next ++ rest.text)) := by
      rw [htext, hterm, Term.text]
      simp
    rw [ExpressionParser.sumFrom_more _ hbefore hafter hsolid (by simp [hsum.ne_nil]) hcut,
      termValue_deref hs ih hregular (le_trans (le_max_left _ _) hlevels) hvalue,
      ExpressionParser.accumulate_residue]
    exact ihRest levels turns next _ minus total hplainRest hnext
      (le_trans (le_max_right _ _) hlevels) (by omega) htotal

theorem parseOk_deref_more {s : Sum}
    (hwf : (Sum.more (.deref s) after minus next rest).WellFormed parser) (ih : ParseOk parser s)
    (ihRest : ParseOk parser rest) :
    ParseOk parser (.more (.deref s) after minus next rest) := by
  obtain ⟨hs, hafter, hnext, hrest⟩ := hwf
  have hs : s.WellFormed parser := hs
  obtain ⟨hsolid, -⟩ := Term.text_solid (.deref s) hs
  obtain ⟨-, hbalanced⟩ := Sum.text_solid s hs
  obtain ⟨hsolidRest, -⟩ := Sum.text_solid rest hrest
  have hsum := (Sum.text_solid (.more (.deref s) after minus next rest)
    ⟨hs, hafter, hnext, hrest⟩).1
  have htext : (Sum.more (.deref s) after minus next rest).text =
      '[' :: (s.text ++ ']' :: (after ++ operator minus :: (next ++ rest.text))) := by
    change (Term.deref s).text ++ _ = _
    rw [Term.text, List.cons_append, List.append_assoc]
    rfl
  intro levels before total hregular hbefore hlevels htotal
  have hboth : s.Regular parser ∧ rest.Regular parser ∧ (minus = true → ∃ t, rest = .one t) := by
    cases minus with
    | false => exact ⟨hregular.1, hregular.2, by simp⟩
    | true => exact ⟨hregular.1, hregular.2.1, fun _ ↦ hregular.2.2⟩
  obtain ⟨hregularInner, hregularRest, hone⟩ := hboth
  obtain ⟨levels, rfl⟩ : ∃ k, levels = k + 1 := ⟨levels - 1, by
    change max s.levels rest.levels + 1 ≤ levels at hlevels
    omega⟩
  have hmax : max s.levels rest.levels ≤ levels := Nat.succ_le_succ_iff.mp hlevels
  rw [Sum.total] at htotal
  cases hvalue : (Term.deref s).value parser with
  | none =>
    rw [hvalue] at htotal
    cases htotal
  | some ptr =>
    rw [hvalue] at htotal
    change rest.total parser (0 + ptr) minus = some total at htotal
    have hparse := parseImpl_deref hs ih hregularInner (le_trans (le_max_left _ _) hmax) hvalue
      before hbefore (by
        rw [← htext]
        exact hsum)
    have hop : isBlank (operator minus) = false := by cases minus <;> rfl
    have hsolidTail : Solid (operator minus :: (next ++ rest.text)) := by
      obtain ⟨d, hd, hdBlank⟩ := hsolidRest.last
      refine ⟨⟨_, rfl, hop⟩, d, ?_, hdBlank⟩
      rw [← List.cons_append, List.getLast?_append, hd]
      rfl
    have htrim := trim_pad _ [] hafter rfl hsolidTail
    rw [List.append_nil] at htrim
    rw [htext, hparse, htrim]
    have hptr := residue_of_lt (deref_lt hvalue)
    cases minus with
    | false =>
      rw [Sum.total_add] at htotal
      obtain ⟨offset, hoffset, rfl⟩ := Option.map_eq_some_iff.mp htotal
      change (parser.parseImpl levels (next ++ rest.text)).map _ = _
      rw [ihRest levels next offset hregularRest hnext (le_trans (le_max_right _ _) hmax)
        hoffset, Option.map_some, ← hptr, ExpressionParser.accumulate_residue]
      unfold signed residue sizeModulus
      simp only [Bool.false_eq_true, if_false, Option.some.injEq]
      omega
    | true =>
      obtain ⟨t, rfl⟩ := hone rfl
      obtain ⟨value, htvalue, rfl⟩ := Option.map_eq_some_iff.mp htotal
      change (parser.parseImpl levels (next ++ (Sum.one t).text)).map _ = _
      have hoffset : (Sum.one t).total parser 0 false = some (0 + value) := by
        rw [Sum.total, htvalue]
        rfl
      rw [ihRest levels next _ hregularRest hnext (le_trans (le_max_right _ _) hmax) hoffset,
        Option.map_some, ← hptr, ExpressionParser.accumulate_residue]
      unfold signed residue sizeModulus
      simp only [if_true, Option.some.injEq]
      omega

end
/-- By induction on the sum: what follows an operator as part of a loop, and a whole expression. -/
theorem sum_ok : (s : Sum) → s.WellFormed parser → PlainOk parser s ∧ ParseOk parser s
  | .one (.atom _), hwf => ⟨plainOk_atom hwf, parseOk_atom hwf⟩
  | .one (.deref s), hwf =>
    have ih := (sum_ok s hwf).2
    ⟨plainOk_deref hwf ih, parseOk_deref hwf ih⟩
  | .more (.atom _) _ _ _ rest, hwf =>
    have ih := (sum_ok rest hwf.2.2.2).1
    ⟨plainOk_atom_more hwf ih, parseOk_atom_more hwf ih⟩
  | .more (.deref s) _ _ _ rest, hwf =>
    have ih := (sum_ok s hwf.1).2
    have ihRest := sum_ok rest hwf.2.2.2
    ⟨plainOk_deref_more hwf ih ihRest.1, parseOk_deref_more hwf ih ihRest.2⟩

end Correct

/-- A process with one module, whose memory holds the bytes 0 to 15 from the base of the module on.
-/
def sampleParser : ExpressionParser where
  proc := some {
    modules := [⟨0x1000, 0x1000, "libssl-1.1.so".toList, []⟩]
    handle := {
      memory := fun x ↦ if 0x1000 ≤ x ∧ x < 0x1010 then some (UInt8.ofNat (x - 0x1000)) else none
      queryRegions := []
      pagemap := fun _ ↦ none
      supportsConcurrentReads := true } }
  resolver := none

end Cecore.Expression
