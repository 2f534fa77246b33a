import Cecore.AutoAsm.Environment
import Cecore.Expression.Sum

/-!
# Values of data directives

What the operands of `DB`, `DW`, `DD` and `DQ` mean: literals, casts, and sums and differences of
complete numbers, which the addresses of known symbols are written as. Directives made of them, and
of operands with a term that no number starts, are accepted with exactly the bytes that are meant
(`parseDataDirective_settled`). `std::stoull` also takes the digits in front of a text that is no
number, and a sign without a term behind it is dropped; nothing is said of these.
-/

set_option autoImplicit false
set_option relaxedAutoImplicit false

namespace Cecore.AutoAsm

open Library.LittleEndian Scanner
open Expression (isHexDigit digitsValue)

/-! ### The meaning of an operand -/

/-- A text that is a number as a whole: `#` and decimal digits, or hexadecimal digits. -/
inductive NumberText : Text → ℕ → Prop
  | decimal (digits : Text) (hne : digits ≠ []) (hall : digits.all Expression.isDigit = true) :
      NumberText ('#' :: digits) (digitsValue 10 digits)
  | hex (digits : Text) (hne : digits ≠ []) (hall : digits.all isHexDigit = true) :
      NumberText digits (digitsValue 16 digits)
  | prefixed (x : Char) (hx : x = 'x' ∨ x = 'X') (digits : Text) (hne : digits ≠ [])
      (hall : digits.all isHexDigit = true) : NumberText ('0' :: x :: digits) (digitsValue 16 digits)

/-- No digit is in front, nor behind white space and a sign. -/
def NoNumber (base : ℕ) (text : Text) : Prop :=
  startsDigit base (takeSign (text.dropWhile isSpace)).2 = false

/-- A term that no number starts, or that is a number beyond `uint64_t`. -/
inductive Refused : Text → Prop
  | empty : Refused []
  | decimal (digits : Text) (h : NoNumber 10 digits) : Refused ('#' :: digits)
  | hex (digits : Text) (hhash : digits.head? ≠ some '#') (h : NoNumber 16 digits) : Refused digits
  | large (text : Text) (n : ℕ) (hnumber : NumberText text n) (hn : sizeModulus ≤ n) : Refused text

/-- The terms of a sum behind a sign, true for minus, with `term` (reversed) already read. -/
def splitTerms : (sub : Bool) → (term : Text) → Text → List (Bool × Text)
  | sub, term, [] => [(sub, term.reverse)]
  | sub, term, c :: rest =>
    if c = '+' ∨ c = '-' then (sub, term.reverse) :: splitTerms (c = '-') [] rest
    else splitTerms sub (c :: term) rest

def signedTerms : Text → List (Bool × Text)
  | [] => [(false, [])]
  | c :: rest =>
    if c = '+' ∨ c = '-' then splitTerms (c = '-') [] rest else splitTerms false [] (c :: rest)

/-- The terms are complete numbers and add up to the value. -/
inductive SumText : List (Bool × Text) → ℤ → Prop
  | nil : SumText [] 0
  | cons {sub : Bool} {term : Text} {n : ℕ} {rest : List (Bool × Text)} {value : ℤ}
      (hnumber : NumberText (trim term) n) (hn : n < sizeModulus) (hrest : SumText rest value) :
      SumText ((sub, term) :: rest) ((if sub then -(n : ℤ) else n) + value)

/-- The format that a value is cast to. -/
def castFormat (token : Text) : Option FloatFormat :=
  if isQuoted token then none
  else if startsWith (token.map toLowerChar) "(float)".toList then some .single
  else if startsWith (token.map toLowerChar) "(double)".toList then some .double
  else none

/-- The text behind a cast. -/
def castText (format : FloatFormat) (token : Text) : Text :=
  (trim (token.drop (if format = .single then 7 else 8))).map fun c ↦ if c = ',' then '.' else c

/-- The bytes that an operand means in a directive of the given width. -/
inductive OperandBytes (fromChars : FromChars) (width : ℕ) (token : Text) : List UInt8 → Prop
  | literal (hquoted : isQuoted token = true) (hwidth : width = 1) :
      OperandBytes fromChars width token ((stripOptionalQuotes token).map byteOf)
  | cast {format : FloatFormat} {bits : ℕ} (hcast : castFormat token = some format)
      (hbits : fromChars format (castText format token) = some bits) :
      OperandBytes fromChars width token (toLE format.width bits)
  | sum {value : ℤ} (hquoted : isQuoted token = false) (hcast : castFormat token = none)
      (hsum : SumText (signedTerms token) value)
      (hrange : value % sizeModulus < (256 ^ width : ℕ)) :
      OperandBytes fromChars width token (toLE width (value % sizeModulus).toNat)

/-- A literal, a cast, a sum of complete numbers, or an operand with a term that no number starts.
-/
inductive SettledOperand (token : Text) : Prop
  | literal (hquoted : isQuoted token = true)
  | cast {format : FloatFormat} (hcast : castFormat token = some format)
  | sum {value : ℤ} (hsum : SumText (signedTerms token) value)
  | refused {before behind : List (Bool × Text)} {sub : Bool} {term : Text}
      (hterms : signedTerms token = before ++ (sub, term) :: behind)
      (hlast : term ≠ [] ∨ behind ≠ []) (hrefused : Refused (trim term))

/-! ### Numbers -/

theorem NumberText.ne_nil {text : Text} {n : ℕ} (h : NumberText text n) : text ≠ [] := by
  cases h with
  | decimal => exact List.cons_ne_nil _ _
  | hex _ hne => exact hne
  | prefixed => exact List.cons_ne_nil _ _

theorem digits_of_hex {digits : Text} (hall : digits.all isHexDigit = true) :
    ∀ c ∈ digits, ∃ digit, digitValue c = some digit ∧ digit < 16 := by
  intro c hc
  obtain ⟨digit, hdigit, hlt, -⟩ := Expression.isHexDigit_cases (List.all_eq_true.mp hall c hc)
  exact ⟨digit, hdigit, hlt⟩

/-- A number as a whole is read as a whole, when it fits. -/
theorem NumberText.termValue {term : Text} {n : ℕ} (h : NumberText (trim term) n) :
    termValue term = if n < sizeModulus then some n else none := by
  unfold AutoAsm.termValue
  generalize trim term = text at h
  have hstoull {base : ℕ} {digits : Text} {value : ℕ}
      (hread : readInteger base digits = some (false, value, [])) :
      (stoull base digits).map Prod.fst = if value < sizeModulus then some value else none := by
    rw [stoull, hread]
    dsimp only
    by_cases hvalue : value < sizeModulus
    · rw [if_pos hvalue, if_pos hvalue]
      rfl
    · rw [if_neg hvalue, if_neg hvalue]
      rfl
  cases h with
  | decimal digits hne hall =>
    have hdigit : ∀ c ∈ digits, isHexDigit c = true ∧ ∃ d, digitValue c = some d ∧ d < 10 :=
      fun c hc ↦ Expression.isDigit_cases (List.all_eq_true.mp hall c hc)
    exact hstoull (Expression.readInteger_digits hne (fun c hc ↦ (hdigit c hc).1)
      fun c hc ↦ (hdigit c hc).2)
  | hex _ hne hall =>
    cases text with
    | nil => exact absurd rfl hne
    | cons c rest =>
      have hc := List.all_eq_true.mp hall c List.mem_cons_self
      obtain ⟨-, -, -, -, -, -, -, -, hhash, -⟩ := Expression.isHexDigit_cases hc
      have hread := hstoull (Expression.readInteger_digits hne (List.all_eq_true.mp hall)
        (digits_of_hex hall))
      split
      · next heq => cases heq
      · next heq => exact absurd (List.cons.inj heq).1 hhash
      · exact hread
  | prefixed x hx digits hne hall =>
    refine hstoull ?_
    cases digits with
    | nil => exact absurd rfl hne
    | cons c rest =>
      have hc := List.all_eq_true.mp hall c List.mem_cons_self
      have hstarts : startsDigit 16 (c :: rest) = true := hc
      have hsign : takeSign (('0' :: x :: c :: rest).dropWhile isSpace) =
          (false, '0' :: x :: c :: rest) := rfl
      have hstart : numberPrefix 16 ('0' :: x :: c :: rest) = (16, c :: rest) :=
        if_pos ⟨hx, .inr rfl, hstarts⟩
      rw [readInteger, hsign]
      dsimp only
      rw [hstart]
      dsimp only
      rw [if_pos hstarts, Expression.takeDigits_all (digits_of_hex hall)]
      rfl

theorem readInteger_of_noNumber {base : ℕ} {text : Text} (hbase : base = 10 ∨ base = 16)
    (h : NoNumber base text) : readInteger base text = none := by
  unfold NoNumber at h
  unfold readInteger
  generalize takeSign (text.dropWhile isSpace) = signed at h
  obtain ⟨negative, unsigned⟩ := signed
  dsimp only at h ⊢
  have hsame : numberPrefix base unsigned = (base, unsigned) := by
    unfold numberPrefix
    have hzero : base ≠ 0 := by omega
    split
    · next x rest =>
      have hdigit : startsDigit base ('0' :: x :: rest) = true := by
        rcases hbase with rfl | rfl <;> rfl
      rw [h] at hdigit
      exact Bool.noConfusion hdigit
    · rw [if_neg hzero]
  rw [hsame]
  dsimp only
  rw [h, if_neg Bool.false_ne_true]

theorem Refused.termValue {term : Text} (h : Refused (trim term)) : termValue term = none := by
  generalize htext : trim term = text at h
  cases h with
  | empty => rw [AutoAsm.termValue, htext]
  | decimal digits hdigits =>
    rw [AutoAsm.termValue, htext]
    change (stoull 10 digits).map Prod.fst = none
    rw [stoull, readInteger_of_noNumber (.inl rfl) hdigits]
    rfl
  | hex _ hhash hdigits =>
    rw [AutoAsm.termValue, htext]
    split
    · rfl
    · next digits =>
      exact absurd rfl hhash
    · rw [stoull, readInteger_of_noNumber (.inr rfl) hdigits]
      rfl
  | large _ n hnumber hn =>
    rw [NumberText.termValue (htext ▸ hnumber), if_neg (by omega)]

/-! ### Sums -/

/-- The terms of a sum in turn; a term that is empty at the end is not looked at. -/
def sumTerms : (acc : ℕ) → List (Bool × Text) → Option ℕ
  | acc, [] => some acc
  | acc, [(sub, term)] => if term = [] then some acc else addTerm sub acc term
  | acc, (sub, term) :: rest => (addTerm sub acc term).bind fun sum ↦ sumTerms sum rest

theorem splitTerms_ne_nil (sub : Bool) (term text : Text) : splitTerms sub term text ≠ [] := by
  induction text generalizing sub term with
  | nil => exact List.cons_ne_nil _ _
  | cons c rest ih =>
    rw [splitTerms]
    split_ifs
    · exact List.cons_ne_nil _ _
    · exact ih _ _

theorem sumTerms_cons (acc : ℕ) {sub : Bool} {term : Text} {rest : List (Bool × Text)}
    (h : term ≠ [] ∨ rest ≠ []) :
    sumTerms acc ((sub, term) :: rest) =
      (addTerm sub acc term).bind fun sum ↦ sumTerms sum rest := by
  cases rest with
  | nil =>
    rw [sumTerms, if_neg (h.resolve_right fun h ↦ h rfl)]
    cases addTerm sub acc term <;> rfl
  | cons next more => rfl

theorem evalTerms_eq (sub : Bool) (acc : ℕ) (term text : Text) :
    evalTerms sub acc term text = sumTerms acc (splitTerms sub term text) := by
  induction text generalizing sub acc term with
  | nil =>
    rw [evalTerms, splitTerms, sumTerms]
    simp only [List.reverse_eq_nil_iff]
  | cons c rest ih =>
    rw [evalTerms, splitTerms]
    split_ifs
    · rw [sumTerms_cons acc (.inr (splitTerms_ne_nil _ _ _))]
      cases addTerm sub acc term.reverse with
      | none => rfl
      | some sum => exact ih _ _ _
    · exact ih _ _ _

theorem evalDataToken_eq {token : Text} (h : token ≠ []) :
    evalDataToken token = sumTerms 0 (signedTerms token) := by
  cases token with
  | nil => exact absurd rfl h
  | cons c rest =>
    rw [evalDataToken, signedTerms]
    split_ifs <;> exact evalTerms_eq _ _ _ _

theorem ne_nil_of_trim {text : Text} (h : trim text ≠ []) : text ≠ [] := by
  rintro rfl
  exact h rfl

/-- Sums of complete numbers are computed modulo `2 ^ 64`. -/
theorem sumTerms_of_sumText {terms : List (Bool × Text)} {value : ℤ} (h : SumText terms value)
    {acc : ℕ} (hacc : acc < sizeModulus) :
    sumTerms acc terms = some ((acc + value) % sizeModulus).toNat := by
  induction h generalizing acc with
  | nil =>
    rw [sumTerms, add_zero, Int.emod_eq_of_lt (by omega) (by omega), Int.toNat_natCast]
  | @cons sub term n rest value hnumber hn hrest ih =>
    obtain ⟨sum, hsum, hlt, hmod⟩ : ∃ sum, addTerm sub acc term = some sum ∧ sum < sizeModulus ∧
        (sum + value) % (sizeModulus : ℤ) =
          (acc + ((if sub then -(n : ℤ) else n) + value)) % sizeModulus := by
      rw [addTerm, hnumber.termValue, if_pos hn]
      refine ⟨_, rfl, ?_, ?_⟩
      · split_ifs <;> exact Nat.mod_lt _ (by decide)
      · unfold sizeModulus at hn ⊢
        cases sub
        · simp only [Bool.false_eq_true, if_false]
          omega
        · simp only [if_true]
          omega
    rw [sumTerms_cons acc (.inl (ne_nil_of_trim hnumber.ne_nil)), hsum, Option.bind_some, ih hlt,
      hmod]

/-- A term that is refused refuses the sum, when it is looked at. -/
theorem sumTerms_of_refused {before behind : List (Bool × Text)} {sub : Bool} {term : Text}
    (hlast : term ≠ [] ∨ behind ≠ []) (hrefused : Refused (trim term)) (acc : ℕ) :
    sumTerms acc (before ++ (sub, term) :: behind) = none := by
  induction before generalizing acc with
  | nil =>
    rw [List.nil_append, sumTerms_cons acc hlast, addTerm, hrefused.termValue]
    rfl
  | cons first rest ih =>
    obtain ⟨sub', term'⟩ := first
    have hne : rest ++ (sub, term) :: behind ≠ [] := by simp
    rw [List.cons_append, sumTerms_cons acc (.inr hne)]
    cases addTerm sub' acc term' with
    | none => rfl
    | some sum => exact ih sum

theorem evalDataToken_of_sumText {token : Text} {value : ℤ}
    (h : SumText (signedTerms token) value) :
    evalDataToken token = some (value % sizeModulus).toNat := by
  have hne : token ≠ [] := by
    rintro rfl
    cases h with
    | cons hnumber => exact hnumber.ne_nil rfl
  rw [evalDataToken_eq hne, sumTerms_of_sumText h (by decide), Nat.cast_zero, zero_add]

theorem evalDataToken_of_refused {token : Text} {before behind : List (Bool × Text)} {sub : Bool}
    {term : Text} (hterms : signedTerms token = before ++ (sub, term) :: behind)
    (hlast : term ≠ [] ∨ behind ≠ []) (hrefused : Refused (trim term)) :
    evalDataToken token = none := by
  by_cases hne : token = []
  · rw [hne, evalDataToken]
  · rw [evalDataToken_eq hne, hterms, sumTerms_of_refused hlast hrefused]

/-! ### Operands -/

theorem castFormat_of_quoted {token : Text} (h : isQuoted token = true) :
    castFormat token = none := by
  rw [castFormat, if_pos h]

/-- A value that is cast. -/
theorem dataValueBytes_cast (fromChars : FromChars) (op : Text) (width : ℕ) {token : Text}
    {format : FloatFormat} (hcast : castFormat token = some format) :
    ∃ error, dataValueBytes fromChars op width token =
      match fromChars format (castText format token) with
      | some bits => .ok (toLE format.width bits)
      | none => .error error := by
  by_cases hquoted : isQuoted token = true
  · rw [castFormat_of_quoted hquoted] at hcast
    cases hcast
  rw [dataValueBytes, if_neg hquoted]
  rw [castFormat, if_neg hquoted] at hcast
  by_cases hfloat : startsWith (token.map toLowerChar) "(float)".toList = true
  · rw [if_pos hfloat] at hcast ⊢
    cases hcast
    exact ⟨_, rfl⟩
  · rw [if_neg hfloat] at hcast ⊢
    by_cases hdouble : startsWith (token.map toLowerChar) "(double)".toList = true
    · rw [if_pos hdouble] at hcast ⊢
      cases hcast
      exact ⟨_, rfl⟩
    · rw [if_neg hdouble] at hcast
      cases hcast

/-- A value that is neither a literal nor cast. -/
theorem dataValueBytes_plain (fromChars : FromChars) (op : Text) (width : ℕ) {token : Text}
    (hquoted : isQuoted token = false) (hcast : castFormat token = none) :
    dataValueBytes fromChars op width token =
      match evalDataToken token with
      | none => .error ("Invalid ".toList ++ op ++ " value: ".toList ++ token)
      | some value =>
        if value < 256 ^ width then .ok (toLE width value)
        else .error (op ++ " value out of range: ".toList ++ token) := by
  have hnot : ¬isQuoted token = true := by simp [hquoted]
  rw [castFormat, if_neg hnot] at hcast
  rw [dataValueBytes, if_neg hnot]
  by_cases hfloat : startsWith (token.map toLowerChar) "(float)".toList = true
  · rw [if_pos hfloat] at hcast
    cases hcast
  rw [if_neg hfloat] at hcast ⊢
  by_cases hdouble : startsWith (token.map toLowerChar) "(double)".toList = true
  · rw [if_pos hdouble] at hcast
    cases hcast
  exact if_neg hdouble

/-- Casts come before sums and literals before casts, and no sum is refused. -/
theorem dataValueBytes_settled (fromChars : FromChars) (op : Text) (width : ℕ) {token : Text}
    (hsettled : SettledOperand token) (bytes : List UInt8) :
    dataValueBytes fromChars op width token = .ok bytes ↔
      OperandBytes fromChars width token bytes := by
  by_cases hquoted : isQuoted token = true
  · have hliteral : dataValueBytes fromChars op width token =
        if width = 1 then .ok ((stripOptionalQuotes token).map byteOf)
        else .error (op ++ " string literal is only supported for DB".toList) := by
      rw [dataValueBytes, if_pos hquoted]
    rw [hliteral]
    constructor
    · intro h
      split_ifs at h with hwidth
      cases h
      exact .literal hquoted hwidth
    · intro h
      cases h with
      | literal _ hwidth => rw [if_pos hwidth]
      | cast hcast =>
        rw [castFormat_of_quoted hquoted] at hcast
        cases hcast
      | sum hnot =>
        rw [hquoted] at hnot
        cases hnot
  rw [Bool.not_eq_true] at hquoted
  cases hcast : castFormat token with
  | some format =>
    obtain ⟨error, hbytes⟩ := dataValueBytes_cast fromChars op width hcast
    rw [hbytes]
    constructor
    · intro h
      split at h
      · next bits hbits =>
        cases h
        exact .cast hcast hbits
      · cases h
    · intro h
      cases h with
      | literal hyes =>
        rw [hquoted] at hyes
        cases hyes
      | cast hcast' hbits =>
        cases hcast.symm.trans hcast'
        rw [hbits]
      | sum _ hnone => cases hcast.symm.trans hnone
  | none =>
    rw [dataValueBytes_plain fromChars op width hquoted hcast]
    constructor
    · intro h
      cases hsettled with
      | literal hyes =>
        rw [hquoted] at hyes
        cases hyes
      | cast hsome => cases hcast.symm.trans hsome
      | sum hsum =>
        rw [evalDataToken_of_sumText hsum] at h
        dsimp only at h
        split_ifs at h with hrange
        cases h
        have hnonneg := Int.emod_nonneg (a := ‹ℤ›) (b := sizeModulus) (by decide)
        exact .sum hquoted hcast hsum (by omega)
      | refused hterms hlast hrefused =>
        rw [evalDataToken_of_refused hterms hlast hrefused] at h
        cases h
    · intro h
      cases h with
      | literal hyes =>
        rw [hquoted] at hyes
        cases hyes
      | cast hsome => cases hcast.symm.trans hsome
      | sum _ _ hsum hrange =>
        rw [evalDataToken_of_sumText hsum]
        have hnonneg := Int.emod_nonneg (a := ‹ℤ›) (b := sizeModulus) (by decide)
        dsimp only
        rw [if_pos (by omega)]

/-! ### Directives -/

theorem dataBytes_settled (fromChars : FromChars) (op : Text) {tokens : List Text}
    (hsettled : ∀ token ∈ tokens, SettledOperand (trim token)) (bytes : List UInt8) :
    dataBytes fromChars op tokens = .ok bytes ↔
      ∃ parts, List.Forall₂ (fun token part ↦
        OperandBytes fromChars (dataWidth op) (trim token) part) tokens parts ∧
          bytes = parts.flatten := by
  induction tokens generalizing bytes with
  | nil =>
    constructor
    · intro h
      cases h
      exact ⟨[], .nil, rfl⟩
    · rintro ⟨parts, hparts, rfl⟩
      cases hparts
      rfl
  | cons token rest ih =>
    rw [List.forall_mem_cons] at hsettled
    have hfirst := dataValueBytes_settled fromChars op (dataWidth op) hsettled.1
    rw [dataBytes]
    constructor
    · intro h
      split at h
      · cases h
      · next first hok =>
        split at h
        · cases h
        · next more hmore =>
          cases h
          obtain ⟨parts, hparts, rfl⟩ := (ih hsettled.2 more).mp hmore
          exact ⟨first :: parts, .cons ((hfirst first).mp hok) hparts, rfl⟩
    · rintro ⟨parts, hparts, rfl⟩
      cases hparts with
      | cons hpart hparts =>
        rw [(hfirst _).mpr hpart]
        dsimp only
        rw [(ih hsettled.2 _).mpr ⟨_, hparts, rfl⟩]
        rfl

/-- The address of a symbol is written as a complete number. -/
theorem formatHexLiteral_number (address : ℕ) : NumberText (formatHexLiteral address) address := by
  have hnumber := NumberText.prefixed 'x' (.inl rfl) (hex address) (Expression.hex_ne_nil address)
    (List.all_eq_true.mpr fun _ hc ↦ Expression.isHexDigit_of_mem_hex hc)
  rwa [Expression.digitsValue_hex] at hnumber

/-- A directive whose operands are settled is accepted exactly when each operand means bytes, and
then emits them in order. -/
theorem parseDataDirective_settled (fromChars : FromChars) (op : Text) (symbols : Symbols)
    (values : Text)
    (hsettled : ∀ token ∈ splitDataValues (symbols.substituteSymbols values),
      SettledOperand (trim token)) :
    (∀ bytes, parseDataDirective fromChars op (symbols.substituteSymbols values) = .ok bytes ↔
      splitDataValues (symbols.substituteSymbols values) ≠ [] ∧
        ∃ parts, List.Forall₂ (fun token part ↦
          OperandBytes fromChars (dataWidth op) (trim token) part)
            (splitDataValues (symbols.substituteSymbols values)) parts ∧ bytes = parts.flatten) ∧
      ∀ address, NumberText (formatHexLiteral address) address := by
  refine ⟨fun bytes ↦ ?_, formatHexLiteral_number⟩
  rw [parseDataDirective]
  split
  · next hnil =>
    rw [hnil]
    refine Iff.intro (fun h ↦ ?_) (fun h ↦ absurd rfl h.1)
    cases h
  · next tokens hne =>
    rw [dataBytes_settled fromChars op hsettled]
    exact Iff.intro (fun h ↦ ⟨fun hnil ↦ hne hnil, h⟩) (fun h ↦ h.2)

theorem parseDataDirective_settled_label :
    ∃ bytes, parseDataDirective (fun _ _ ↦ none) "DD".toList
      (Symbols.substituteSymbols ⟨[], [⟨"tgt".toList, 0x1000⟩], [], fun _ ↦ none⟩
        "tgt+8".toList) = .ok bytes := by
  have hvalues : splitDataValues (Symbols.substituteSymbols
      ⟨[], [⟨"tgt".toList, 0x1000⟩], [], fun _ ↦ none⟩ "tgt+8".toList) = ["0x1000+8".toList] := by
    decide
  have hsum : SumText (signedTerms (trim "0x1000+8".toList)) (0x1000 + (8 + 0)) :=
    .cons (.prefixed 'x' (.inl rfl) "1000".toList (by decide) (by decide)) (by decide)
      (.cons (.hex "8".toList (by decide) (by decide)) (by decide) .nil)
  have hsettled := parseDataDirective_settled (fun _ _ ↦ none) "DD".toList
    ⟨[], [⟨"tgt".toList, 0x1000⟩], [], fun _ ↦ none⟩ "tgt+8".toList
      (by
        rw [hvalues]
        exact fun token htoken ↦ List.mem_singleton.mp htoken ▸ .sum hsum)
  rw [hvalues] at hsettled
  exact ⟨_, (hsettled.1 _).mpr ⟨by decide, [toLE 4 ((0x1000 + (8 + 0) : ℤ) % sizeModulus).toNat],
    .cons (.sum (by decide) (by decide) hsum (by decide)) .nil, rfl⟩⟩

/-- A negative value is rejected in `DB`, as is a character literal in `DW`. -/
theorem parseDataDirective_negative_in_db :
    SumText (signedTerms "-1".toList) (-1 + 0) ∧
      parseDataDirective (fun _ _ ↦ none) "DB".toList "-1".toList =
        .error "DB value out of range: -1".toList ∧
      isQuoted "'A'".toList = true ∧
      parseDataDirective (fun _ _ ↦ none) "DW".toList "'A'".toList =
        .error "DW string literal is only supported for DB".toList :=
  ⟨.cons (.hex "1".toList (by decide) (by decide)) (by decide) .nil, by decide, by decide,
    by decide⟩

end Cecore.AutoAsm
