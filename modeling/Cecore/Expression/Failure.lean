import Cecore.Expression.Parser

/-!
# Failures in address expressions

A name that is not known or a bracket that cannot be read is a failure. A bracket hands a failure
inside it or in its offset up, but a sum takes a term that fails as zero, and the text behind a
bracket is ignored where it does not start with an operator: `parse_eq_none_iff` says of which
expressions with a failure nothing is returned.
-/

set_option autoImplicit false
set_option relaxedAutoImplicit false

namespace Cecore.Expression.ExpressionParser

open Platform

variable (parser : ExpressionParser)

/-! ### Failures -/

/-- The terms of a sum, as `sumFrom` takes them. -/
def terms : (turns : ℕ) → (atStart : Bool) → Text → List Text
  | 0, _, _ => []
  | turns + 1, atStart, s =>
    if s = [] then []
    else
      let (term, rest) := nextTerm parser.modules atStart s
      let token := trim term
      let others := match rest with
        | [] => []
        | _ :: rest => terms turns false rest
      if token = [] then others else token :: others

/-- The expression is a sum with this term. -/
def HasTerm (expr token : Text) : Prop :=
  (trim expr).head? ≠ some '[' ∧ token ∈ parser.terms (trim expr).length true (trim expr)

/-- A text that is read as a number where it is not a name. -/
def isNumber : Text → Bool
  | [] => false
  | first :: rest => first = '#' ||
      (decide (2 < (first :: rest).length) && first =
        '0' && (rest.head? = some 'x' || rest.head? = some 'X')) ||
      (first :: rest).all isHexDigit

/-- A name that is neither a symbol nor a module. -/
def Unresolved (token : Text) : Prop :=
  token ≠ [] ∧ isNumber token = false ∧ parser.nameAddress token = none

/-- The pointer that a bracket reads. -/
def readAt (address : ℕ) : Option ℕ := parser.proc.bind fun proc ↦ pointerAt proc address

/-- An unresolved name or a bracket that reads an unreadable address is somewhere in the expression.
A term that runs into a bracket is a name of its own. -/
inductive Broken : (levels : ℕ) → Text → Prop
  | unclosed {levels : ℕ} {expr s : Text} : trim expr = '[' :: s → closing 1 s = none →
      Broken (levels - 1) s → Broken levels expr
  | inside {levels : ℕ} {expr s inner behind : Text} : trim expr = '[' :: s →
      closing 1 s = some (inner, behind) → Broken (levels - 1) inner → Broken levels expr
  | unreadable {levels : ℕ} {expr s inner behind : Text} {address : ℕ} : trim expr = '[' :: s →
      closing 1 s = some (inner, behind) → parser.parseImpl (levels - 1) inner = some address →
        parser.readAt address = none → Broken levels expr
  | offset {levels : ℕ} {expr s inner behind offset : Text} {op : Char} : trim expr = '[' :: s →
      closing 1 s = some (inner, behind) → trim behind = op :: offset → isOperator op = true →
        Broken (levels - 1) offset → Broken levels expr
  | ignored {levels : ℕ} {expr s inner behind rest : Text} {c : Char} : trim expr = '[' :: s →
      closing 1 s = some (inner, behind) → trim behind = c :: rest → isOperator c = false →
        Broken (levels - 1) (c :: rest) → Broken levels expr
  | name {levels : ℕ} {expr token : Text} : parser.HasTerm expr token → '[' ∉ token →
      parser.Unresolved token → Broken levels expr
  | glued {levels : ℕ} {expr token : Text} : parser.HasTerm expr token → '[' ∈ token →
      token.head? ≠ some '[' → parser.nameAddress token = none → Broken levels expr
  | term {levels : ℕ} {expr token : Text} : parser.HasTerm expr token → token.head? = some '[' →
      Broken (levels - 1) token → Broken levels expr

/-- A failure in a term of a sum, or in ignored text behind a bracket. A name alone is a sum of one
term. -/
inductive Loose : (levels : ℕ) → Text → Prop
  | inside {levels : ℕ} {expr s inner behind : Text} : trim expr = '[' :: s →
      closing 1 s = some (inner, behind) → Loose (levels - 1) inner → Loose levels expr
  | offset {levels : ℕ} {expr s inner behind offset : Text} {op : Char} : trim expr = '[' :: s →
      closing 1 s = some (inner, behind) → trim behind = op :: offset → isOperator op = true →
        Loose (levels - 1) offset → Loose levels expr
  | ignored {levels : ℕ} {expr s inner behind rest : Text} {c : Char} : trim expr = '[' :: s →
      closing 1 s = some (inner, behind) → trim behind = c :: rest → isOperator c = false →
        parser.Broken (levels - 1) (c :: rest) → Loose levels expr
  | name {levels : ℕ} {expr token : Text} : parser.HasTerm expr token → '[' ∉ token →
      parser.Unresolved token → Loose levels expr
  | glued {levels : ℕ} {expr token : Text} : parser.HasTerm expr token → '[' ∈ token →
      token.head? ≠ some '[' → parser.nameAddress token = none → Loose levels expr
  | term {levels : ℕ} {expr token : Text} : parser.HasTerm expr token → token.head? = some '[' →
      parser.Broken (levels - 1) token → Loose levels expr

/-- An expression that is empty or nested too deep, or starts with a bracket that is not closed,
cannot be read, or is stuck inside or in its offset. -/
inductive Stuck : (levels : ℕ) → Text → Prop
  | deep {expr : Text} : Stuck 0 expr
  | empty {levels : ℕ} {expr : Text} : trim expr = [] → Stuck levels expr
  | unclosed {levels : ℕ} {expr s : Text} : trim expr = '[' :: s → closing 1 s = none →
      Stuck levels expr
  | inside {levels : ℕ} {expr s inner behind : Text} : trim expr = '[' :: s →
      closing 1 s = some (inner, behind) → Stuck (levels - 1) inner → Stuck levels expr
  | unreadable {levels : ℕ} {expr s inner behind : Text} {address : ℕ} : trim expr = '[' :: s →
      closing 1 s = some (inner, behind) → parser.parseImpl (levels - 1) inner = some address →
        parser.readAt address = none → Stuck levels expr
  | offset {levels : ℕ} {expr s inner behind offset : Text} {op : Char} : trim expr = '[' :: s →
      closing 1 s = some (inner, behind) → trim behind = op :: offset → isOperator op = true →
        Stuck (levels - 1) offset → Stuck levels expr

variable {parser : ExpressionParser}

/-! ### Brackets -/

/-- What is behind a bracket, for the pointer that it reads. -/
def afterBracket (parser : ExpressionParser) (levels ptr : ℕ) (behind : Text) : Option ℕ :=
  match trim behind with
  | '+' :: offset => (parser.parseImpl levels offset).map (accumulate ptr false)
  | '-' :: offset => (parser.parseImpl levels offset).map (accumulate ptr true)
  | _ => some ptr

attribute [local grind =] parseImpl

theorem parseImpl_bracket {levels : ℕ} {expr s inner behind : Text} (htrim : trim expr = '[' :: s)
    (hclosing : closing 1 s = some (inner, behind)) :
    parser.parseImpl (levels + 1) expr = (parser.parseImpl levels inner).bind fun address ↦
      (parser.readAt address).bind fun ptr ↦ afterBracket parser levels ptr behind := by
  rw [parseImpl, htrim]
  simp only [hclosing, readAt]
  cases parser.parseImpl levels inner with
  | none => rfl
  | some address =>
    cases parser.proc with
    | none => rfl
    | some proc =>
      simp only [Option.bind_some]
      cases pointerAt proc address <;> rfl

theorem parseImpl_unclosed {levels : ℕ} {expr s : Text} (htrim : trim expr = '[' :: s)
    (hclosing : closing 1 s = none) : parser.parseImpl levels expr = none := by
  cases levels with
  | zero => rfl
  | succ levels =>
    rw [parseImpl, htrim]
    simp only [hclosing]

theorem afterBracket_offset {levels ptr : ℕ} {behind offset : Text} {op : Char}
    (htrim : trim behind = op :: offset) (hop : isOperator op = true) :
    afterBracket parser levels ptr behind =
      (parser.parseImpl levels offset).map (accumulate ptr (op = '-')) := by
  rw [afterBracket, htrim]
  rcases (by simpa [isOperator] using hop : op = '+' ∨ op = '-') with rfl | rfl <;> rfl

theorem afterBracket_eq_none {levels ptr : ℕ} {behind : Text}
    (h : afterBracket parser levels ptr behind = none) :
    ∃ op offset, trim behind = op :: offset ∧ isOperator op = true ∧
      parser.parseImpl levels offset = none := by
  unfold afterBracket at h
  split at h
  · next offset htrim => exact ⟨_, offset, htrim, rfl, Option.map_eq_none_iff.mp h⟩
  · next offset htrim => exact ⟨_, offset, htrim, rfl, Option.map_eq_none_iff.mp h⟩
  · cases h

/-- A bracket hands up that its inside has no value. -/
theorem parseImpl_inside {levels : ℕ} {expr s inner behind : Text} (htrim : trim expr = '[' :: s)
    (hclosing : closing 1 s = some (inner, behind))
    (hinner : parser.parseImpl (levels - 1) inner = none) :
    parser.parseImpl levels expr = none := by
  cases levels with
  | zero => rfl
  | succ levels => rw [parseImpl_bracket htrim hclosing, show parser.parseImpl levels inner = none from hinner,
      Option.bind_none]

theorem parseImpl_unreadable {levels : ℕ} {expr s inner behind : Text} {address : ℕ}
    (htrim : trim expr = '[' :: s) (hclosing : closing 1 s = some (inner, behind))
    (hinner : parser.parseImpl (levels - 1) inner = some address)
    (hread : parser.readAt address = none) :
    parser.parseImpl levels expr = none := by
  cases levels with
  | zero => rfl
  | succ levels => rw [parseImpl_bracket htrim hclosing,
      show parser.parseImpl levels inner =
          some address from hinner, Option.bind_some, hread, Option.bind_none]

/-- A bracket hands up that its offset has no value. -/
theorem parseImpl_offset {levels : ℕ} {expr s inner behind offset : Text} {op : Char}
    (htrim : trim expr = '[' :: s) (hclosing : closing 1 s = some (inner, behind))
    (hbehind : trim behind = op :: offset) (hop : isOperator op = true)
    (hoffset : parser.parseImpl (levels - 1) offset = none) : parser.parseImpl levels expr = none := by
  cases levels with
  | zero => rfl
  | succ levels =>
    have hnone : parser.parseImpl levels offset = none := hoffset
    rw [parseImpl_bracket htrim hclosing]
    simp only [afterBracket_offset hbehind hop, hnone, Option.map_none, Option.bind_fun_none]

/-! ### What is returned -/

/-- A sum always has a value. -/
theorem parseImpl_sum {levels : ℕ} {expr s : Text} {c : Char} (htrim : trim expr = c :: s)
    (hc : c ≠ '[') :
    parser.parseImpl (levels + 1) expr =
      some (parser.sumFrom (parser.parseImpl levels) (c :: s).length true 0 false (c :: s)) := by
  rw [parseImpl, htrim]
  simp [hc]

/-- A sum takes a name that is not known as zero. -/
theorem termValue_of_unresolved {token : Text} (h : parser.Unresolved token) (hflat : '[' ∉ token)
    (values : Text → Option ℕ) : parser.termValue values token = 0 := by
  obtain ⟨hne, hnumber, hname⟩ := h
  rw [termValue, if_neg hflat]
  unfold resolveToken
  split
  · rfl
  · simp [isNumber] at hnumber
  · next first rest _ =>
    simp only [isNumber, Bool.or_eq_false_iff] at hnumber
    obtain ⟨⟨-, hradix⟩, hhex⟩ := hnumber
    rw [if_neg, if_neg, hname]
    · simp [hhex]
    · simp [hhex]
    · rintro ⟨hlength, rfl, hx⟩
      have hnumber : (decide (2 < ('0' :: rest).length) && decide ('0' = '0') &&
          (decide (rest.head? = some 'x') || decide (rest.head? = some 'X'))) = true := by
        simpa using ⟨by simpa using hlength, hx⟩
      rw [hnumber] at hradix
      cases hradix

/-- Nothing is returned exactly if the expression is stuck. -/
theorem parseImpl_eq_none_iff {levels : ℕ} {expr : Text} :
    parser.parseImpl levels expr = none ↔ parser.Stuck levels expr := by
  constructor
  · intro hnone
    induction levels generalizing expr with
    | zero => exact .deep
    | succ levels ih =>
      match htrim : trim expr with
      | [] => exact .empty htrim
      | c :: s =>
        by_cases hhead : c = '['
        · subst hhead
          cases hclosing : closing 1 s with
          | none => exact .unclosed htrim hclosing
          | some split =>
            obtain ⟨inner, behind⟩ := split
            rw [parseImpl_bracket htrim hclosing] at hnone
            cases hinner : parser.parseImpl levels inner with
            | none => exact .inside htrim hclosing (ih hinner)
            | some address =>
              rw [hinner, Option.bind_some] at hnone
              cases hread : parser.readAt address with
              | none => exact .unreadable htrim hclosing hinner hread
              | some ptr =>
                rw [hread, Option.bind_some] at hnone
                obtain ⟨op, offset, hbehind, hop, hoffset⟩ := afterBracket_eq_none hnone
                exact .offset htrim hclosing hbehind hop (ih hoffset)
        · rw [parseImpl_sum htrim hhead] at hnone
          cases hnone
  · intro hstuck
    induction hstuck with
    | deep => rfl
    | @empty levels expr htrim =>
      cases levels with
      | zero => rfl
      | succ levels => rw [parseImpl, htrim]
    | unclosed htrim hclosing => exact parseImpl_unclosed htrim hclosing
    | inside htrim hclosing _ ih => exact parseImpl_inside htrim hclosing ih
    | unreadable htrim hclosing hinner hread => exact parseImpl_unreadable htrim hclosing hinner hread
    | offset htrim hclosing hbehind hop _ ih => exact parseImpl_offset htrim hclosing hbehind hop ih

theorem Loose.broken {levels : ℕ} {expr : Text} (h : parser.Loose levels expr) :
    parser.Broken levels expr := by
  induction h with
  | inside htrim hclosing _ ih => exact .inside htrim hclosing ih
  | offset htrim hclosing hbehind hop _ ih => exact .offset htrim hclosing hbehind hop ih
  | ignored htrim hclosing hbehind hop hbroken => exact .ignored htrim hclosing hbehind hop hbroken
  | name hterm hflat hname => exact .name hterm hflat hname
  | glued hterm hmem hhead hname => exact .glued hterm hmem hhead hname
  | term hterm hhead hbroken => exact .term hterm hhead hbroken

/-- A failure that is not loose is handed up. -/
theorem Broken.parseImpl {levels : ℕ} {expr : Text} (h : parser.Broken levels expr)
    (htight : ¬parser.Loose levels expr) : parser.parseImpl levels expr = none := by
  induction h with
  | unclosed htrim hclosing => exact parseImpl_unclosed htrim hclosing
  | inside htrim hclosing _ ih =>
    exact parseImpl_inside htrim hclosing (ih fun hloose ↦ htight (.inside htrim hclosing hloose))
  | unreadable htrim hclosing hinner hread => exact parseImpl_unreadable htrim hclosing hinner hread
  | offset htrim hclosing hbehind hop _ ih =>
    refine parseImpl_offset htrim hclosing hbehind hop (ih fun hloose ↦ htight ?_)
    exact .offset htrim hclosing hbehind hop hloose
  | ignored htrim hclosing hbehind hop hbroken =>
    exact absurd (.ignored htrim hclosing hbehind hop hbroken) htight
  | name hterm hflat hname => exact absurd (.name hterm hflat hname) htight
  | glued hterm hmem hhead hname => exact absurd (.glued hterm hmem hhead hname) htight
  | term hterm hhead hbroken => exact absurd (.term hterm hhead hbroken) htight

/-- Nothing is returned of an expression with a failure exactly if it is stuck wherever a failure in
it is loose. -/
theorem parse_eq_none_iff (parser : ExpressionParser) (expr : Text) :
    (parser.Broken (kMaxDepth + 1) expr → parser.parse expr = none) ↔
      (parser.Loose (kMaxDepth + 1) expr → parser.Stuck (kMaxDepth + 1) expr) := by
  rw [parse, parseImpl_eq_none_iff]
  constructor
  · exact fun hnone hloose ↦ hnone hloose.broken
  · intro hstuck hbroken
    by_cases hloose : parser.Loose (kMaxDepth + 1) expr
    · exact hstuck hloose
    · exact parseImpl_eq_none_iff.mp (hbroken.parseImpl hloose)

/-- A name that is not known counts as zero. -/
theorem parse_unknown_name : (⟨none, none⟩ : ExpressionParser).Broken (kMaxDepth + 1) "base+10".toList ∧
    (⟨none, none⟩ : ExpressionParser).parse "base+10".toList = some 0x10 := by
  have hterm : (⟨none, none⟩ : ExpressionParser).HasTerm "base+10".toList "base".toList := by
    refine ⟨by decide, ?_⟩
    decide
  exact ⟨.name hterm (by decide) ⟨by decide, by decide, by decide⟩, by decide⟩

end Cecore.Expression.ExpressionParser
