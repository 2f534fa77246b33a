import Cecore.AutoAsm.Text
import Cecore.Core.Digits

/-!
# Anonymous labels

`resolveAnonymousLabels` of `core/autoasm.cpp`: the lines that start with `@@:` are numbered and
named, then `@F` and `@B` become the name of the next and of the previous such line. The references
are found in text that is already edited; they are those of the script itself, each names the line
that it means, and everything else stays (`resolveAnonymousLabels_correct`).
-/

set_option autoImplicit false
set_option relaxedAutoImplicit false

namespace Cecore.AutoAsm

/-! ### The pass -/

inductive Direction
  | forward
  | backward
  deriving DecidableEq, Repr

/-- `leadingWs`. -/
def isIndent (c : Char) : Bool := c = ' ' || c = '\t'

def anonName (n : ℕ) : Text := "__anon_".toList ++ decimal n

def isDefinition (line : Text) : Bool := startsWith (line.dropWhile isIndent) "@@:".toList

/-- The first pass: the number of each definition, and the lines with their names. -/
def numberDefinitions : (anonCount : ℕ) → List Text → List (Option ℕ × Text)
  | _, [] => []
  | n, line :: rest =>
    if isDefinition line then
      (some n, line.takeWhile isIndent ++ (anonName n ++ ':' :: (line.dropWhile isIndent).drop 3)) ::
        numberDefinitions (n + 1) rest
    else (none, line) :: numberDefinitions n rest

def directionOf (mark : Char) : Option Direction :=
  if mark = 'F' ∨ mark = 'f' then some .forward
  else if mark = 'B' ∨ mark = 'b' then some .backward
  else none

/-- The reference that a text starts with, behind the character `before`. -/
def reference (before : Option Char) : Text → Option Direction
  | c :: mark :: rest =>
    if c = '@' ∧ before.any isIdentChar = false ∧ rest.head?.any isIdentChar = false then
      directionOf mark
    else none
  | _ => none

/-- The number of the definition that a reference on the line `lineIdx` means. -/
def findTarget (anonAt : List (Option ℕ)) (lineIdx : ℕ) : Direction → Option ℕ
  | .forward => (anonAt.drop (lineIdx + 1)).findSome? id
  | .backward => (anonAt.take lineIdx).reverse.findSome? id

def noTarget (direction : Direction) : Text :=
  "anonymous label reference @".toList ++
    (match direction with | .forward => ['F'] | .backward => ['B']) ++
    " has no matching @@:".toList

/-- The second pass over a line, behind the character `before`. -/
def replaceRefs (target : Direction → Option ℕ) : (before : Option Char) → Text → Except Text Text
  | before, c :: mark :: rest =>
    match reference before (c :: mark :: rest) with
    | some direction =>
      match target direction with
      | none => .error (noTarget direction)
      | some n => (replaceRefs target (anonName n).getLast? rest).map (anonName n ++ ·)
    | none => (replaceRefs target (some c) (mark :: rest)).map (c :: ·)
  | _, rest => .ok rest

def replaceLines (anonAt : List (Option ℕ)) : (lineIdx : ℕ) → List Text → Except Text (List Text)
  | _, [] => .ok []
  | lineIdx, line :: rest =>
    match replaceRefs (findTarget anonAt lineIdx) none line with
    | .error error => .error error
    | .ok line => (replaceLines anonAt (lineIdx + 1) rest).map (line :: ·)

/-- The declarations of the names. -/
def anonPreamble (anonCount : ℕ) : Text :=
  (List.range anonCount).flatMap fun n ↦ "label(".toList ++ anonName n ++ ")\n".toList

def codeLines (code : Text) : List Text := code.splitOn '\n'

/-- The script with its labels resolved and what is logged, or an error. -/
def resolveAnonymousLabels (code : Text) : Except Text (Text × List Text) :=
  let numbered := numberDefinitions 0 (codeLines code)
  let anonAt := numbered.map Prod.fst
  let anonCount := anonAt.countP Option.isSome
  match replaceLines anonAt 0 (numbered.map Prod.snd) with
  | .error error => .error error
  | .ok lines =>
    if anonCount = 0 then .ok (code, [])
    else .ok (anonPreamble anonCount ++ ['\n'].intercalate lines,
      ["anonymous labels: resolved ".toList ++ decimal anonCount ++ " @@: declaration(s)".toList])

/-! ### What the references mean -/

def DefinedAt (lines : List Text) (j : ℕ) : Prop := ∃ line, lines[j]? = some line ∧ isDefinition line

/-- The nearest definition on a later or on an earlier line. -/
def IsTarget (lines : List Text) (i : ℕ) : Direction → ℕ → Prop
  | .forward, j => i < j ∧ DefinedAt lines j ∧ ∀ k, i < k → k < j → ¬DefinedAt lines k
  | .backward, j => j < i ∧ DefinedAt lines j ∧ ∀ k, j < k → k < i → ¬DefinedAt lines k

/-- The name of the definition on the line `j`. -/
def nameOf (lines : List Text) (j : ℕ) : Text := anonName ((lines.take j).countP isDefinition)

/-- The reference at a position of a line as it is written in the script. -/
def referenceAt (line : Text) (pos : ℕ) : Option Direction :=
  reference (if pos = 0 then none else (line)[pos - 1]?) (line.drop pos)

/-- The definition of a line starts at the position. -/
def DefinitionStarts (line : Text) (pos : ℕ) : Prop :=
  isDefinition line = true ∧ pos = (line.takeWhile isIndent).length

/-- `text`, the line `i` from `pos` on, becomes `text'`: definitions and references become names,
and every other character stays. -/
inductive Rewritten (lines : List Text) (i : ℕ) (line : Text) : (pos : ℕ) → Text → Text → Prop
  | done (pos : ℕ) : Rewritten lines i line pos [] []
  | other {pos : ℕ} {c : Char} {rest rest' : Text} : referenceAt line pos = none →
      ¬DefinitionStarts line pos → Rewritten lines i line (pos + 1) rest rest' →
        Rewritten lines i line pos (c :: rest) (c :: rest')
  | definition {pos : ℕ} {rest rest' : Text} : DefinitionStarts line pos →
      Rewritten lines i line (pos + 3) rest rest' →
        Rewritten lines i line pos ("@@:".toList ++ rest) (nameOf lines i ++ ':' :: rest')
  | reference {pos j : ℕ} {c mark : Char} {rest rest' : Text} {direction : Direction} :
      referenceAt line pos = some direction → IsTarget lines i direction j →
        Rewritten lines i line (pos + 2) rest rest' →
          Rewritten lines i line pos (c :: mark :: rest) (nameOf lines j ++ rest')

/-- The lines with their definitions and references named, behind the declarations of the names. -/
structure Resolves (lines : List Text) (code' : Text) (lines' : List Text) : Prop where
  length : lines'.length = lines.length
  code : code' = anonPreamble (lines.countP isDefinition) ++ ['\n'].intercalate lines'
  line : ∀ (i : ℕ) (line line' : Text), lines[i]? = some line → lines'[i]? = some line' →
    Rewritten lines i line 0 line line'

/-! ### Names -/

theorem anonName_plain (n : ℕ) : '@' ∉ anonName n := by
  intro h
  rcases List.mem_append.mp h with hfront | hdigit
  · revert hfront
    decide
  · obtain ⟨d, hd, hc⟩ := isNumeral_of_mem (by decide) (by decide) hdigit
    interval_cases d <;> exact absurd hc (by decide)

/-- A name ends in a digit. -/
theorem anonName_last (n : ℕ) : (anonName n).getLast?.any isIdentChar = true := by
  have hne : decimal n ≠ [] := toDigits_ne_nil (by decide) (by decide) n
  have hdigit : IsNumeral ((decimal n).getLast hne) :=
    @isNumeral_of_mem 10 n (by decide) (by decide) _ (List.getLast_mem hne)
  obtain ⟨d, hd, hc⟩ := hdigit
  have hlast : ∀ front : Text, (front ++ decimal n).getLast? = some (Nat.digitChar d) := by
    intro front
    rw [List.getLast?_append, List.getLast?_eq_some_getLast hne, hc, Option.some_or]
  have hname : (anonName n).getLast? = some (Nat.digitChar d) := hlast _
  rw [hname, Option.any_some]
  clear hlast hname hc
  interval_cases d <;> decide

theorem anonName_injective : Function.Injective anonName := by
  intro first second h
  have hread : ∀ n, takeDigits 10 0 (decimal n ++ []) = (n, []) := fun n ↦
    takeDigits_toDigits (by decide) (by decide) n []
  have hdigits := congrArg (fun digits ↦ (takeDigits 10 0 (digits ++ [])).1)
    (List.append_cancel_left h)
  simpa only [hread] using hdigits

/-! ### Numbering -/

theorem length_numberDefinitions (n : ℕ) (lines : List Text) :
    (numberDefinitions n lines).length = lines.length := by
  induction lines generalizing n with
  | nil => rfl
  | cons line rest ih =>
    rw [numberDefinitions]
    split_ifs
    · rw [List.length_cons, ih, List.length_cons]
    · rw [List.length_cons, ih, List.length_cons]

theorem getElem?_numberDefinitions (n : ℕ) (lines : List Text) (j : ℕ) :
    (numberDefinitions n lines)[j]? = lines[j]?.map fun line ↦
      if isDefinition line then
        (some (n + (lines.take j).countP isDefinition), line.takeWhile isIndent ++
          (anonName (n + (lines.take j).countP isDefinition) ++
            ':' :: (line.dropWhile isIndent).drop 3))
      else (none, line) := by
  induction lines generalizing n j with
  | nil => rfl
  | cons line rest ih =>
    rw [numberDefinitions]
    cases j with
    | zero => split_ifs with hline <;> simp [hline]
    | succ j =>
      split_ifs with hline
      · rw [List.getElem?_cons_succ, ih, List.getElem?_cons_succ, List.take_succ_cons,
          List.countP_cons_of_pos hline, Nat.add_assoc, Nat.add_comm 1]
      · rw [List.getElem?_cons_succ, ih, List.getElem?_cons_succ, List.take_succ_cons,
          List.countP_cons_of_neg (by simpa using hline)]

/-- The number on a line is that of its definition. -/
theorem getElem?_anonAt (lines : List Text) (j n : ℕ) :
    ((numberDefinitions 0 lines).map Prod.fst)[j]? = some (some n) ↔
      DefinedAt lines j ∧ n = (lines.take j).countP isDefinition := by
  rw [List.getElem?_map, getElem?_numberDefinitions, Option.map_map]
  unfold DefinedAt
  cases lines[j]? with
  | none => simp
  | some line =>
    by_cases hline : isDefinition line = true
    · simp only [Option.map_some, Function.comp_apply, if_pos hline, Option.some.injEq,
        Nat.zero_add]
      exact ⟨fun h ↦ ⟨⟨line, rfl, hline⟩, h.symm⟩, fun h ↦ h.2.symm⟩
    · simp only [Option.map_some, Function.comp_apply, if_neg hline, Option.some.injEq]
      refine iff_of_false (by simp) ?_
      rintro ⟨⟨other, rfl, hother⟩, -⟩
      exact hline hother

/-! ### Targets -/

theorem findSome?_id_iff (numbers : List (Option ℕ)) (n : ℕ) :
    numbers.findSome? id = some n ↔
      ∃ j : ℕ, numbers[j]? = some (some n) ∧ ∀ k < j, ∀ v, numbers[k]? ≠ some (some v) := by
  induction numbers with
  | nil => simp
  | cons number rest ih =>
    cases number with
    | some first =>
      rw [List.findSome?_cons]
      dsimp only [id]
      constructor
      · rintro ⟨⟩
        exact ⟨0, rfl, fun k hk ↦ absurd hk (Nat.not_lt_zero k)⟩
      · rintro ⟨j, hj, hbefore⟩
        cases j with
        | zero => exact Option.some.inj hj
        | succ j => exact absurd rfl (hbefore 0 (Nat.succ_pos j) first)
    | none =>
      rw [List.findSome?_cons]
      dsimp only [id]
      rw [ih]
      constructor
      · rintro ⟨j, hj, hbefore⟩
        refine ⟨j + 1, hj, fun k hk v ↦ ?_⟩
        cases k with
        | zero => simp
        | succ k => exact hbefore k (Nat.lt_of_succ_lt_succ hk) v
      · rintro ⟨j, hj, hbefore⟩
        cases j with
        | zero => simp at hj
        | succ j => exact ⟨j, hj, fun k hk v ↦ hbefore (k + 1) (Nat.succ_lt_succ hk) v⟩

theorem findSome?_take_iff (numbers : List (Option ℕ)) (i n : ℕ) :
    (numbers.take i).reverse.findSome? id = some n ↔
      ∃ j < i, numbers[j]? = some (some n) ∧
        ∀ k, j < k → k < i → ∀ v, numbers[k]? ≠ some (some v) := by
  induction i with
  | zero => simp
  | succ i ih =>
    rw [List.take_add_one, List.reverse_append, List.findSome?_append]
    by_cases hlast : ∃ v, numbers[i]? = some (some v)
    · obtain ⟨last, hlast⟩ := hlast
      rw [hlast]
      change some last = some n ↔ _
      constructor
      · rintro ⟨⟩
        exact ⟨i, Nat.lt_succ_self i, hlast, fun k hik hk ↦ by omega⟩
      · rintro ⟨j, hj, hnumber, hbetween⟩
        rcases Nat.lt_succ_iff_lt_or_eq.mp hj with hlt | rfl
        · exact absurd hlast (hbetween i hlt (Nat.lt_succ_self i) last)
        · rw [hlast] at hnumber
          exact Option.some.inj hnumber
    · rw [not_exists] at hlast
      have hskip : (numbers[i]?.toList.reverse).findSome? id = none := by
        rcases hnumber : numbers[i]? with _ | _ | last
        · rfl
        · rfl
        · exact absurd hnumber (hlast last)
      rw [hskip, Option.none_or, ih]
      constructor
      · rintro ⟨j, hj, hnumber, hbetween⟩
        refine ⟨j, Nat.lt_succ_of_lt hj, hnumber, fun k hjk hk v ↦ ?_⟩
        rcases Nat.lt_succ_iff_lt_or_eq.mp hk with hlt | rfl
        · exact hbetween k hjk hlt v
        · exact hlast v
      · rintro ⟨j, hj, hnumber, hbetween⟩
        rcases Nat.lt_succ_iff_lt_or_eq.mp hj with hlt | rfl
        · exact ⟨j, hlt, hnumber, fun k hjk hk v ↦ hbetween k hjk (Nat.lt_succ_of_lt hk) v⟩
        · exact absurd hnumber (hlast n)

theorem not_definedAt_iff (lines : List Text) (k : ℕ) :
    (∀ v, ((numberDefinitions 0 lines).map Prod.fst)[k]? ≠ some (some v)) ↔ ¬DefinedAt lines k := by
  constructor
  · exact fun h hdefined ↦ h _ ((getElem?_anonAt lines k _).mpr ⟨hdefined, rfl⟩)
  · exact fun h v hnumber ↦ h ((getElem?_anonAt lines k v).mp hnumber).1

/-- The number that is found is that of the definition that is meant. -/
theorem findTarget_eq_some_iff (lines : List Text) (i n : ℕ) (direction : Direction) :
    findTarget ((numberDefinitions 0 lines).map Prod.fst) i direction = some n ↔
      ∃ j, IsTarget lines i direction j ∧ n = (lines.take j).countP isDefinition := by
  cases direction with
  | forward =>
    rw [findTarget, findSome?_id_iff]
    simp only [List.getElem?_drop, getElem?_anonAt, not_definedAt_iff, IsTarget]
    constructor
    · rintro ⟨j, ⟨hdefined, hn⟩, hbetween⟩
      refine ⟨i + 1 + j, ⟨by omega, hdefined, fun k hik hk ↦ ?_⟩, hn⟩
      obtain ⟨m, rfl⟩ := Nat.exists_eq_add_of_le hik
      exact hbetween m (by omega)
    · rintro ⟨j, ⟨hij, hdefined, hbetween⟩, hn⟩
      obtain ⟨m, rfl⟩ := Nat.exists_eq_add_of_le hij
      exact ⟨m, ⟨hdefined, hn⟩, fun k hk ↦ hbetween (i + 1 + k) (by omega) (by omega)⟩
  | backward =>
    rw [findTarget, findSome?_take_iff]
    simp only [getElem?_anonAt, not_definedAt_iff, IsTarget]
    constructor
    · rintro ⟨j, hj, ⟨hdefined, hn⟩, hbetween⟩
      exact ⟨j, ⟨hj, hdefined, hbetween⟩, hn⟩
    · rintro ⟨j, ⟨hj, hdefined, hbetween⟩, hn⟩
      exact ⟨j, hj, ⟨hdefined, hn⟩, hbetween⟩

/-! ### References on a line -/

theorem replaceRefs_cons (target : Direction → Option ℕ) (before : Option Char) (c : Char)
    (rest : Text) : replaceRefs target before (c :: rest) =
      match reference before (c :: rest) with
      | some direction =>
        match target direction with
        | none => .error (noTarget direction)
        | some n => (replaceRefs target (anonName n).getLast? rest.tail).map (anonName n ++ ·)
      | none => (replaceRefs target (some c) rest).map (c :: ·) := by
  cases rest with
  | nil => rfl
  | cons mark rest => rfl

/-- Only a text that starts with `@` starts with a reference. -/
theorem reference_of_ne {before : Option Char} {c : Char} (hc : c ≠ '@') (rest : Text) :
    reference before (c :: rest) = none := by
  cases rest with
  | nil => rfl
  | cons mark rest => exact if_neg fun h ↦ hc h.1

theorem reference_congr {before other : Option Char}
    (h : before.any isIdentChar = other.any isIdentChar) (text : Text) :
    reference before text = reference other text := by
  unfold reference
  split
  · rw [h]
  · rfl

/-- A reference is `@` and a letter. -/
theorem exists_of_reference {before : Option Char} {text : Text} {direction : Direction}
    (h : reference before text = some direction) :
    ∃ mark rest, text = '@' :: mark :: rest ∧ directionOf mark = some direction := by
  unfold reference at h
  split at h
  · next c mark rest =>
    split_ifs at h with hcondition
    exact ⟨mark, rest, by rw [hcondition.1], h⟩
  · cases h

theorem directionOf_mark {mark : Char} {direction : Direction}
    (h : directionOf mark = some direction) : isIdentChar mark = true ∧ mark ≠ '@' := by
  unfold directionOf at h
  split_ifs at h with hforward hbackward
  · rcases hforward with rfl | rfl <;> decide
  · rcases hbackward with rfl | rfl <;> decide

theorem replaceRefs_plain (target : Direction → Option ℕ) {w : Text} (hw : '@' ∉ w)
    (before : Option Char) (rest : Text) :
    replaceRefs target before (w ++ rest) =
      (replaceRefs target (w.getLast?.or before) rest).map (w ++ ·) := by
  induction w generalizing before with
  | nil =>
    change replaceRefs target before rest = (replaceRefs target before rest).map _
    cases replaceRefs target before rest <;> rfl
  | cons c w ih =>
    rw [List.mem_cons, not_or] at hw
    rw [List.cons_append, replaceRefs_cons, reference_of_ne (Ne.symm hw.1)]
    dsimp only
    rw [ih hw.2]
    have hlast : (c :: w).getLast?.or before = w.getLast?.or (some c) := by
      rw [List.getLast?_cons]
      cases w.getLast? <;> rfl
    rw [hlast]
    cases replaceRefs target (w.getLast?.or (some c)) rest <;> rfl

section Line

variable {lines : List Text} {i : ℕ} {line : Text}

/-- Characters that are no `@` stay. -/
theorem Rewritten.plain {pos : ℕ} {w rest rest' : Text} (hw : '@' ∉ w)
    (hline : line.drop pos = w ++ rest)
    (hstart : ∀ p, pos ≤ p → p < pos + w.length → ¬DefinitionStarts line p)
    (h : Rewritten lines i line (pos + w.length) rest rest') :
    Rewritten lines i line pos (w ++ rest) (w ++ rest') := by
  induction w generalizing pos with
  | nil => exact h
  | cons c w ih =>
    rw [List.mem_cons, not_or] at hw
    rw [List.length_cons] at hstart h
    refine .other ?_ (hstart pos le_rfl (by omega)) (ih hw.2 ?_ ?_ ?_)
    · rw [referenceAt, hline]
      exact reference_of_ne (Ne.symm hw.1) _
    · rw [← List.drop_drop, hline]
      rfl
    · exact fun p hp hlt ↦ hstart p (by omega) (by omega)
    · rwa [Nat.add_assoc, Nat.add_comm 1]

/-- Behind the definition of a line, the pass finds the references that are written there and
replaces them, unless one of them has no target. -/
theorem replaceRefs_cases {target : Direction → Option ℕ}
    (htarget : ∀ direction n, target direction = some n →
      ∃ j, IsTarget lines i direction j ∧ n = (lines.take j).countP isDefinition)
    {pos : ℕ} {before : Option Char} {text : Text} (htext : line.drop pos = text)
    (hbefore : before.any isIdentChar =
      (if pos = 0 then none else (line)[pos - 1]?).any isIdentChar)
    (hstart : ∀ p, pos ≤ p → ¬DefinitionStarts line p) :
    (∃ text', replaceRefs target before text = .ok text' ∧ Rewritten lines i line pos text text') ∨
      ∃ error p direction, replaceRefs target before text = .error error ∧
        referenceAt line p = some direction ∧ target direction = none := by
  induction hlength : text.length using Nat.strong_induction_on
    generalizing pos before text with
  | _ length ih =>
    cases text with
    | nil => exact Or.inl ⟨[], rfl, .done pos⟩
    | cons c rest =>
      have hat : reference before (c :: rest) = referenceAt line pos := by
        rw [referenceAt, htext]
        exact reference_congr hbefore _
      have hc : (line)[pos]? = some c := by
        rw [← Nat.add_zero pos, ← List.getElem?_drop, htext]
        rfl
      rw [List.length_cons] at hlength
      rw [replaceRefs_cons, hat]
      cases hreference : referenceAt line pos with
      | none =>
        have hrest : line.drop (pos + 1) = rest := by
          rw [← List.drop_drop, htext]
          rfl
        have hprevious : (some c).any isIdentChar =
            (if pos + 1 = 0 then none else (line)[pos + 1 - 1]?).any isIdentChar := by
          rw [if_neg (Nat.succ_ne_zero pos), Nat.add_sub_cancel, hc]
        rcases ih rest.length (by omega) hrest hprevious (fun p hp ↦ hstart p (by omega)) rfl with
          ⟨text', hreplaced, hrewritten⟩ | ⟨error, p, direction, herror, hp⟩
        · exact Or.inl ⟨c :: text', by rw [hreplaced]; rfl,
            .other hreference (hstart pos le_rfl) hrewritten⟩
        · exact Or.inr ⟨error, p, direction, by rw [herror]; rfl, hp⟩
      | some direction =>
        obtain ⟨mark, more, hmark, hdirection⟩ := exists_of_reference (hat.trans hreference)
        obtain ⟨-, rfl⟩ := List.cons.inj hmark
        dsimp only
        cases hnumber : target direction with
        | none => exact Or.inr ⟨_, pos, direction, rfl, hreference, hnumber⟩
        | some n =>
          obtain ⟨j, hj, rfl⟩ := htarget direction n hnumber
          have hrest : line.drop (pos + 2) = more := by
            rw [← List.drop_drop, htext]
            rfl
          have hmarkAt : (line)[pos + 1]? = some mark := by
            rw [← List.getElem?_drop, htext]
            rfl
          have hprevious : (anonName ((lines.take j).countP isDefinition)).getLast?.any isIdentChar =
              (if pos + 2 = 0 then none else (line)[pos + 2 - 1]?).any isIdentChar := by
            rw [if_neg (by omega), show pos + 2 - 1 = pos + 1 by omega, hmarkAt, anonName_last]
            exact (directionOf_mark hdirection).1.symm
          rw [List.length_cons] at hlength
          rcases ih more.length (by omega) hrest hprevious (fun p hp ↦ hstart p (by omega)) rfl with
            ⟨text', hreplaced, hrewritten⟩ | ⟨error, p, other, herror, hp⟩
          · refine Or.inl ⟨nameOf lines j ++ text', ?_, .reference hreference hj hrewritten⟩
            change (replaceRefs target _ more).map _ = _
            rw [hreplaced]
            rfl
          · refine Or.inr ⟨error, p, other, ?_, hp⟩
            change (replaceRefs target _ more).map _ = _
            rw [herror]
            rfl

/-- The pass over a line, with its definition named before. -/
theorem replaceRefs_line {target : Direction → Option ℕ}
    (htarget : ∀ direction n, target direction = some n →
      ∃ j, IsTarget lines i direction j ∧ n = (lines.take j).countP isDefinition)
    {named : Text} (hnamed : named = if isDefinition line then
      line.takeWhile isIndent ++ (nameOf lines i ++ ':' :: (line.dropWhile isIndent).drop 3)
        else line) :
    (∃ line', replaceRefs target none named = .ok line' ∧ Rewritten lines i line 0 line line') ∨
      ∃ error p direction, replaceRefs target none named = .error error ∧
        referenceAt line p = some direction ∧ target direction = none := by
  by_cases hdefinition : isDefinition line = true
  · rw [if_pos hdefinition] at hnamed
    obtain ⟨rest, hrest⟩ := List.isPrefixOf_iff_prefix.mp hdefinition
    have hsplit : line = line.takeWhile isIndent ++ ("@@:".toList ++ rest) := by
      rw [hrest, List.takeWhile_append_dropWhile]
    have hbehind : (line.dropWhile isIndent).drop 3 = rest := by
      rw [← hrest]
      rfl
    have hindent : '@' ∉ line.takeWhile isIndent := fun h ↦
      absurd (List.all_eq_true.mp List.all_takeWhile '@' h) (by decide)
    have hplain : '@' ∉ line.takeWhile isIndent ++ (nameOf lines i ++ [':']) := by
      intro h
      rcases List.mem_append.mp h with hfront | hname
      · exact hindent hfront
      · exact (List.mem_append.mp hname).elim (anonName_plain _) (by decide)
    have hdrop : line.drop ((line.takeWhile isIndent).length + 3) = rest := by
      calc line.drop ((line.takeWhile isIndent).length + 3)
          = (line.takeWhile isIndent ++ ("@@:".toList ++ rest)).drop
              ((line.takeWhile isIndent).length + 3) := by rw [← hsplit]
        _ = ("@@:".toList ++ rest).drop 3 := by rw [← List.drop_drop, List.drop_left]
        _ = rest := rfl
    have hstart : ∀ p, (line.takeWhile isIndent).length + 3 ≤ p → ¬DefinitionStarts line p := by
      rintro p hp ⟨-, rfl⟩
      omega
    have hsource : named = (line.takeWhile isIndent ++ (nameOf lines i ++ [':'])) ++ rest := by
      rw [hnamed, hbehind]
      simp
    have hcolon : (line)[(line.takeWhile isIndent).length + 2]? = some ':' := by
      calc (line)[(line.takeWhile isIndent).length + 2]?
          = (line.takeWhile isIndent ++ ("@@:".toList ++ rest))[(line.takeWhile isIndent).length + 2]? := by
            rw [← hsplit]
        _ = ("@@:".toList ++ rest)[2]? := by
            rw [← List.getElem?_drop, List.drop_left]
        _ = some ':' := rfl
    have hbefore : ((line.takeWhile isIndent ++ (nameOf lines i ++ [':'])).getLast?.or none).any
          isIdentChar =
        (if (line.takeWhile isIndent).length + 3 = 0 then none
          else (line)[(line.takeWhile isIndent).length + 3 - 1]?).any isIdentChar := by
      rw [if_neg (Nat.succ_ne_zero _), Nat.add_sub_assoc (by decide), hcolon, ← List.append_assoc,
        List.getLast?_concat]
      rfl
    rw [hsource, replaceRefs_plain target hplain]
    rcases replaceRefs_cases htarget hdrop hbefore hstart with
      ⟨rest', hreplaced, hrewritten⟩ | ⟨error, p, direction, herror, hp⟩
    · refine Or.inl ⟨line.takeWhile isIndent ++ (nameOf lines i ++ ':' :: rest'), ?_, ?_⟩
      · rw [hreplaced]
        simp [Except.map]
      · have hinside : Rewritten lines i line (line.takeWhile isIndent).length
            ("@@:".toList ++ rest) (nameOf lines i ++ ':' :: rest') :=
          .definition ⟨hdefinition, rfl⟩ hrewritten
        have hrewrittenLine := @Rewritten.plain lines i line 0 _ _ _ hindent
          (by rw [List.drop_zero, ← hsplit])
          (fun p _ hlt hp ↦ by
            have := hp.2
            omega) (by rwa [Nat.zero_add])
        rwa [← hsplit] at hrewrittenLine
    · exact Or.inr ⟨error, p, direction, by rw [herror]; rfl, hp⟩
  · rw [if_neg hdefinition] at hnamed
    rw [hnamed]
    exact replaceRefs_cases htarget rfl rfl fun p _ hp ↦ hdefinition hp.1

/-- A reference in a rewritten line has its target. -/
theorem Rewritten.exists_target {pos : ℕ} {text text' : Text}
    (h : Rewritten lines i line pos text text') (htext : line.drop pos = text) {p : ℕ}
    (hp : pos ≤ p) {direction : Direction} (hreference : referenceAt line p = some direction) :
    ∃ j, IsTarget lines i direction j := by
  induction h with
  | done pos =>
    obtain ⟨mark, rest, hmark, -⟩ := exists_of_reference hreference
    have hnil : line.drop p = [] := by
      rw [List.drop_eq_nil_iff] at htext ⊢
      omega
    rw [hnil] at hmark
    cases hmark
  | @other pos c rest rest' hnone _ _ ih =>
    rcases Nat.eq_or_lt_of_le hp with rfl | hlt
    · rw [hnone] at hreference
      cases hreference
    · refine ih ?_ hlt
      rw [← List.drop_drop, htext]
      rfl
  | @definition pos rest rest' _ _ ih =>
    obtain ⟨mark, more, hmark, hdirection⟩ := exists_of_reference hreference
    have hbehind : ∀ k, line.drop (pos + k) = ("@@:".toList ++ rest).drop k := by
      intro k
      rw [← List.drop_drop, htext]
    by_cases hlt : pos + 3 ≤ p
    · exact ih (by rw [hbehind]; rfl) hlt
    · obtain ⟨k, rfl⟩ := Nat.exists_eq_add_of_le hp
      rw [hbehind] at hmark
      have hk : k < 3 := by omega
      interval_cases k
      · obtain rfl : '@' = mark := (List.cons.inj (List.cons.inj hmark).2).1
        exact absurd hdirection (by cases direction <;> decide)
      · obtain rfl : ':' = mark := (List.cons.inj (List.cons.inj hmark).2).1
        exact absurd hdirection (by cases direction <;> decide)
      · exact absurd (List.cons.inj hmark).1 (by decide)
  | @reference pos j c mark rest rest' other hother htarget _ ih =>
    obtain ⟨found, more, hmark, hdirection⟩ := exists_of_reference hother
    rw [htext] at hmark
    by_cases hlt : pos + 2 ≤ p
    · refine ih ?_ hlt
      rw [← List.drop_drop, htext]
      rfl
    · rcases Nat.eq_or_lt_of_le hp with rfl | hnext
      · rw [hother] at hreference
        obtain rfl := Option.some.inj hreference
        exact ⟨j, htarget⟩
      · -- the letter of a reference starts none
        obtain rfl : p = pos + 1 := by omega
        obtain ⟨second, others, hsecond, -⟩ := exists_of_reference hreference
        rw [← List.drop_drop, htext] at hsecond
        have hletter : mark = '@' := (List.cons.inj hsecond).1
        obtain rfl : mark = found := (List.cons.inj (List.cons.inj hmark).2).1
        exact absurd hletter (directionOf_mark hdirection).2

end Line

/-! ### The script -/

/-- The pass over the lines from `i` on. -/
theorem replaceLines_cases (lines : List Text) {i : ℕ} {rest : List Text}
    (hrest : lines.drop i = rest) :
    (∃ rest', replaceLines ((numberDefinitions 0 lines).map Prod.fst) i
        (((numberDefinitions 0 lines).map Prod.snd).drop i) = .ok rest' ∧
      rest'.length = rest.length ∧ ∀ k line line', rest[k]? = some line → rest'[k]? = some line' →
        Rewritten lines (i + k) line 0 line line') ∨
      ∃ error k line p direction, replaceLines ((numberDefinitions 0 lines).map Prod.fst) i
          (((numberDefinitions 0 lines).map Prod.snd).drop i) = .error error ∧
        lines[k]? = some line ∧ referenceAt line p = some direction ∧
        ∀ j, ¬IsTarget lines k direction j := by
  induction rest generalizing i with
  | nil =>
    have hnil : ((numberDefinitions 0 lines).map Prod.snd).drop i = [] := by
      rw [List.drop_eq_nil_iff] at hrest ⊢
      rwa [List.length_map, length_numberDefinitions]
    rw [hnil]
    exact Or.inl ⟨[], rfl, rfl, fun k line line' hline ↦ by simp at hline⟩
  | cons line rest ih =>
    have hline : lines[i]? = some line := by
      rw [← Nat.add_zero i, ← List.getElem?_drop, hrest]
      rfl
    have hbehind : lines.drop (i + 1) = rest := by
      rw [← List.drop_drop, hrest]
      rfl
    obtain ⟨named, hnamed, hedited⟩ : ∃ named,
        (named = if isDefinition line then
          line.takeWhile isIndent ++ (nameOf lines i ++ ':' :: (line.dropWhile isIndent).drop 3)
            else line) ∧
        ((numberDefinitions 0 lines).map Prod.snd).drop i =
          named :: ((numberDefinitions 0 lines).map Prod.snd).drop (i + 1) := by
      have hnumbered := getElem?_numberDefinitions 0 lines i
      rw [hline, Option.map_some, Nat.zero_add] at hnumbered
      have hedited := congrArg (Option.map Prod.snd) hnumbered
      rw [← List.getElem?_map, Option.map_some] at hedited
      obtain ⟨hlt, hget⟩ := List.getElem?_eq_some_iff.mp hedited
      refine ⟨_, ?_, List.drop_eq_getElem_cons hlt⟩
      rw [hget]
      split_ifs <;> rfl
    rw [hedited, replaceLines]
    rcases replaceRefs_line
      (fun direction n ↦ (findTarget_eq_some_iff lines i n direction).mp) hnamed with
      ⟨line', hreplaced, hrewritten⟩ | ⟨error, p, direction, herror, hreference, htarget⟩
    · rw [hreplaced]
      dsimp only
      rcases ih hbehind with ⟨rest', hok, hlength, hall⟩ | ⟨error, k, other, p, direction, herror, hp⟩
      · refine Or.inl ⟨line' :: rest', by rw [hok]; rfl, by
          rw [List.length_cons, hlength, List.length_cons], fun k found found' hfound hfound' ↦ ?_⟩
        cases k with
        | zero =>
          obtain rfl := Option.some.inj hfound
          obtain rfl := Option.some.inj hfound'
          exact hrewritten
        | succ k =>
          have hnext := hall k found found' hfound hfound'
          rwa [Nat.add_assoc, Nat.add_comm 1] at hnext
      · exact Or.inr ⟨error, k, other, p, direction, by rw [herror]; rfl, hp⟩
    · refine Or.inr ⟨error, i, line, p, direction, by rw [herror], hline, hreference, fun j hj ↦ ?_⟩
      rw [(findTarget_eq_some_iff lines i _ direction).mpr ⟨j, hj, rfl⟩] at htarget
      cases htarget

theorem countP_anonAt (lines : List Text) (n : ℕ) :
    ((numberDefinitions n lines).map Prod.fst).countP Option.isSome = lines.countP isDefinition := by
  induction lines generalizing n with
  | nil => rfl
  | cons line rest ih =>
    rw [numberDefinitions]
    by_cases hline : isDefinition line = true
    · rw [if_pos hline, List.map_cons, List.countP_cons_of_pos rfl, ih, List.countP_cons_of_pos hline]
    · rw [if_neg hline, List.map_cons, List.countP_cons_of_neg Bool.false_ne_true, ih,
        List.countP_cons_of_neg hline]

/-- Without definitions, nothing is rewritten. -/
theorem Rewritten.eq_of_no_definition {lines : List Text} {i : ℕ} {line : Text} {pos : ℕ}
    {text text' : Text} (hnone : lines.countP isDefinition = 0) (hline : line ∈ lines)
    (h : Rewritten lines i line pos text text') : text' = text := by
  rw [List.countP_eq_zero] at hnone
  induction h with
  | done => rfl
  | other _ _ _ ih => rw [ih]
  | definition hstarts => exact absurd hstarts.1 (hnone line hline)
  | @reference pos j c mark rest rest' direction _ htarget =>
    obtain ⟨other, hother, hdefinition⟩ : DefinedAt lines j := by
      cases direction with
      | forward => exact htarget.2.1
      | backward => exact htarget.2.1
    exact absurd hdefinition (hnone other (List.mem_of_getElem? hother))

/-- Names tell the definitions apart. -/
theorem nameOf_injective {lines : List Text} {j k : ℕ} (hj : DefinedAt lines j)
    (hk : DefinedAt lines k) (h : nameOf lines j = nameOf lines k) : j = k := by
  have hcount := anonName_injective h
  have hless : ∀ first second, first < second → DefinedAt lines first →
      (lines.take first).countP isDefinition < (lines.take second).countP isDefinition := by
    rintro first second hlt ⟨line, hline, hdefinition⟩
    have hnext : (lines.take (first + 1)).countP isDefinition =
        (lines.take first).countP isDefinition + 1 := by
      rw [List.take_add_one, hline, List.countP_append]
      simp [hdefinition]
    have hmono : (lines.take (first + 1)).countP isDefinition ≤
        (lines.take second).countP isDefinition :=
      (List.take_prefix_take_left hlt).sublist.countP_le
    omega
  rcases Nat.lt_trichotomy j k with hlt | heq | hlt
  · have := hless j k hlt hj
    omega
  · exact heq
  · have := hless k j hlt hk
    omega

/-- The pass fails exactly if some reference has no definition on its side. Otherwise every
definition gets a name of its own and every reference the name of the nearest definition on its side,
and everything else stays. -/
theorem resolveAnonymousLabels_correct (code : Text) :
    ((∃ error, resolveAnonymousLabels code = .error error) ↔
        ∃ (i : ℕ) (line : Text) (p : ℕ) (direction : Direction),
          (codeLines code)[i]? = some line ∧ referenceAt line p = some direction ∧
            ∀ j, ¬IsTarget (codeLines code) i direction j) ∧
      (∀ code' log, resolveAnonymousLabels code = .ok (code', log) →
        ∃ lines', Resolves (codeLines code) code' lines') ∧
      ∀ j k, DefinedAt (codeLines code) j → DefinedAt (codeLines code) k →
        nameOf (codeLines code) j = nameOf (codeLines code) k → j = k := by
  have hcode : ['\n'].intercalate (codeLines code) = code := List.intercalate_splitOn '\n'
  rw [resolveAnonymousLabels]
  generalize codeLines code = lines at hcode ⊢
  rw [countP_anonAt]
  refine ⟨?_, ?_, fun j k ↦ nameOf_injective⟩
  · rcases @replaceLines_cases lines 0 lines rfl with
      ⟨lines', hok, hlength, hall⟩ | ⟨error, i, line, p, direction, herror, hline, hreference, htarget⟩
    · rw [List.drop_zero] at hok
      rw [hok]
      refine iff_of_false ?_ ?_
      · rintro ⟨error, herror⟩
        dsimp only at herror
        split_ifs at herror
      · rintro ⟨i, line, p, direction, hline, hreference, htarget⟩
        have hlt := (List.getElem?_eq_some_iff.mp hline).1
        rw [← hlength] at hlt
        have hrewritten := hall i line _ hline (List.getElem?_eq_getElem hlt)
        rw [Nat.zero_add] at hrewritten
        obtain ⟨j, hj⟩ := hrewritten.exists_target (List.drop_zero) (Nat.zero_le p) hreference
        exact htarget j hj
    · rw [List.drop_zero] at herror
      rw [herror]
      exact iff_of_true ⟨error, rfl⟩ ⟨i, line, p, direction, hline, hreference, htarget⟩
  · intro code' log hresolved
    rcases @replaceLines_cases lines 0 lines rfl with
      ⟨lines', hok, hlength, hall⟩ | ⟨error, i, line, p, direction, herror, -⟩
    · rw [List.drop_zero] at hok
      rw [hok] at hresolved
      dsimp only at hresolved
      have hline : ∀ (i : ℕ) (line line' : Text), lines[i]? = some line → lines'[i]? = some line' →
          Rewritten lines i line 0 line line' := by
        intro i line line' hline hline'
        have hrewritten := hall i line line' hline hline'
        rwa [Nat.zero_add] at hrewritten
      refine ⟨lines', hlength, ?_, hline⟩
      split_ifs at hresolved with hnone
      · have hsame : lines' = lines := by
          refine List.ext_getElem hlength fun i hi' hi ↦ ?_
          exact (hline i _ _ (List.getElem?_eq_getElem hi)
            (List.getElem?_eq_getElem hi')).eq_of_no_definition
            hnone (List.getElem_mem hi)
        rw [hnone, hsame, hcode]
        exact (Prod.mk.inj (Except.ok.inj hresolved)).1.symm
      · exact (Prod.mk.inj (Except.ok.inj hresolved)).1.symm
    · rw [List.drop_zero] at herror
      rw [herror] at hresolved
      cases hresolved

example : (resolveAnonymousLabels "@@: jmp @F\n@@:jmp @b".toList).map Prod.fst =
    .ok ("label(__anon_0)\nlabel(__anon_1)\n".toList ++
      "__anon_0: jmp __anon_1\n__anon_1:jmp __anon_0".toList) := by
  decide

end Cecore.AutoAsm
