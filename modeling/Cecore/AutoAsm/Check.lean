import Cecore.AutoAsm.Branches
import Cecore.AutoAsm.Phases
import Cecore.AutoAsm.Surroundings
import Mathlib.Tactic.IntervalCases

/-!
# Checking a script

`AutoAssembler::check` preprocesses a script, parses it without a target and selects branches
without a target, which takes every guarded branch. Parsing with a target leaves the same marker
lines (`parseLine_agrees`), so what a check can miss is a branch behind an `{$except}` that the
target's memory selects: `selection_succeeds_iff_of_check` says that nothing else goes wrong before
assembly.
-/

set_option autoImplicit false
set_option relaxedAutoImplicit false

namespace Cecore.AutoAsm

open Platform Emit

/-- `AutoAssembler::check`, for the symbols registered so far. -/
def check (env : Environment) (fuel : ℕ) (registry : Registry) (script : Text) :
    Option AutoAsmResult :=
  let preprocessed := env.preprocessScript (enableSection script)
  let start : Parsed := { log := preprocessed.log, error := preprocessed.error }
  if preprocessed.ok = false then some ⟨false, preprocessed.error, {}, preprocessed.log⟩
  else
    match parseAll (parseLine env registry.globalSymbols none fuel 0)
      (getlines '\n' preprocessed.output) start with
    | none => none
    | some (false, parsed) => some ⟨false, parsed.error, {}, parsed.log⟩
    | some (true, parsed) =>
      let (selected, log) := selectTryExceptBranches (parsed.symbols registry.globalSymbols) none
        parsed.asmLines parsed.log
      match selected with
      | .error error => some ⟨false, error, {}, log⟩
      | .ok asmLines =>
        some ⟨true, parsed.error, {}, log ++
          ["Structure OK (preprocess + parse validated; final assembly runs at inject time): ".toList ++
            decimal parsed.allocs.length ++ " allocs, ".toList ++ decimal parsed.labels.length ++
            " labels, ".toList ++ decimal asmLines.length ++ " asm lines".toList]⟩

/-! ### Parsing with and without a target -/

/-- The directives that are parsed only when there is a target. -/
def targetDirectives : List Text :=
  ["AOBSCANREGION".toList, "AOBSCANALL".toList, "AOBSCANMODULE".toList, "AOBSCAN".toList,
    "REASSEMBLE".toList]

/-- The registered commands do not tell a check from an execution: a command makes the same lines of
the same arguments, whatever the log, and none has the name of a directive that needs a target. -/
structure Environment.TargetBlind (env : Environment) : Prop where
  expansion : ∀ name handler, env.customCommand name = some handler →
    ∀ args log error log' error', (handler args log error).ok = true →
      (handler args log' error').ok = true →
        (handler args log' error').output = (handler args log error).output
  unclaimed : ∀ name ∈ targetDirectives, env.customCommand name = none

/-- Two parses have left the same marker lines. -/
def Agree (p q : Parsed) : Prop := skeleton p.asmLines = skeleton q.asmLines

theorem skeleton_append (first second : List Text) :
    skeleton (first ++ second) = skeleton first ++ skeleton second := List.filter_append ..

/-- Lines that both parses leave keep them in agreement. -/
theorem Agree.append {p q p' q' : Parsed} (h : Agree p q) {lines : List Text}
    (hp : p'.asmLines = p.asmLines ++ lines) (hq : q'.asmLines = q.asmLines ++ lines) :
    Agree p' q' := by
  rw [Agree, hp, hq, skeleton_append, skeleton_append, h]

theorem parseAll_agrees {parse parse' : Text → Parsed → Option (Bool × Parsed)}
    (hline : ∀ line p q p' q', Agree p q → parse line p = some (true, p') →
      parse' line q = some (true, q') → Agree p' q')
    (lines : List Text) {p q p' q' : Parsed} (h : Agree p q)
    (hp : parseAll parse lines p = some (true, p'))
    (hq : parseAll parse' lines q = some (true, q')) : Agree p' q' := by
  induction lines generalizing p q with
  | nil =>
    obtain ⟨-, rfl⟩ := Prod.mk.inj (Option.some.inj hp)
    obtain ⟨-, rfl⟩ := Prod.mk.inj (Option.some.inj hq)
    exact h
  | cons line rest ih =>
    rw [parseAll] at hp hq
    cases hfirst : parse line p with
    | none => simp [hfirst] at hp
    | some first =>
      obtain ⟨ok, middle⟩ := first
      cases hsecond : parse' line q with
      | none => simp [hsecond] at hq
      | some second =>
        obtain ⟨ok', middle'⟩ := second
        rw [hfirst] at hp
        rw [hsecond] at hq
        cases ok with
        | false => simp at hp
        | true =>
          cases ok' with
          | false => simp at hq
          | true => exact ih (hline line p q middle middle' h hfirst hsecond) hp hq

/-! ### The kinds of lines -/

theorem addAlloc_lines {p p' : Parsed} {args word logged : Text} {exported : Bool}
    (h : addAlloc p args word logged exported = some (true, p')) : p'.asmLines = p.asmLines := by
  unfold addAlloc at h
  cases hargs : parseAllocArgs args with
  | none => simp [hargs, Parsed.fail] at h
  | some parts =>
    rw [hargs] at h
    rw [← (Prod.mk.inj (Option.some.inj h)).2]

/-- A declaration is one whatever was parsed before, and leaves the same lines. -/
theorem parseDeclaration_lines (line upper : Text) :
    (∀ p, parseDeclaration line upper p = none) ∨
      ∃ lines, ∀ p, ∃ outcome, parseDeclaration line upper p = some outcome ∧
        ∀ p', outcome = some (true, p') → p'.asmLines = p.asmLines ++ lines := by
  have hkept : ∀ {p q p' : Parsed}, q.next = some (true, p') → q.asmLines = p.asmLines →
      p'.asmLines = p.asmLines ++ [] := by
    intro p q p' hnext hlines
    rw [← (Prod.mk.inj (Option.some.inj hnext)).2, hlines, List.append_nil]
  unfold parseDeclaration
  cases callArgs "ALLOC".toList line upper with
  | some args =>
    exact Or.inr ⟨[], fun p ↦ ⟨_, rfl, fun p' h ↦ by rw [addAlloc_lines h, List.append_nil]⟩⟩
  | none =>
    cases callArgs "GLOBALALLOC".toList line upper with
    | some args =>
      exact Or.inr ⟨[], fun p ↦ ⟨_, rfl, fun p' h ↦ by rw [addAlloc_lines h, List.append_nil]⟩⟩
    | none =>
      cases callArgs "KALLOC".toList line upper with
      | some args =>
        exact Or.inr ⟨[], fun p ↦ ⟨_, rfl, fun p' h ↦ by rw [addAlloc_lines h, List.append_nil]⟩⟩
      | none =>
        dsimp only
        split_ifs
        · refine Or.inr ⟨["lock ".toList ++ line.drop 7], fun p ↦ ⟨_, rfl, fun p' h ↦ ?_⟩⟩
          rw [← (Prod.mk.inj (Option.some.inj h)).2]
          rfl
        · exact Or.inr ⟨[], fun p ↦ ⟨_, rfl, fun p' h ↦ by cases h⟩⟩
        · cases callArgs "LABEL".toList line upper with
          | some args => exact Or.inr ⟨[], fun p ↦ ⟨_, rfl, fun p' h ↦ hkept h rfl⟩⟩
          | none =>
            cases callArgs "DEFINE".toList line upper with
            | some args =>
              refine Or.inr ⟨[], fun p ↦ ⟨_, rfl, fun p' h ↦ ?_⟩⟩
              cases hcut : cutAt ',' args with
              | none =>
                rw [hcut] at h
                exact hkept h rfl
              | some parts =>
                rw [hcut] at h
                exact hkept h rfl
            | none =>
              cases callArgs "REGISTERSYMBOL".toList line upper with
              | some args => exact Or.inr ⟨[], fun p ↦ ⟨_, rfl, fun p' h ↦ hkept h rfl⟩⟩
              | none => exact Or.inl fun p ↦ rfl

/-- A scan leaves no line. -/
theorem parseScan_lines {env : Environment} {globalSymbols : Text → Option ℕ} {t : Target}
    {line upper : Text} {p p' : Parsed}
    (h : parseScan env globalSymbols t line upper p = some (some (true, p'))) :
    p'.asmLines = p.asmLines := by
  have hkept : ∀ {q : Parsed}, q.next = some (true, p') → q.asmLines = p.asmLines →
      p'.asmLines = p.asmLines := by
    intro q hnext hlines
    rw [← (Prod.mk.inj (Option.some.inj hnext)).2, hlines]
  have hscan : ∀ command name found place notFound,
      (p.addScan command name found place notFound).asmLines = p.asmLines := by
    intro command name found place notFound
    cases found <;> rfl
  unfold parseScan at h
  cases hregion : callArgs "AOBSCANREGION".toList line upper with
  | some args =>
    rw [hregion] at h
    have h := Option.some.inj h
    split at h
    · dsimp only at h
      split_ifs at h
      · exact hkept h rfl
      · exact hkept h (hscan _ _ _ _ _)
    · exact hkept h rfl
  | none =>
    rw [hregion] at h
    dsimp only at h
    cases hall : callArgs "AOBSCANALL".toList line upper with
    | some args =>
      rw [hall] at h
      have h := Option.some.inj h
      split at h
      · obtain ⟨found, -, h⟩ := Option.bind_eq_some_iff.mp h
        exact hkept h (hscan _ _ _ _ _)
      · exact hkept h rfl
    | none =>
      rw [hall] at h
      dsimp only at h
      cases hmodule : callArgs "AOBSCANMODULE".toList line upper with
      | some args =>
        rw [hmodule] at h
        have h := Option.some.inj h
        split at h
        · split at h
          · exact hkept h rfl
          · exact hkept h (hscan _ _ _ _ _)
        · exact hkept h rfl
      | none =>
        rw [hmodule] at h
        dsimp only at h
        cases hscanArgs : callArgs "AOBSCAN".toList line upper with
        | some args =>
          rw [hscanArgs] at h
          have h := Option.some.inj h
          split at h
          · obtain ⟨found, -, h⟩ := Option.bind_eq_some_iff.mp h
            exact hkept h (hscan _ _ _ _ _)
          · exact hkept h rfl
        | none =>
          rw [hscanArgs] at h
          cases h

/-- Only the lines with a scanning directive are read as a scan. -/
theorem parseScan_directive {env : Environment} {globalSymbols : Text → Option ℕ} {t : Target}
    {line upper : Text} {p : Parsed} {outcome : Option (Bool × Parsed)}
    (h : parseScan env globalSymbols t line upper p = some outcome) :
    ∃ name ∈ targetDirectives, (callArgs name line upper).isSome := by
  by_contra hnone
  push Not at hnone
  have hcall : ∀ name ∈ targetDirectives, callArgs name line upper = none := fun name hname ↦ by
    simpa using hnone name hname
  rw [parseScan, hcall "AOBSCANREGION".toList (by decide), hcall "AOBSCANALL".toList (by decide),
    hcall "AOBSCANMODULE".toList (by decide), hcall "AOBSCAN".toList (by decide)] at h
  cases h

theorem parseDeferred_lines (hasProc : Bool) (line upper : Text) :
    (∀ p, parseDeferred hasProc line upper p = none) ∨
      ∃ lines, ∀ p, ∃ p', parseDeferred hasProc line upper p = some p' ∧
        p'.asmLines = p.asmLines ++ lines := by
  have hassert : ∀ (p : Parsed) args, (p.logAssert args).asmLines = p.asmLines := by
    intro p args
    unfold Parsed.logAssert
    cases cutAt ',' args <;> rfl
  unfold parseDeferred
  split
  · exact Or.inr ⟨_, fun p ↦ ⟨_, rfl, rfl⟩⟩
  split
  · exact Or.inr ⟨_, fun p ↦ ⟨_, rfl, rfl⟩⟩
  split
  · exact Or.inr ⟨_, fun p ↦ ⟨_, rfl, rfl⟩⟩
  split
  · next args _ =>
    refine Or.inr ⟨["__ASSERT__:".toList ++ args], fun p ↦ ⟨_, rfl, ?_⟩⟩
    rw [Parsed.addLine, hassert]
  split
  · exact Or.inr ⟨_, fun p ↦ ⟨_, rfl, rfl⟩⟩
  split
  · exact Or.inr ⟨_, fun p ↦ ⟨_, rfl, rfl⟩⟩
  split
  · exact Or.inr ⟨_, fun p ↦ ⟨_, rfl, rfl⟩⟩
  split
  · exact Or.inr ⟨_, fun p ↦ ⟨_, rfl, rfl⟩⟩
  split
  · exact Or.inr ⟨_, fun p ↦ ⟨_, rfl, rfl⟩⟩
  split
  · exact Or.inr ⟨_, fun p ↦ ⟨_, rfl, rfl⟩⟩
  split
  · exact Or.inr ⟨_, fun p ↦ ⟨_, rfl, rfl⟩⟩
  split
  · exact Or.inr ⟨_, fun p ↦ ⟨_, rfl, rfl⟩⟩
  split
  · exact Or.inr ⟨_, fun p ↦ ⟨_, rfl, rfl⟩⟩
  exact Or.inl fun p ↦ rfl

/-- Whether there is a target matters to a `REASSEMBLE` only. -/
theorem parseDeferred_of_not_reassemble {line upper : Text}
    (h : callArgs "REASSEMBLE".toList line upper = none) (p : Parsed) :
    parseDeferred true line upper p = parseDeferred false line upper p := by
  unfold parseDeferred
  rw [h]
  rfl

/-! ### Directives that need a target -/

theorem startsWith_iff (s start : Text) : startsWith s start = true ↔ start <+: s :=
  List.isPrefixOf_iff_prefix

/-- A text does not start with either of two texts that do not start each other. -/
theorem not_startsWith {s first second : Text} (hfirst : startsWith s first = true)
    (hnot : startsWith first second = false) (hnot' : startsWith second first = false) :
    startsWith s second = false := by
  by_contra h
  rw [Bool.not_eq_false, startsWith_iff] at h
  rw [startsWith_iff] at hfirst
  rcases List.prefix_or_prefix_of_prefix hfirst h with hprefixed | hprefixed
  · rw [(startsWith_iff _ _).mpr hprefixed] at hnot'
    exact Bool.noConfusion hnot'
  · rw [(startsWith_iff _ _).mpr hprefixed] at hnot
    exact Bool.noConfusion hnot

theorem startsWith_of_callArgs {keyword line upper : Text}
    (h : (callArgs keyword line upper).isSome) :
    startsWith upper (keyword ++ ['(']) = true ∧ line.getLast? = some ')' := by
  unfold callArgs at h
  split_ifs at h with hcall
  · exact hcall
  · cases h

/-- What a line starts with when `parseDeferred` or an inclusion reads it. -/
def deferredStarts : List Text :=
  ["INCLUDE(".toList, "DEALLOC(".toList, "UNREGISTERSYMBOL(".toList, "FULLACCESS(".toList,
    "ASSERT(".toList, "CREATETHREAD(".toList, "CREATETHREADANDWAIT(".toList, "READMEM(".toList,
    "LOADBINARY(".toList, "LOADLIBRARY(".toList, "FILLMEM(".toList, "NOP".toList, "DS ".toList]

theorem directive_starts {name line upper : Text} (hname : name ∈ targetDirectives)
    (h : (callArgs name line upper).isSome) :
    ∀ start ∈ deferredStarts, startsWith upper start = false := by
  intro start hstart
  have hapart : ∀ name ∈ targetDirectives, ∀ start ∈ deferredStarts,
      startsWith (name ++ ['(']) start = false ∧ startsWith start (name ++ ['(']) = false := by
    decide
  obtain ⟨hnot, hnot'⟩ := hapart name hname start hstart
  exact not_startsWith (startsWith_of_callArgs h).1 hnot hnot'

theorem callArgs_of_not_startsWith {keyword line upper : Text}
    (h : startsWith upper (keyword ++ ['(']) = false) : callArgs keyword line upper = none := by
  rw [callArgs, if_neg]
  rintro ⟨hstarts, -⟩
  rw [h] at hstarts
  exact Bool.noConfusion hstarts

/-- Without a target, a directive that needs one is not deferred. -/
theorem parseDeferred_directive {name line upper : Text} (hname : name ∈ targetDirectives)
    (h : (callArgs name line upper).isSome) (hasProc : Bool) (p : Parsed) :
    parseDeferred hasProc line upper p =
      if hasProc then (callArgs "REASSEMBLE".toList line upper).map
        fun args ↦ p.addLine ("__REASSEMBLE__:".toList ++ trim args)
      else none := by
  have hstarts := directive_starts hname h
  have hcall : ∀ keyword, keyword ++ ['('] ∈ deferredStarts → callArgs keyword line upper = none :=
    fun keyword hmem ↦ callArgs_of_not_startsWith (hstarts _ hmem)
  have hnop : ¬(upper = "NOP".toList ∨ startsWith upper "NOP ".toList = true) := by
    have hword := hstarts "NOP".toList (by decide)
    rintro (rfl | hspace)
    · exact absurd hword (by decide)
    · rw [startsWith_iff] at hspace
      have : startsWith upper "NOP".toList = true :=
        (startsWith_iff _ _).mpr ((by decide : "NOP".toList <+: "NOP ".toList).trans hspace)
      rw [hword] at this
      exact Bool.noConfusion this
  have hds : ¬startsWith upper "DS ".toList = true := by
    rw [hstarts "DS ".toList (by decide)]
    decide
  rw [parseDeferred, hcall "DEALLOC".toList (by decide), hcall "UNREGISTERSYMBOL".toList (by decide),
    hcall "FULLACCESS".toList (by decide), hcall "ASSERT".toList (by decide),
    hcall "CREATETHREAD".toList (by decide), hcall "CREATETHREADANDWAIT".toList (by decide),
    hcall "READMEM".toList (by decide), hcall "LOADBINARY".toList (by decide),
    hcall "LOADLIBRARY".toList (by decide), hcall "FILLMEM".toList (by decide)]
  dsimp only
  rw [if_neg hnop, if_neg hds]
  cases hasProc with
  | false => rfl
  | true => cases callArgs "REASSEMBLE".toList line upper <;> rfl

/-- A text without a blank at either end is not trimmed. -/
theorem trim_eq_self {s : Text} (hhead : s.head?.all fun c ↦ !isBlank c)
    (hlast : s.getLast?.all fun c ↦ !isBlank c) : trim s = s := by
  have hdrop : ∀ w : Text, w.head?.all (fun c ↦ !isBlank c) = true → w.dropWhile isBlank = w := by
    intro w hw
    cases w with
    | nil => rfl
    | cons c rest =>
      have hc : isBlank c = false := by simpa using hw
      rw [List.dropWhile_cons, hc]
      rfl
  rw [trim, hdrop s hhead, hdrop s.reverse (by rwa [List.head?_reverse]), List.reverse_reverse]

/-- Only letters change their case, and they become letters. -/
theorem toUpperChar_cases (c : Char) :
    toUpperChar c = c ∨ ('a' ≤ c ∧ toUpperChar c ≠ '(') := by
  unfold toUpperChar
  split_ifs with hletter
  · refine Or.inr ⟨hletter.1, ?_⟩
    have hlow : 97 ≤ c.toNat := hletter.1
    have hhigh : c.toNat ≤ 122 := hletter.2
    generalize c.toNat = n at hlow hhigh
    interval_cases n <;> decide
  · exact Or.inl rfl

/-- How a line with a directive that needs a target is made up. -/
theorem directive_shape {name line : Text} (hname : name ∈ targetDirectives)
    (h : (callArgs name line (toUpper line)).isSome) :
    ∃ word args, line = word ++ '(' :: args ∧ toUpper word = name ∧
      (∀ c ∈ word, isBlank c = false ∧ c ≠ '(') := by
  obtain ⟨hstarts, -⟩ := startsWith_of_callArgs h
  obtain ⟨tail, htail⟩ := (startsWith_iff _ _).mp hstarts
  rw [toUpper, List.append_assoc] at htail
  obtain ⟨word, rest, rfl, hword, hrest⟩ := List.map_eq_append_iff.mp htail.symm
  obtain ⟨c, args, rfl, hc, -⟩ := List.map_eq_cons_iff.mp hrest
  have hparen : c = '(' := by
    rcases toUpperChar_cases c with hsame | ⟨-, hne⟩
    · rw [← hsame, hc]
    · exact absurd hc hne
  refine ⟨word, args, by rw [hparen], hword, fun d hd ↦ ?_⟩
  have hupper : toUpperChar d ∈ name := hword ▸ List.mem_map_of_mem hd
  have hplain : ∀ name ∈ targetDirectives, ∀ d ∈ name, isBlank d = false ∧ d ≠ '(' := by decide
  rcases toUpperChar_cases d with hsame | ⟨hletter, -⟩
  · rw [← hsame]
    exact hplain name hname _ hupper
  · have hlow : 97 ≤ d.toNat := hletter
    constructor
    · by_contra hblank
      rw [Bool.not_eq_false] at hblank
      simp only [isBlank, Bool.or_eq_true, decide_eq_true_eq] at hblank
      rcases hblank with ((rfl | rfl) | rfl) | rfl <;> exact absurd hlow (by decide)
    · rintro rfl
      exact absurd hlow (by decide)

/-- The command that a line with such a directive would be read as has the directive's name. -/
theorem splitCommand_directive {name line : Text} (hname : name ∈ targetDirectives)
    (h : (callArgs name line (toUpper line)).isSome) :
    normalizeCommandName (splitCommand line).1 = name := by
  obtain ⟨word, args, rfl, hword, hplain⟩ := directive_shape hname h
  obtain ⟨-, hlast⟩ := startsWith_of_callArgs h
  have htrim : trim word = word := by
    refine trim_eq_self ?_ ?_
    · cases hhead : word.head? with
      | none => rfl
      | some c => simp [(hplain c (List.mem_of_head? hhead)).1]
    · cases hend : word.getLast? with
      | none => rfl
      | some c => simp [(hplain c (List.mem_of_getLast? hend)).1]
  have hcut : cutAt '(' (word ++ '(' :: args) = some (word, args) := by
    have htake : (word ++ '(' :: args).takeWhile (· ≠ '(') = word := by
      rw [List.takeWhile_append_of_pos fun c hc ↦ by simp [(hplain c hc).2]]
      simp
    have hdrop : (word ++ '(' :: args).dropWhile (· ≠ '(') = '(' :: args := by
      rw [List.dropWhile_append_of_pos fun c hc ↦ by simp [(hplain c hc).2]]
      simp
    rw [cutAt, if_pos (by simp), htake, hdrop, List.tail_cons]
  rw [splitCommand, if_pos hlast, hcut, normalizeCommandName]
  dsimp only
  rw [htrim, htrim, hword]

/-- A line with such a directive is no marker. -/
theorem marker_directive {name line : Text} (hname : name ∈ targetDirectives)
    (h : (callArgs name line (toUpper line)).isSome) : marker line = none := by
  obtain ⟨word, args, rfl, hword, hplain⟩ := directive_shape hname h
  obtain ⟨hstarts, hlast⟩ := startsWith_of_callArgs h
  have hhead : (word ++ '(' :: args).head?.all (fun c ↦ !isBlank c) = true := by
    cases word with
    | nil => rfl
    | cons c rest => simp [(hplain c List.mem_cons_self).1]
  have htrim : trim (word ++ '(' :: args) = word ++ '(' :: args :=
    trim_eq_self hhead (by rw [hlast]; rfl)
  have hmarkers : ∀ name ∈ targetDirectives, ∀ text ∈ ["__TRY_BEGIN__".toList,
      "__TRY_END__".toList, "__TRY_EXCEPT__".toList],
      startsWith (toUpper text) (name ++ ['(']) = false := by decide
  have hother : ∀ text ∈ ["__TRY_BEGIN__".toList, "__TRY_END__".toList, "__TRY_EXCEPT__".toList],
      word ++ '(' :: args ≠ text := by
    intro text htext heq
    rw [heq, hmarkers name hname text htext] at hstarts
    exact Bool.noConfusion hstarts
  rw [marker, htrim, if_neg (hother _ (by simp)), if_neg (hother _ (by simp)),
    if_neg (hother _ (by simp))]

/-- Trimming keeps what a text starts with, when that has no blank at either end. -/
theorem startsWith_trim {start rest : Text} {c d : Char} (hc : start.head? = some c)
    (hblank : isBlank c = false) (hd : start.getLast? = some d) (hblank' : isBlank d = false) :
    startsWith (trim (start ++ rest)) start := by
  have hfront : (start ++ rest).dropWhile isBlank = start ++ rest := by
    cases start with
    | nil => cases hc
    | cons first others =>
      obtain rfl := Option.some.inj hc
      rw [List.cons_append, List.dropWhile_cons, if_neg (by simpa using hblank)]
  have hback : start.reverse.dropWhile isBlank = start.reverse := by
    have hfirst : start.reverse.head? = some d := by rw [List.head?_reverse, hd]
    cases hreverse : start.reverse with
    | nil => rfl
    | cons first others =>
      rw [hreverse] at hfirst
      obtain rfl := Option.some.inj hfirst
      rw [List.dropWhile_cons, if_neg (by simpa using hblank')]
  rw [startsWith_iff, trim, hfront, List.reverse_append, List.dropWhile_append]
  split_ifs
  · simp [hback]
  · rw [List.reverse_append, List.reverse_reverse]
    exact List.prefix_append _ _

theorem marker_reassemble (args : Text) :
    marker ("__REASSEMBLE__:".toList ++ trim args) = none := by
  have hstarts : startsWith (trim ("__REASSEMBLE__:".toList ++ trim args))
      "__REASSEMBLE__:".toList = true := startsWith_trim rfl rfl rfl rfl
  have hother : ∀ text, startsWith text "__REASSEMBLE__:".toList = false →
      trim ("__REASSEMBLE__:".toList ++ trim args) ≠ text := by
    rintro text hnot rfl
    rw [hstarts] at hnot
    exact Bool.noConfusion hnot
  rw [marker, if_neg (hother _ (by decide)), if_neg (hother _ (by decide)),
    if_neg (hother _ (by decide))]

/-! ### A line parsed both ways -/

section Line

variable {env : Environment} {globalSymbols globalSymbols' : Text → Option ℕ} {t : Target}

/-- The part of `parseLine` behind the tests of a line for blank, marker and declaration. -/
def parseRest (env : Environment) (globalSymbols : Text → Option ℕ) (proc : Option Target)
    (fuel includeDepth : ℕ) (line : Text) (p : Parsed) : Option (Bool × Parsed) :=
  if let some outcome := proc.bind fun t ↦ parseScan env globalSymbols t line (toUpper line) p then
    outcome
  else if let some args := callArgs "INCLUDE".toList line (toUpper line) then
    let filename := dropDoubleQuotes (trim args)
    if kMaxIncludeDepth ≤ includeDepth then
      p.fail ("INCLUDE nesting too deep (limit ".toList ++ decimal kMaxIncludeDepth ++
        "): ".toList ++ filename)
    else match env.file filename with
      | none => (p.addLog ("INCLUDE: ".toList ++ filename ++ " (NOT FOUND)".toList)).next
      | some content =>
        match parseAll (parseLine env globalSymbols proc fuel (includeDepth + 1))
            (getlines '\n' content) p with
        | some (true, p) => (p.addLog ("INCLUDE: ".toList ++ filename ++ " (loaded)".toList)).next
        | stopped => stopped
  else if let some p := parseDeferred proc.isSome line (toUpper line) p then p.next
  else
    let (customName, customArgs) := splitCommand line
    match env.customCommand (normalizeCommandName customName) with
    | none => (p.addLine line).next
    | some handler =>
      let expanded := handler customArgs p.log p.error
      let p := { p with log := expanded.log, error := expanded.error }
      if expanded.ok then
        parseAll (parseLine env globalSymbols proc fuel includeDepth) expanded.output p
      else if p.error = [] then p.fail ("Custom command failed: ".toList ++ customName)
      else some (false, p)

theorem Agree.next {p q a b p' q' : Parsed} (h : Agree p q) (hp : a.next = some (true, p'))
    (hq : b.next = some (true, q')) {lines : List Text} (ha : a.asmLines = p.asmLines ++ lines)
    (hb : b.asmLines = q.asmLines ++ lines) : Agree p' q' := by
  obtain ⟨-, rfl⟩ := Prod.mk.inj (Option.some.inj hp)
  obtain ⟨-, rfl⟩ := Prod.mk.inj (Option.some.inj hq)
  exact h.append ha hb

/-- A directive that needs a target leaves no marker line, with a target or without. -/
theorem parseRest_directive (hblind : env.TargetBlind) {fuel fuel' includeDepth : ℕ} {name line : Text}
    (hname : name ∈ targetDirectives) (hcall : (callArgs name line (toUpper line)).isSome)
    {p q p' q' : Parsed} (h : Agree p q)
    (hp : parseRest env globalSymbols none fuel includeDepth line p = some (true, p'))
    (hq : parseRest env globalSymbols' (some t) fuel' includeDepth line q = some (true, q')) :
    Agree p' q' := by
  have hinclude : callArgs "INCLUDE".toList line (toUpper line) = none :=
    callArgs_of_not_startsWith (directive_starts hname hcall _ (by decide))
  have hcommand : env.customCommand (normalizeCommandName (splitCommand line).1) = none := by
    rw [splitCommand_directive hname hcall]
    exact hblind.unclaimed name hname
  have hchecked : skeleton p'.asmLines = skeleton p.asmLines := by
    rw [parseRest, hinclude, parseDeferred_directive hname hcall] at hp
    simp only [Option.bind_none, Option.isSome_none, Bool.false_eq_true, if_false, hcommand] at hp
    rw [← (Prod.mk.inj (Option.some.inj hp)).2, Parsed.addLine, skeleton_append]
    simp [skeleton, marker_directive hname hcall]
  have hexecuted : skeleton q'.asmLines = skeleton q.asmLines := by
    rw [parseRest, hinclude, parseDeferred_directive hname hcall] at hq
    cases hscan : parseScan env globalSymbols' t line (toUpper line) q with
    | some outcome =>
      simp only [Option.bind_some, hscan] at hq
      rw [parseScan_lines (hq ▸ hscan)]
    | none =>
      simp only [Option.bind_some, hscan, Option.isSome_some, if_true] at hq
      cases hreassemble : callArgs "REASSEMBLE".toList line (toUpper line) with
      | some args =>
        simp only [hreassemble, Option.map_some] at hq
        have hmarker := skeleton_cons_of_none (marker_reassemble args) []
        rw [← (Prod.mk.inj (Option.some.inj hq)).2, Parsed.addLine, skeleton_append, hmarker]
        exact List.append_nil _
      | none =>
        simp only [hreassemble, Option.map_none, hcommand] at hq
        rw [← (Prod.mk.inj (Option.some.inj hq)).2, Parsed.addLine, skeleton_append]
        simp [skeleton, marker_directive hname hcall]
  rw [Agree, hchecked, hexecuted, h]

theorem parseLine_eq (proc : Option Target) (fuel includeDepth : ℕ) (rawLine : Text) (p : Parsed) :
    parseLine env globalSymbols proc (fuel + 1) includeDepth rawLine p =
      let line := trim rawLine
      if line = [] ∨ line.head? = some '/' ∨ line.head? = some ';' then p.next
      else
        let line := stripInlineComment line
        let upper := toUpper line
        if line = [] then p.next
        else if upper = "\x7b$TRY\x7d".toList then (p.addLine "__TRY_BEGIN__".toList).next
        else if upper = "\x7b$EXCEPT\x7d".toList then (p.addLine "__TRY_EXCEPT__".toList).next
        else if upper = "\x7b$ENDTRY\x7d".toList then (p.addLine "__TRY_END__".toList).next
        else match parseDeclaration line upper p with
          | some outcome => outcome
          | none => parseRest env globalSymbols proc fuel includeDepth line p := by
  rw [parseLine]
  dsimp only
  cases parseDeclaration (stripInlineComment (trim rawLine))
    (toUpper (stripInlineComment (trim rawLine))) p <;> rfl

/-- The lines of an included file, read by parses that agree so far. -/
theorem parseIncluded_agrees {parse parse' : Text → Parsed → Option (Bool × Parsed)}
    (hline : ∀ line p q p' q', Agree p q → parse line p = some (true, p') →
      parse' line q = some (true, q') → Agree p' q')
    {lines : List Text} {entry : Text} {p q p' q' : Parsed} (h : Agree p q)
    (hp : (match parseAll parse lines p with
      | some (true, p) => (p.addLog entry).next
      | stopped => stopped) = some (true, p'))
    (hq : (match parseAll parse' lines q with
      | some (true, q) => (q.addLog entry).next
      | stopped => stopped) = some (true, q')) : Agree p' q' := by
  cases hfirst : parseAll parse lines p with
  | none => simp [hfirst] at hp
  | some first =>
    obtain ⟨ok, middle⟩ := first
    cases hsecond : parseAll parse' lines q with
    | none => simp [hsecond] at hq
    | some second =>
      obtain ⟨ok', middle'⟩ := second
      rw [hfirst] at hp
      rw [hsecond] at hq
      cases ok with
      | false => simp at hp
      | true =>
        cases ok' with
        | false => simp at hq
        | true =>
          have hmiddle := parseAll_agrees hline lines h hfirst hsecond
          exact hmiddle.next hp hq (List.append_nil _).symm (List.append_nil _).symm

/-- A line that is no declaration, read by parses that agree so far. -/
theorem parseRest_agrees (hblind : env.TargetBlind) {fuel fuel' : ℕ}
    (hlines : ∀ includeDepth rawLine p q p' q', Agree p q →
      parseLine env globalSymbols none fuel includeDepth rawLine p = some (true, p') →
      parseLine env globalSymbols' (some t) fuel' includeDepth rawLine q = some (true, q') →
      Agree p' q')
    {includeDepth : ℕ} {line : Text} {p q p' q' : Parsed} (h : Agree p q)
    (hp : parseRest env globalSymbols none fuel includeDepth line p = some (true, p'))
    (hq : parseRest env globalSymbols' (some t) fuel' includeDepth line q = some (true, q')) :
    Agree p' q' := by
  by_cases hdirective : ∃ name ∈ targetDirectives, (callArgs name line (toUpper line)).isSome
  · obtain ⟨name, hname, hcall⟩ := hdirective
    exact parseRest_directive hblind hname hcall h hp hq
  have hscan : parseScan env globalSymbols' t line (toUpper line) q = none := by
    by_contra hsome
    obtain ⟨outcome, houtcome⟩ := Option.ne_none_iff_exists'.mp hsome
    exact hdirective (parseScan_directive houtcome)
  have hreassemble : callArgs "REASSEMBLE".toList line (toUpper line) = none := by
    by_contra hsome
    exact hdirective ⟨_, by decide, Option.isSome_iff_ne_none.mpr hsome⟩
  rw [parseRest] at hp hq
  simp only [Option.bind_none, Option.isSome_none] at hp
  simp only [Option.bind_some, hscan, Option.isSome_some,
    parseDeferred_of_not_reassemble hreassemble] at hq
  cases hinclude : callArgs "INCLUDE".toList line (toUpper line) with
  | some args =>
    rw [hinclude] at hp hq
    dsimp only at hp hq
    split_ifs at hp hq
    · cases hp
    · cases hfile : env.file (dropDoubleQuotes (trim args)) with
      | none =>
        rw [hfile] at hp hq
        exact h.next hp hq (List.append_nil _).symm (List.append_nil _).symm
      | some content =>
        rw [hfile] at hp hq
        exact parseIncluded_agrees (hlines (includeDepth + 1)) h hp hq
  | none =>
    rw [hinclude] at hp hq
    dsimp only at hp hq
    rcases parseDeferred_lines false line (toUpper line) with hnone | ⟨lines, hsome⟩
    · rw [hnone] at hp hq
      dsimp only at hp hq
      cases hcommand : env.customCommand (normalizeCommandName (splitCommand line).1) with
      | none =>
        rw [hcommand] at hp hq
        exact h.next hp hq rfl rfl
      | some handler =>
        rw [hcommand] at hp hq
        dsimp only at hp hq
        by_cases hok : (handler (splitCommand line).2 p.log p.error).ok = true
        · by_cases hok' : (handler (splitCommand line).2 q.log q.error).ok = true
          · rw [if_pos hok] at hp
            rw [if_pos hok', hblind.expansion _ handler hcommand _ _ _ _ _ hok hok'] at hq
            refine parseAll_agrees (fun line p q p' q' ↦ hlines includeDepth line p q p' q') _ ?_
              hp hq
            exact h
          · rw [if_neg hok'] at hq
            split_ifs at hq <;> cases hq
        · rw [if_neg hok] at hp
          split_ifs at hp <;> cases hp
    · obtain ⟨r, hr, hrLines⟩ := hsome p
      obtain ⟨r', hr', hrLines'⟩ := hsome q
      rw [hr] at hp
      rw [hr'] at hq
      exact h.next hp hq hrLines hrLines'

/-- A line read with a target and without leaves the same markers. -/
theorem parseLine_agrees (hblind : env.TargetBlind) (fuel fuel' includeDepth : ℕ) (rawLine : Text)
    {p q p' q' : Parsed} (h : Agree p q)
    (hp : parseLine env globalSymbols none fuel includeDepth rawLine p = some (true, p'))
    (hq : parseLine env globalSymbols' (some t) fuel' includeDepth rawLine q = some (true, q')) :
    Agree p' q' := by
  induction fuel generalizing fuel' includeDepth rawLine p q p' q' with
  | zero => cases hp
  | succ fuel ih =>
    cases fuel' with
    | zero => cases hq
    | succ fuel' =>
      rw [parseLine_eq] at hp hq
      dsimp only at hp hq
      split_ifs at hp hq
      · exact h.next hp hq (List.append_nil _).symm (List.append_nil _).symm
      · exact h.next hp hq (List.append_nil _).symm (List.append_nil _).symm
      · exact h.next hp hq rfl rfl
      · exact h.next hp hq rfl rfl
      · exact h.next hp hq rfl rfl
      · rcases parseDeclaration_lines (stripInlineComment (trim rawLine))
          (toUpper (stripInlineComment (trim rawLine))) with hnone | ⟨lines, hsome⟩
        · rw [hnone p] at hp
          rw [hnone q] at hq
          exact parseRest_agrees hblind (fun includeDepth rawLine p q p' q' h hp hq ↦
            ih fuel' includeDepth rawLine h hp hq) h hp hq
        · obtain ⟨outcome, hfirst, hlines⟩ := hsome p
          obtain ⟨outcome', hsecond, hlines'⟩ := hsome q
          rw [hfirst] at hp
          rw [hsecond] at hq
          exact h.append (hlines p' hp) (hlines' q' hq)

end Line

/-! ### What a check leaves open -/

/-- The execution of a script comes to the selection of branches with these lines, blocks and state.
-/
structure AtSelection (env : Environment) (fuel : ℕ) (w : World) (script : Text) (parsed : Parsed)
    (allocs : List Alloc) (run : Run) : Prop where
  parses : parseScript env fuel (seeded env w) script = some (true, parsed)
  allocates : allocateAll env parsed.labels parsed.defines [] parsed.allocs
    (startRun (seeded env w) parsed) = .ok allocs run

/-- The names that the selection can use. -/
def selectionSymbols (parsed : Parsed) (allocs : List Alloc) (run : Run) : Symbols :=
  ⟨allocs, parsed.labels, parsed.defines, run.registry.globalSymbols⟩

/-- The execution of a script does not fail in preprocessing, and not in the selection of branches.
-/
def PassesSelection (env : Environment) (fuel : ℕ) (w : World) (script : Text) : Prop :=
  (env.preprocessScript (enableSection script)).ok = true ∧
    ∀ parsed allocs run, AtSelection env fuel w script parsed allocs run →
      ∃ lines, (selectTryExceptBranches (selectionSymbols parsed allocs run) (some run.target)
        parsed.asmLines run.log).1 = .ok lines

/-- What a successful check has seen: the preprocessed script, and lines that can be selected. -/
theorem check_success {env : Environment} {fuel : ℕ} {registry : Registry} {script : Text}
    {result : AutoAsmResult} (h : check env fuel registry script = some result)
    (hsuccess : result.success = true) :
    (env.preprocessScript (enableSection script)).ok = true ∧
      ∃ parsed symbols, parseAll (parseLine env registry.globalSymbols none fuel 0)
          (getlines '\n' (env.preprocessScript (enableSection script)).output)
          { log := (env.preprocessScript (enableSection script)).log
            error := (env.preprocessScript (enableSection script)).error } = some (true, parsed) ∧
        Selectable symbols none parsed.asmLines := by
  rw [check] at h
  dsimp only at h
  split_ifs at h with hfailed
  · rw [← Option.some.inj h] at hsuccess
    cases hsuccess
  refine ⟨by simpa using hfailed, ?_⟩
  cases hparse : parseAll (parseLine env registry.globalSymbols none fuel 0)
      (getlines '\n' (env.preprocessScript (enableSection script)).output)
      { log := (env.preprocessScript (enableSection script)).log
        error := (env.preprocessScript (enableSection script)).error } with
  | none => simp [hparse] at h
  | some outcome =>
    obtain ⟨ok, parsed⟩ := outcome
    rw [hparse] at h
    cases ok with
    | false =>
      rw [← Option.some.inj h] at hsuccess
      cases hsuccess
    | true =>
      refine ⟨parsed, parsed.symbols registry.globalSymbols, rfl, ?_⟩
      refine (selectBranches_ok_iff le_rfl parsed.log).mp ?_
      dsimp only at h
      rw [selectTryExceptBranches] at h
      cases hselect : (selectBranches (parsed.symbols registry.globalSymbols) none
        parsed.asmLines.length parsed.asmLines parsed.log).1 with
      | ok lines => exact ⟨lines, rfl⟩
      | error error =>
        rw [hselect] at h
        rw [← Option.some.inj h] at hsuccess
        cases hsuccess

/-- After a successful check, the execution fails neither in preprocessing nor in the selection of
branches exactly when every branch is closed that the target's memory leads to through an
`{$except}`. -/
theorem passesSelection_iff_of_check {env : Environment} (hblind : env.TargetBlind)
    {fuel fuel' : ℕ} {w : World} {script : Text} {result : AutoAsmResult}
    (hcheck : check env fuel w.registry script = some result) (hsuccess : result.success = true) :
    PassesSelection env fuel' w script ↔
      ∀ parsed allocs run, AtSelection env fuel' w script parsed allocs run →
        ∀ choices branch, Reaches parsed.asmLines choices branch →
          (∃ c ∈ choices, c.intoGuarded = false) →
          (∀ c ∈ choices, c.Taken (selectionSymbols parsed allocs run) (some run.target)) →
            Closed branch := by
  obtain ⟨hpreprocess, checked, symbols, hparsed, hselectable⟩ := check_success hcheck hsuccess
  have hexact : ∀ parsed allocs run, AtSelection env fuel' w script parsed allocs run →
      ((∃ lines, (selectTryExceptBranches (selectionSymbols parsed allocs run) (some run.target)
        parsed.asmLines run.log).1 = .ok lines) ↔
      ∀ choices branch, Reaches parsed.asmLines choices branch →
        (∃ c ∈ choices, c.intoGuarded = false) →
        (∀ c ∈ choices, c.Taken (selectionSymbols parsed allocs run) (some run.target)) →
          Closed branch) := by
    intro parsed allocs run hat
    have hagree : Agree checked parsed := by
      have hparse := hat.parses
      rw [parseScript] at hparse
      rw [if_pos hpreprocess] at hparse
      exact parseAll_agrees (fun line p q p' q' hpq hp hq ↦
        parseLine_agrees hblind fuel fuel' 0 line hpq hp hq) _ rfl hparsed hparse
    rw [selectTryExceptBranches, selectBranches_ok_iff le_rfl]
    exact selectable_iff_of_checked hselectable hagree
  constructor
  · intro h parsed allocs run hat
    exact (hexact parsed allocs run hat).mp (h.2 parsed allocs run hat)
  · intro h
    exact ⟨hpreprocess, fun parsed allocs run hat ↦
      (hexact parsed allocs run hat).mpr (h parsed allocs run hat)⟩

theorem plainEnvironment_targetBlind : plainEnvironment.TargetBlind where
  expansion _ _ h := by cases h
  unclaimed _ _ := rfl

/-- A block with an assertion that fails, and a plain line behind its `{$except}`. -/
theorem passesSelection_plain_fallback :
    PassesSelection plainEnvironment 10 ⟨onePage, {}⟩
      "\x7b$try\x7d\nassert(1000,CC)\n\x7b$except\x7d\nnop\n\x7b$endtry\x7d".toList := by
  have hchecked : ∃ result, check plainEnvironment 10 {}
      "\x7b$try\x7d\nassert(1000,CC)\n\x7b$except\x7d\nnop\n\x7b$endtry\x7d".toList = some result ∧
        result.success = true := by
    have hsuccess : (check plainEnvironment 10 {}
        "\x7b$try\x7d\nassert(1000,CC)\n\x7b$except\x7d\nnop\n\x7b$endtry\x7d".toList).map
          AutoAsmResult.success = some true := by decide +kernel
    exact Option.map_eq_some_iff.mp hsuccess
  obtain ⟨result, hresult, hsuccess⟩ := hchecked
  refine (passesSelection_iff_of_check plainEnvironment_targetBlind (w := ⟨onePage, {}⟩) hresult
    hsuccess).mpr fun parsed allocs run hat choices branch hreaches hfallback htaken ↦ ?_
  have hlines : parsed.asmLines = ["__TRY_BEGIN__".toList, "__ASSERT__:1000,CC".toList,
      "__TRY_EXCEPT__".toList, "__NOP__:1".toList, "__TRY_END__".toList] := by
    have hparse : (parseScript plainEnvironment 10 (seeded plainEnvironment ⟨onePage, {}⟩)
        "\x7b$try\x7d\nassert(1000,CC)\n\x7b$except\x7d\nnop\n\x7b$endtry\x7d".toList).map
          (fun outcome ↦ outcome.2.asmLines) = some ["__TRY_BEGIN__".toList,
            "__ASSERT__:1000,CC".toList, "__TRY_EXCEPT__".toList, "__NOP__:1".toList,
            "__TRY_END__".toList] := by decide +kernel
    rw [hat.parses] at hparse
    exact Option.some.inj hparse
  have hlevel : Level parsed.asmLines [⟨["__ASSERT__:1000,CC".toList], ["__NOP__:1".toList]⟩] := by
    rw [hlines]
    exact @Level.block _ _ ["__ASSERT__:1000,CC".toList, "__TRY_EXCEPT__".toList,
      "__NOP__:1".toList] [] _ _ _ (by decide) (by decide) (by decide) .nil
  have hflat : ∀ c : Choice,
      c.block ∈ [(⟨["__ASSERT__:1000,CC".toList], ["__NOP__:1".toList]⟩ : Block)] →
      Level c.branch [] := by
    rintro ⟨block, into⟩ hblock
    obtain rfl := List.mem_singleton.mp hblock
    cases into
    · exact .line (by decide) .nil
    · exact .line (by decide) .nil
  cases hreaches with
  | here => exact ⟨_, hlevel⟩
  | into hlevel' hblock hrest =>
    obtain rfl := hlevel.unique hlevel'
    cases hrest with
    | here => exact ⟨_, hflat _ hblock⟩
    | into hinner hmem _ =>
      obtain rfl := (hflat _ hblock).unique hinner
      cases hmem

/-- A script that passes the check, and whose `{$except}` branch holds a block without an
`{$except}`: the execution fails where the assertion does. -/
theorem check_accepts_open_except_branch :
    let script :=
      ("\x7b$try\x7d\nassert(1000,CC)\n\x7b$except\x7d\n\x7b$try\x7d\nnop\n\x7b$endtry\x7d\n" ++
        "\x7b$endtry\x7d").toList
    (check plainEnvironment 10 {} script).map AutoAsmResult.success = some true ∧
      ¬PassesSelection plainEnvironment 10 ⟨onePage, {}⟩ script ∧
      (execute plainEnvironment 10 ⟨onePage, {}⟩ script).map
          (fun outcome ↦ (outcome.2.success, outcome.2.error)) =
        some (false, "Missing \x7b$except\x7d for \x7b$try\x7d block".toList) := by
  intro script
  refine ⟨by decide +kernel, fun hpasses ↦ ?_, by decide +kernel⟩
  have hparse : parseScript plainEnvironment 10 (seeded plainEnvironment ⟨onePage, {}⟩) script =
      some (true, { asmLines := ["__TRY_BEGIN__".toList, "__ASSERT__:1000,CC".toList,
        "__TRY_EXCEPT__".toList, "__TRY_BEGIN__".toList, "__NOP__:1".toList, "__TRY_END__".toList,
        "__TRY_END__".toList], log := ["ASSERT: 1000 = CC".toList] }) := by decide +kernel
  obtain ⟨lines, hlines⟩ := hpasses.2 _ [] _ ⟨hparse, rfl⟩
  have hfails : (selectTryExceptBranches ⟨[], [], [], fun _ ↦ none⟩ (some onePage)
      ["__TRY_BEGIN__".toList, "__ASSERT__:1000,CC".toList, "__TRY_EXCEPT__".toList,
        "__TRY_BEGIN__".toList, "__NOP__:1".toList, "__TRY_END__".toList, "__TRY_END__".toList]
      ["ASSERT: 1000 = CC".toList]).1.toBool = false := by decide +kernel
  have hsame : (selectTryExceptBranches ⟨[], [], [], fun _ ↦ none⟩ (some onePage)
      ["__TRY_BEGIN__".toList, "__ASSERT__:1000,CC".toList, "__TRY_EXCEPT__".toList,
        "__TRY_BEGIN__".toList, "__NOP__:1".toList, "__TRY_END__".toList, "__TRY_END__".toList]
      ["ASSERT: 1000 = CC".toList]).1 = .ok lines := hlines
  rw [hsame] at hfails
  cases hfails

end Cecore.AutoAsm
