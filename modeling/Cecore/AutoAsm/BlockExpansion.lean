import Cecore.Core.Text
import Cecore.Library.Loops

/-!
# Expansion of blocks

`expandLuaBlocks` and `expandConditionalBlocks` of `core/autoasm.cpp`, the first two steps of the
preprocessing of a script. Each loop searches the text for a block from its start, replaces the block,
and searches again. The Lua evaluator and the C compiler are parameters; an answer may depend on how
many were given before.
-/

set_option autoImplicit false
set_option relaxedAutoImplicit false

namespace Cecore.AutoAsm

open Library

/-! ### Markers -/

/-- What `findCaseInsensitive` finds, with the text in front of it and behind it. -/
structure Found where
  before : Text
  word : Text
  after : Text
  deriving DecidableEq, Repr

/-- The first occurrence of a word, whatever the case of its letters. -/
def findCaseInsensitive (needle : Text) : Text → Option Found
  | [] => none
  | c :: rest =>
    if ((c :: rest).take needle.length).map toLowerChar = needle.map toLowerChar then
      some ⟨[], (c :: rest).take needle.length, (c :: rest).drop needle.length⟩
    else (findCaseInsensitive needle rest).map fun found ↦ { found with before := c :: found.before }

def ccodeOpen : Text := "\x7b$ccode\x7d".toList
def ccodeClose : Text := "\x7b$endccode\x7d".toList
def luaOpen : Text := "\x7b$lua\x7d".toList
def luaCloseAsm : Text := "\x7b$asm\x7d".toList
def luaCloseEnd : Text := "\x7b$endlua\x7d".toList
def ifOpen : Text := "\x7b$if".toList
def ifElse : Text := "\x7b$else\x7d".toList
def ifEnd : Text := "\x7b$endif\x7d".toList

/-- What expansion calls: the C compiler, which gives the bytes of `_ce_inject`, and the Lua
evaluator. Either may not be there. -/
structure BlockTools where
  tcc : Option (ℕ → Text → Except Text (List UInt8))
  luaEvaluator : Option (ℕ → Text → Except Text Text)

/-- The text that is expanded, the log, and how many answers have been given. -/
structure BlockExpansion where
  code : Text
  log : List Text := []
  answers : ℕ := 0
  deriving DecidableEq, Repr

/-- The text with a block replaced. -/
def BlockExpansion.splice (e : BlockExpansion) (before replacement after line : Text) :
    BlockExpansion where
  code := before ++ replacement ++ after
  log := e.log ++ [line]
  answers := e.answers + 1

/-- A step of a loop: it goes on, or it is over with or without an error. -/
abbrev BlockStep := BlockExpansion ⊕ Except Text BlockExpansion

/-! ### Blocks of C -/

/-- `%02x` of a byte. -/
def byteHex (b : UInt8) : Text :=
  [Nat.digitChar (b.toNat / 16), Nat.digitChar (b.toNat % 16)]

/-- The end of `compileCCodeBlock`: the bytes as a `db` line. -/
def emitBytes (bytes : List UInt8) : Except Text Text :=
  if bytes.length = 0 ∨ bytes.length > 64 * 1024 then
    .error ("implausible _ce_inject size ".toList ++ decimal bytes.length)
  else .ok (("db ".toList ++ bytes.flatMap fun b ↦ byteHex b ++ [' ']).dropLast ++ ['\n'])

def ccodeStep (tools : BlockTools) (e : BlockExpansion) : BlockStep :=
  match findCaseInsensitive ccodeOpen e.code with
  | none => .inr (.ok e)
  | some opening =>
    match findCaseInsensitive ccodeClose opening.after with
    | none => .inr (.error
        "\x7b$ccode\x7d block has no matching \x7b$endccode\x7d terminator".toList)
    | some closing =>
      match tools.tcc with
      | none => .inr (.error ("\x7b$ccode\x7d blocks require the TinyCC bridge; ".toList ++
          "rebuild with libtcc-dev installed".toList))
      | some tcc =>
        match tcc e.answers closing.before >>= emitBytes with
        | .error err => .inr (.error ("\x7b$ccode\x7d compile error: ".toList ++ err))
        | .ok emitted =>
          .inl (e.splice opening.before emitted closing.after
            ("\x7b$ccode\x7d: compiled ".toList ++ decimal closing.before.length ++
              " bytes of C to ".toList ++ decimal emitted.length ++ " bytes of AA".toList))

/-! ### Blocks of Lua -/

/-- Where a Lua block is closed, by the marker that comes first. -/
def luaClosing (rest : Text) : Option Found :=
  match findCaseInsensitive luaCloseAsm rest, findCaseInsensitive luaCloseEnd rest with
  | some closeAsm, some closeEnd =>
    if closeAsm.before.length < closeEnd.before.length then some closeAsm else some closeEnd
  | some closeAsm, none => some closeAsm
  | none, closeEnd => closeEnd

def luaStep (tools : BlockTools) (e : BlockExpansion) : BlockStep :=
  match findCaseInsensitive luaOpen e.code with
  | none => .inr (.ok e)
  | some opening =>
    match luaClosing opening.after with
    | none => .inr (.error
        "\x7b$lua\x7d block has no matching \x7b$asm\x7d or \x7b$endlua\x7d terminator".toList)
    | some closing =>
      match tools.luaEvaluator with
      | none => .inr (.error ("\x7b$lua\x7d block encountered but no Lua evaluator is ".toList ++
          "installed on this AutoAssembler".toList))
      | some evaluate =>
        match evaluate e.answers closing.before with
        | .error err => .inr (.error ("\x7b$lua\x7d block error: ".toList ++ err))
        | .ok replacement =>
          .inl (e.splice opening.before replacement closing.after
            ("\x7b$lua\x7d: expanded ".toList ++ decimal closing.before.length ++
              "-byte block to ".toList ++ decimal replacement.length ++ " bytes".toList))

/-! ### Conditional blocks -/

/-- A conditional block: its condition, its branches, and the text around it. -/
structure IfBlock where
  before : Text
  condition : Text
  ifBranch : Text
  elseBranch : Text
  after : Text
  deriving DecidableEq, Repr

/-- The condition without the blanks in front of it, unless it is nothing but blanks. -/
def stripCondition (conditionRaw : Text) : Text :=
  match conditionRaw.dropWhile fun c ↦ c = ' ' || c = '\t' with
  | [] => conditionRaw
  | c :: condition => c :: condition

/-- The branches of a block, from the closing brace of its condition on. The brace itself is part of
no marker. -/
def readBranches (before condition body : Text) : Except Text IfBlock :=
  match findCaseInsensitive ifEnd body with
  | none => .error "\x7b$if has no matching \x7b$endif\x7d".toList
  | some closing =>
    if (findCaseInsensitive ifOpen body).any fun inner ↦
        inner.before.length < closing.before.length then
      .error "nested \x7b$if\x7d not supported".toList
    else
      match (findCaseInsensitive ifElse body).filter fun middle ↦
          middle.before.length ≤ closing.before.length with
      | some middle =>
        .ok ⟨before, condition, middle.before,
          closing.before.drop (middle.before.length + ifElse.length), closing.after⟩
      | none => .ok ⟨before, condition, closing.before, [], closing.after⟩

/-- The block that an opening marker begins. -/
def readIfBlock (opening : Found) : Except Text IfBlock :=
  if opening.after.head?.any fun c ↦ c ≠ ' ' && c ≠ '\t' && c ≠ '\x7d' then
    .error "Unrecognized preprocessor token starting at '\x7b$if'".toList
  else
    match opening.after.dropWhile (· ≠ '\x7d') with
    | [] => .error "\x7b$if has no closing brace".toList
    | _ :: body =>
      let condition := stripCondition (opening.after.takeWhile (· ≠ '\x7d'))
      if condition = [] then .error "\x7b$if has no expression".toList
      else readBranches opening.before condition body

def truthy (s : Text) : Bool := !(s = [] || s = "false".toList || s = "nil".toList)

def conditionalStep (tools : BlockTools) (e : BlockExpansion) : BlockStep :=
  match findCaseInsensitive ifOpen e.code with
  | none => .inr (.ok e)
  | some opening =>
    match readIfBlock opening with
    | .error err => .inr (.error err)
    | .ok block =>
      match tools.luaEvaluator with
      | none => .inr (.error "\x7b$if requires a Lua evaluator on this AutoAssembler".toList)
      | some evaluate =>
        match evaluate e.answers ("return (".toList ++ block.condition ++ ")".toList) with
        | .error err => .inr (.error ("\x7b$if condition error: ".toList ++ err))
        | .ok s =>
          let kept := if truthy s then block.ifBranch else block.elseBranch
          .inl (e.splice block.before kept block.after
            ("\x7b$if\x7d: ".toList ++ (if truthy s then "true" else "false").toList ++
              " branch kept (".toList ++ decimal kept.length ++ " bytes)".toList))

/-! ### The expansion of a script -/

/-- `expandLuaBlocks`, within a number of steps for each of its loops. -/
def expandLuaBlocks (tools : BlockTools) (fuel : ℕ) (e : BlockExpansion) :
    Option (Except Text BlockExpansion) :=
  match Loops.run (ccodeStep tools) fuel e with
  | none => none
  | some (.error err) => some (.error err)
  | some (.ok e) => Loops.run (luaStep tools) fuel e

def expandConditionalBlocks (tools : BlockTools) (fuel : ℕ) (e : BlockExpansion) :
    Option (Except Text BlockExpansion) :=
  Loops.run (conditionalStep tools) fuel e

/-- The blocks of `preprocessScript`. -/
def expandBlocks (tools : BlockTools) (fuel : ℕ) (code : Text) :
    Option (Except Text BlockExpansion) :=
  match expandLuaBlocks tools fuel { code := code } with
  | none => none
  | some (.error err) => some (.error err)
  | some (.ok e) => expandConditionalBlocks tools fuel e

/-! ### Finding markers -/

/-- The text has the word in it, whatever the case of its letters. -/
def HasMarker (needle text : Text) : Prop :=
  ∃ word, word <:+: text ∧ word.map toLowerChar = needle.map toLowerChar

theorem findCaseInsensitive_eq_some {needle text : Text} {found : Found}
    (h : findCaseInsensitive needle text = some found) :
    text = found.before ++ found.word ++ found.after ∧
      found.word.map toLowerChar = needle.map toLowerChar := by
  induction text generalizing found with
  | nil => cases h
  | cons c rest ih =>
    rw [findCaseInsensitive] at h
    split_ifs at h with hword
    · cases h
      exact ⟨(List.take_append_drop _ _).symm, hword⟩
    · obtain ⟨later, hlater, rfl⟩ := Option.map_eq_some_iff.mp h
      obtain ⟨htext, hword'⟩ := ih hlater
      exact ⟨by rw [htext]; rfl, hword'⟩

theorem not_hasMarker_of_none {needle text : Text} (hneedle : needle ≠ [])
    (h : findCaseInsensitive needle text = none) : ¬HasMarker needle text := by
  rintro ⟨word, hinfix, hword⟩
  have hlength : word.length = needle.length := by
    simpa only [List.length_map] using congrArg List.length hword
  induction text with
  | nil =>
    rw [List.infix_nil.mp hinfix] at hlength
    exact hneedle (List.eq_nil_of_length_eq_zero hlength.symm)
  | cons c rest ih =>
    rw [findCaseInsensitive] at h
    split_ifs at h with hstarts
    rcases List.infix_cons_iff.mp hinfix with ⟨tail, htail⟩ | hinfix
    · refine hstarts ?_
      rw [← htail, ← hlength, List.take_left, hword]
    · exact ih (Option.map_eq_none_iff.mp h) hinfix

/-! ### Opening braces -/

/-- How many opening braces a text has. -/
def braces (text : Text) : ℕ := text.count '\x7b'

theorem braces_append (first second : Text) : braces (first ++ second) = braces first + braces second :=
  List.count_append

theorem eq_brace_of_toLowerChar {c : Char} (h : toLowerChar c = '\x7b') : c = '\x7b' := by
  unfold toLowerChar at h
  split_ifs at h with hupper
  · have hle : c.toNat ≤ 90 := hupper.2
    have hcode : (Char.ofNat (c.toNat + 32)).toNat = c.toNat + 32 := by
      rw [Char.ofNat, dif_pos (.inl (by omega))]
      rfl
    rw [h] at hcode
    have hbrace : '\x7b'.toNat = 123 := rfl
    omega
  · exact h

theorem braces_pos {needle word : Text} (hneedle : '\x7b' ∈ needle.map toLowerChar)
    (hword : word.map toLowerChar = needle.map toLowerChar) : 0 < braces word := by
  rw [← hword] at hneedle
  obtain ⟨c, hmem, hc⟩ := List.mem_map.mp hneedle
  rw [eq_brace_of_toLowerChar hc] at hmem
  exact List.count_pos_iff.mpr hmem

theorem digitChar_ne_brace : ∀ d < 16, Nat.digitChar d ≠ '\x7b' := by decide

theorem braces_emitBytes {bytes : List UInt8} {emitted : Text}
    (h : emitBytes bytes = .ok emitted) : braces emitted = 0 := by
  unfold emitBytes at h
  split_ifs at h
  cases h
  rw [braces_append]
  refine Nat.add_eq_zero_iff.mpr ⟨List.count_eq_zero.mpr fun hmem ↦ ?_, rfl⟩
  rcases List.mem_append.mp (List.dropLast_subset _ hmem) with hmem | hmem
  · exact absurd hmem (by decide)
  · obtain ⟨b, -, hb⟩ := List.mem_flatMap.mp hmem
    have hlow := digitChar_ne_brace (b.toNat % 16) (Nat.mod_lt _ (by decide))
    have hhigh := digitChar_ne_brace (b.toNat / 16) (by have := b.toNat_lt; omega)
    simp only [byteHex, List.cons_append, List.nil_append, List.mem_cons, List.not_mem_nil,
      or_false] at hb
    rcases hb with hb | hb | hb
    · exact hhigh hb.symm
    · exact hlow hb.symm
    · exact absurd hb (by decide)

/-! ### The loops -/

/-- The Lua block that is evaluated next is answered by a text with as many opening braces as it has
itself, or with more. -/
def Feeds (tools : BlockTools) (e : BlockExpansion) : Prop :=
  ∃ opening closing evaluate replacement,
    findCaseInsensitive luaOpen e.code = some opening ∧ luaClosing opening.after = some closing ∧
    tools.luaEvaluator = some evaluate ∧ evaluate e.answers closing.before = .ok replacement ∧
    braces (opening.word ++ closing.before ++ closing.word) ≤ braces replacement

variable {tools : BlockTools}

/-- What is in front of a block, the block, and what is behind it. -/
theorem braces_block {code : Text} {opening closing : Found}
    (hopen : code = opening.before ++ opening.word ++ opening.after)
    (hclose : opening.after = closing.before ++ closing.word ++ closing.after) :
    braces code = braces opening.before +
      braces (opening.word ++ closing.before ++ closing.word) + braces closing.after := by
  rw [hopen, hclose]
  simp only [braces_append]
  omega

/-- The blocks of C are replaced by text without braces. -/
theorem braces_ccodeStep {e e' : BlockExpansion} (h : ccodeStep tools e = .inl e') :
    braces e'.code < braces e.code := by
  cases hopen : findCaseInsensitive ccodeOpen e.code with
  | none => simp [ccodeStep, hopen] at h
  | some opening =>
    cases hclose : findCaseInsensitive ccodeClose opening.after with
    | none => simp [ccodeStep, hopen, hclose] at h
    | some closing =>
      cases htcc : tools.tcc with
      | none => simp [ccodeStep, hopen, hclose, htcc] at h
      | some tcc =>
        cases hbytes : tcc e.answers closing.before with
        | error err => simp [ccodeStep, hopen, hclose, htcc, hbytes, bind, Except.bind] at h
        | ok bytes =>
          cases hemitted : emitBytes bytes with
          | error err =>
            simp [ccodeStep, hopen, hclose, htcc, hbytes, hemitted, bind, Except.bind] at h
          | ok emitted =>
            simp only [ccodeStep, hopen, hclose, htcc, hbytes, bind, Except.bind, hemitted,
              Sum.inl.injEq] at h
            obtain ⟨htext, hword⟩ := findCaseInsensitive_eq_some hopen
            have hblock := braces_block htext (findCaseInsensitive_eq_some hclose).1
            have hpos := braces_pos (by decide) hword
            have hnone := braces_emitBytes hemitted
            rw [← h, hblock, BlockExpansion.splice, braces_append, braces_append, braces_append,
              braces_append]
            omega

theorem luaClosing_eq_some {rest : Text} {closing : Found} (h : luaClosing rest = some closing) :
    rest = closing.before ++ closing.word ++ closing.after := by
  unfold luaClosing at h
  cases hasm : findCaseInsensitive luaCloseAsm rest with
  | none =>
    rw [hasm] at h
    exact (findCaseInsensitive_eq_some h).1
  | some closeAsm =>
    cases hend : findCaseInsensitive luaCloseEnd rest with
    | none =>
      rw [hasm, hend] at h
      cases h
      exact (findCaseInsensitive_eq_some hasm).1
    | some closeEnd =>
      rw [hasm, hend] at h
      dsimp only at h
      split_ifs at h with hfirst
      · cases h
        exact (findCaseInsensitive_eq_some hasm).1
      · cases h
        exact (findCaseInsensitive_eq_some hend).1

/-- A Lua block that does not feed the loop takes opening braces away. -/
theorem braces_luaStep {e e' : BlockExpansion} (h : luaStep tools e = .inl e')
    (hfeeds : ¬Feeds tools e) :
    braces e'.code < braces e.code := by
  cases hopen : findCaseInsensitive luaOpen e.code with
  | none => simp [luaStep, hopen] at h
  | some opening =>
    cases hclose : luaClosing opening.after with
    | none => simp [luaStep, hopen, hclose] at h
    | some closing =>
      cases hlua : tools.luaEvaluator with
      | none => simp [luaStep, hopen, hclose, hlua] at h
      | some evaluate =>
        cases hanswer : evaluate e.answers closing.before with
        | error err => simp [luaStep, hopen, hclose, hlua, hanswer] at h
        | ok replacement =>
          simp only [luaStep, hopen, hclose, hlua, hanswer, Sum.inl.injEq] at h
          have hblock := braces_block (findCaseInsensitive_eq_some hopen).1
            (luaClosing_eq_some hclose)
          have hless : braces replacement <
              braces (opening.word ++ closing.before ++ closing.word) := by
            by_contra hge
            exact hfeeds ⟨opening, closing, evaluate, replacement, hopen, hclose, hlua, hanswer,
              Nat.not_lt.mp hge⟩
          rw [← h, hblock, BlockExpansion.splice, braces_append, braces_append]
          omega

/-- What a step of the conditional loop can do. -/
theorem conditionalStep_cases (tools : BlockTools) (e : BlockExpansion) :
    (findCaseInsensitive ifOpen e.code = none ∧ conditionalStep tools e = .inr (.ok e)) ∨
      (∃ err, conditionalStep tools e = .inr (.error err)) ∨
      ∃ opening block kept line, findCaseInsensitive ifOpen e.code = some opening ∧
        readIfBlock opening = .ok block ∧ (kept = block.ifBranch ∨ kept = block.elseBranch) ∧
        conditionalStep tools e = .inl (e.splice block.before kept block.after line) := by
  unfold conditionalStep
  cases hopen : findCaseInsensitive ifOpen e.code with
  | none => exact .inl ⟨rfl, rfl⟩
  | some opening =>
    refine .inr ?_
    dsimp only
    cases hblock : readIfBlock opening with
    | error err => exact .inl ⟨_, rfl⟩
    | ok block =>
      dsimp only
      cases tools.luaEvaluator with
      | none => exact .inl ⟨_, rfl⟩
      | some evaluate =>
        dsimp only
        cases evaluate e.answers ("return (".toList ++ block.condition ++ ")".toList) with
        | error err => exact .inl ⟨_, rfl⟩
        | ok s =>
          refine .inr ⟨opening, block, _, _, rfl, hblock, ?_, rfl⟩
          split_ifs
          · exact .inl rfl
          · exact .inr rfl

/-- What is kept of a conditional block is no longer than its body. -/
theorem readBranches_length {before condition body : Text} {block : IfBlock}
    (h : readBranches before condition body = .ok block) :
    block.before = before ∧ block.ifBranch.length + block.after.length ≤ body.length ∧
      block.elseBranch.length + block.after.length ≤ body.length := by
  unfold readBranches at h
  cases hclose : findCaseInsensitive ifEnd body with
  | none =>
    rw [hclose] at h
    cases h
  | some closing =>
    have hlength := congrArg List.length (findCaseInsensitive_eq_some hclose).1
    rw [List.length_append, List.length_append] at hlength
    rw [hclose] at h
    dsimp only at h
    split_ifs at h
    cases hmiddle : (findCaseInsensitive ifElse body).filter fun middle ↦
        middle.before.length ≤ closing.before.length with
    | none =>
      rw [hmiddle] at h
      cases h
      refine ⟨rfl, ?_, ?_⟩ <;> simp only [List.length_nil] <;> omega
    | some middle =>
      have hle : middle.before.length ≤ closing.before.length := by
        simpa using (Option.filter_eq_some_iff.mp hmiddle).2
      rw [hmiddle] at h
      cases h
      refine ⟨rfl, ?_, ?_⟩ <;> simp only [List.length_drop] <;> omega

theorem readIfBlock_length {opening : Found} {block : IfBlock}
    (h : readIfBlock opening = .ok block) :
    block.before = opening.before ∧
      block.ifBranch.length + block.after.length ≤ opening.after.length ∧
      block.elseBranch.length + block.after.length ≤ opening.after.length := by
  unfold readIfBlock at h
  split_ifs at h
  have hrest : (opening.after.dropWhile (· ≠ '\x7d')).length ≤ opening.after.length :=
    (List.dropWhile_suffix _).length_le
  cases hbody : opening.after.dropWhile (· ≠ '\x7d') with
  | nil =>
    rw [hbody] at h
    cases h
  | cons brace body =>
    rw [hbody] at h hrest
    dsimp only at h
    split_ifs at h
    obtain ⟨hbefore, hif, helse⟩ := readBranches_length h
    rw [List.length_cons] at hrest
    exact ⟨hbefore, by omega, by omega⟩

theorem length_conditionalStep {e e' : BlockExpansion} (h : conditionalStep tools e = .inl e') :
    e'.code.length < e.code.length := by
  rcases conditionalStep_cases tools e with ⟨-, hstep⟩ | ⟨err, hstep⟩ |
    ⟨opening, block, kept, line, hopen, hblock, hkept, hstep⟩
  · cases hstep.symm.trans h
  · cases hstep.symm.trans h
  · cases hstep.symm.trans h
    obtain ⟨htext, hword⟩ := findCaseInsensitive_eq_some hopen
    obtain ⟨hbefore, hif, helse⟩ := readIfBlock_length hblock
    have hlength : opening.word.length = ifOpen.length := by
      simpa only [List.length_map] using congrArg List.length hword
    have hfour : ifOpen.length = 4 := rfl
    rw [htext, BlockExpansion.splice, hbefore]
    simp only [List.length_append]
    rcases hkept with rfl | rfl <;> omega

/-- The conditional loop is over when no opening marker is left. -/
theorem conditionalStep_ok {e e' : BlockExpansion} (h : conditionalStep tools e = .inr (.ok e')) :
    ¬HasMarker ifOpen e'.code := by
  rcases conditionalStep_cases tools e with ⟨hopen, hstep⟩ | ⟨err, hstep⟩ |
    ⟨opening, block, kept, line, hopen, hblock, hkept, hstep⟩
  · cases hstep.symm.trans h
    exact not_hasMarker_of_none (by decide) hopen
  · cases hstep.symm.trans h
  · cases hstep.symm.trans h

/-! ### The end of the expansion -/

/-- The turns of the Lua loop that feed it. -/
def FedTurns (tools : BlockTools) (code : Text) : Set ℕ :=
  {turn | ∃ fuel e e', Loops.run (ccodeStep tools) fuel { code := code } = some (.ok e) ∧
    Loops.stateAt (luaStep tools) turn e = some e' ∧ Feeds tools e'}

theorem ccode_ends (tools : BlockTools) (e : BlockExpansion) : Loops.Ends (ccodeStep tools) e :=
  Loops.ends_of_measure (fun e ↦ braces e.code) (fun _ _ ↦ braces_ccodeStep) e

theorem conditional_ends (tools : BlockTools) (e : BlockExpansion) :
    Loops.Ends (conditionalStep tools) e :=
  Loops.ends_of_measure (fun e ↦ e.code.length) (fun _ _ ↦ length_conditionalStep) e

/-- An expanded text has no conditional block left to expand. -/
theorem not_hasMarker_of_expanded {fuel : ℕ} {code : Text} {e : BlockExpansion}
    (h : expandBlocks tools fuel code = some (.ok e)) : ¬HasMarker ifOpen e.code := by
  unfold expandBlocks at h
  cases hlua : expandLuaBlocks tools fuel { code := code } with
  | none =>
    rw [hlua] at h
    cases h
  | some result =>
    rw [hlua] at h
    cases result with
    | error err => cases h
    | ok expanded =>
      exact Loops.of_run (Q := fun result ↦ ∀ e, result = .ok e → ¬HasMarker ifOpen e.code)
        (P := fun _ ↦ True) (fun _ _ _ _ ↦ trivial)
        (fun _ _ _ hstep e hok ↦ conditionalStep_ok (by rw [hstep, hok])) trivial h e rfl

/-- The expansion is over when its Lua loop is. -/
theorem expandBlocks_ends_iff {code : Text} {first : ℕ} {e : BlockExpansion}
    (hccode : Loops.run (ccodeStep tools) first { code := code } = some (.ok e)) :
    (∃ fuel result, expandBlocks tools fuel code = some result) ↔
      Loops.Ends (luaStep tools) e := by
  constructor
  · rintro ⟨fuel, result, h⟩
    unfold expandBlocks expandLuaBlocks at h
    cases hrun : Loops.run (ccodeStep tools) fuel { code := code } with
    | none =>
      rw [hrun] at h
      cases h
    | some ran =>
      obtain rfl := Loops.run_unique hccode hrun
      rw [hrun] at h
      cases hlua : Loops.run (luaStep tools) fuel e with
      | none =>
        simp only [hlua] at h
        cases h
      | some expanded => exact ⟨fuel, expanded, hlua⟩
  · rintro ⟨second, result, hlua⟩
    cases result with
    | error err =>
      refine ⟨max first second, .error err, ?_⟩
      rw [expandBlocks, expandLuaBlocks, Loops.run_mono (Nat.le_max_left _ _) hccode]
      simp only [Loops.run_mono (Nat.le_max_right _ _) hlua]
    | ok expanded =>
      obtain ⟨third, result, hrun⟩ := conditional_ends tools expanded
      refine ⟨max (max first second) third, result, ?_⟩
      rw [expandBlocks, expandLuaBlocks, Loops.run_mono (by omega) hccode]
      simp only [@Loops.run_mono _ _ _ _ _ _ (max (max first second) third) (by omega) hlua]
      exact Loops.run_mono (Nat.le_max_right _ _) hrun

def selfProducing : Text := luaOpen ++ ['x'] ++ luaCloseAsm

/-- An evaluator that answers every block by the same block. -/
def selfProducingTools : BlockTools := ⟨none, some fun _ _ ↦ .ok selfProducing⟩

end Cecore.AutoAsm
