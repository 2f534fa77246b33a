import Cecore.Library.CLexer

/-!
# Where C code stands

What the characters of a line say of the lexer behind them, whatever tokens it has read: whether it
is in code, in a quoted token, in a comment or in a directive (`Phase.next`, `Phase.Fits.step`). It
is found from the code alone, where the code keeps away from what would need more.
-/

set_option autoImplicit false
set_option relaxedAutoImplicit false

namespace Cecore.Library.CPhase

open CLexer

/-! ### Where a line stands -/

/-- What is known of the lexer from the fixed code of a line alone. -/
inductive Phase
  | code
  | word
  | slash
  | string
  | stringEscape
  | character
  | characterEscape
  | comment
  | directive
  | directiveSlash
  deriving DecidableEq, Repr

/-- The phase behind a character of the code, nothing where it is left open. -/
def Phase.next (phase : Phase) (c : Char) : Option Phase :=
  if c = '\n' then none
  else match phase with
  | .code =>
    if c = doubleMark then some .string
    else if c = singleMark then some .character
    else if c = '/' then some .slash
    else if c = '#' then some .directive
    else if c = '%' ∨ c = backslash then none
    else if isWordChar c then some .word
    else some .code
  | .word =>
    if c = '/' then some .slash
    else if c = doubleMark ∨ c = singleMark ∨ c = '#' ∨ c = '%' ∨ c = backslash then none
    else if isWordChar c ∨ c = '.' ∨ c = '+' ∨ c = '-' then some .word
    else some .code
  | .slash =>
    if c = '/' then some .comment
    else if c = '*' ∨ c = doubleMark ∨ c = singleMark ∨ c = '#' ∨ c = '%' ∨ c = backslash then none
    else if isWordChar c then some .word
    else some .code
  | .string =>
    if c = doubleMark then some .code else if c = backslash then some .stringEscape else some .string
  | .stringEscape => some .string
  | .character =>
    if c = singleMark then some .code
    else if c = backslash then some .characterEscape
    else some .character
  | .characterEscape => some .character
  | .comment => if c = backslash then none else some .comment
  | .directive =>
    if c = '/' then some .directiveSlash
    else if c = doubleMark ∨ c = singleMark ∨ c = backslash then none
    else some .directive
  | .directiveSlash =>
    if c = '/' ∨ c = '*' ∨ c = doubleMark ∨ c = singleMark ∨ c = backslash then none
    else some .directive

def Phase.behind (phase : Phase) : List Char → Option Phase
  | [] => some phase
  | c :: rest => (phase.next c).bind fun after ↦ after.behind rest

/-- A line may end here. -/
def Phase.ends : Phase → Bool
  | .string | .stringEscape | .character | .characterEscape => false
  | _ => true

theorem Phase.behind_append (phase : Phase) (first second : List Char) :
    phase.behind (first ++ second) = (phase.behind first).bind fun after ↦ after.behind second := by
  induction first generalizing phase with
  | nil => rfl
  | cons c first ih =>
    rw [List.cons_append, Phase.behind, Phase.behind, Option.bind_assoc]
    exact Option.bind_congr fun after _ ↦ ih after

/-- No `#include` is in progress. -/
def Outside (place : Place) : Prop := place = .lineStart ∨ place = .elsewhere

/-- Not the start of a comment, and no part of the mark of a directive. -/
def Quiet (text : List Char) : Prop := text ≠ ['/'] ∧ '#' ∉ text ∧ '%' ∉ text

/-- Between tokens, or in a punctuator. -/
def Calm (mode : Mode) : Prop := mode = .between ∨ ∃ text, mode = .punctuator text ∧ Quiet text

/-- Not in a quoted token or a comment. -/
def Loose (mode : Mode) : Prop :=
  mode = .between ∨ (∃ text, mode = .word text) ∨ (∃ text, mode = .number text) ∨
    (∃ text, mode = .punctuator text ∧ text ≠ ['/']) ∨ ∃ close text, mode = .header close text

theorem Calm.loose {mode : Mode} (h : Calm mode) : Loose mode := by
  rcases h with hmode | ⟨text, hmode, hquiet⟩
  · exact .inl hmode
  · exact .inr (.inr (.inr (.inl ⟨text, hmode, hquiet.1⟩)))

/-- The lexer is where the phase says. -/
def Phase.Fits : Phase → Control → Prop
  | .code, κ => Outside κ.place ∧ Calm κ.mode
  | .word, κ => Outside κ.place ∧
      (Calm κ.mode ∨ (∃ text, κ.mode = .word text) ∨ ∃ text, κ.mode = .number text)
  | .slash, κ => Outside κ.place ∧ κ.mode = .punctuator ['/']
  | .string, κ => Outside κ.place ∧ ∃ text, κ.mode = .string text
  | .stringEscape, κ => Outside κ.place ∧ ∃ text, κ.mode = .stringEscape text
  | .character, κ => Outside κ.place ∧ ∃ text, κ.mode = .character text
  | .characterEscape, κ => Outside κ.place ∧ ∃ text, κ.mode = .characterEscape text
  | .comment, κ => Outside κ.place ∧ κ.mode = .lineComment
  | .directive, κ => Loose κ.mode
  | .directiveSlash, κ => Loose κ.mode ∨ κ.mode = .punctuator ['/']

theorem Outside.ne_afterInclude {place : Place} (h : Outside place) : place ≠ .afterInclude := by
  rintro rfl
  rcases h with h | h <;> cases h

theorem fits_fresh : Phase.code.Fits fresh := ⟨.inl rfl, .inl rfl⟩

/-! ### Tokens that end -/

/-- Not the mark of a directive. -/
def NoMark (token : Token) : Prop := token ≠ .punctuator ['#'] ∧ token ≠ .punctuator ['%', ':']

theorem Outside.after {place : Place} (h : Outside place) {token : Token} (htoken : NoMark token) :
    Outside (place.after token) := by
  right
  rw [Place.after, if_neg fun hmark ↦ hmark.2.elim htoken.1 htoken.2, if_neg]
  rintro ⟨rfl, -⟩
  rcases h with h | h <;> cases h

theorem Outside.foldl {place : Place} (h : Outside place) {ended : List Token}
    (hended : ∀ token ∈ ended, NoMark token) : Outside (ended.foldl Place.after place) := by
  induction ended generalizing place with
  | nil => exact h
  | cons token ended ih =>
    exact ih (h.after (hended token List.mem_cons_self))
      fun other hmem ↦ hended other (List.mem_cons_of_mem token hmem)

theorem Quiet.noMark {text : List Char} (h : Quiet text) : NoMark (.punctuator text) := by
  constructor
  · rintro ⟨⟩
    exact h.2.1 List.mem_cons_self
  · rintro ⟨⟩
    exact h.2.2 List.mem_cons_self

/-- A punctuator goes on with characters of punctuators only. -/
theorem prolongs_mem {text : List Char} {c : Char} (h : prolongs text c = true) :
    ∃ punctuator ∈ punctuators, c ∈ punctuator := by
  obtain ⟨punctuator, hmem, hstarts⟩ := List.any_eq_true.mp h
  rw [List.isPrefixOf_iff_prefix] at hstarts
  exact ⟨punctuator, hmem, hstarts.subset (List.mem_append_right text List.mem_cons_self)⟩

theorem Quiet.append {text : List Char} {c : Char} (h : Quiet text)
    (hc : c ≠ '/' ∧ c ≠ '#' ∧ c ≠ '%') : Quiet (text ++ [c]) := by
  refine ⟨fun heq ↦ ?_, ?_, ?_⟩
  · have hlast := congrArg List.getLast? heq
    rw [List.getLast?_concat] at hlast
    exact hc.1 (Option.some.inj hlast)
  · simpa using ⟨h.2.1, hc.2.1.symm⟩
  · simpa using ⟨h.2.2, hc.2.2.symm⟩

theorem longest_quiet {text : List Char} (h : Quiet text) :
    Quiet (longest text).2 ∧ ∀ token ∈ (longest text).1, NoMark token := by
  unfold longest
  split_ifs with hpoints hmark
  · have hpoint : Quiet ['.'] := by unfold Quiet; decide
    exact ⟨hpoint, fun token hmem ↦ List.mem_singleton.mp hmem ▸ hpoint.noMark⟩
  · exact absurd (hmark ▸ List.mem_cons_self) h.2.2
  · exact ⟨h, fun token hmem ↦ absurd hmem List.not_mem_nil⟩

theorem quiet_of_cut {text last : List Char} {ended : List Token} (h : Quiet text)
    (hcut : ended = [] ∧ last = text ∨ (ended, last) = longest text) :
    Quiet last ∧ ∀ token ∈ ended, NoMark token := by
  rcases hcut with ⟨rfl, rfl⟩ | hcut
  · exact ⟨h, fun token hmem ↦ absurd hmem List.not_mem_nil⟩
  · obtain ⟨rfl, rfl⟩ := Prod.mk.inj hcut
    exact longest_quiet h

/-! ### A token starts -/

section Begin

variable {place : Place} {ended : List Token} {c : Char}

theorem begin_newline : place.begin ended '\n' = (fresh, ended) := by
  rw [Place.begin, if_pos rfl]

theorem begin_doubleMark (h : Outside (ended.foldl Place.after place)) :
    place.begin ended doubleMark =
      (⟨.string [doubleMark], ended.foldl Place.after place⟩, ended) := by
  have hplace := h.ne_afterInclude
  rw [Place.begin, if_neg (by decide), if_neg (by decide), if_neg fun h ↦ hplace h.2,
    if_neg fun h ↦ hplace h.2, if_pos rfl]

theorem begin_singleMark :
    place.begin ended singleMark =
      (⟨.character [singleMark], ended.foldl Place.after place⟩, ended) := by
  rw [Place.begin, if_neg (by decide), if_neg (by decide), if_neg fun h ↦ absurd h.1 (by decide),
    if_neg fun h ↦ absurd h.1 (by decide), if_neg (by decide), if_pos rfl]

theorem begin_slash :
    place.begin ended '/' = (⟨.punctuator ['/'], ended.foldl Place.after place⟩, ended) := by
  rw [Place.begin, if_neg (by decide), if_neg (by decide), if_neg fun h ↦ absurd h.1 (by decide),
    if_neg fun h ↦ absurd h.1 (by decide), if_neg (by decide), if_neg (by decide),
    if_neg (by decide), if_neg (by decide), if_pos (by decide)]

/-- A character that is no mark starts a token outside of quotes. -/
theorem begin_loose (hc : c ≠ doubleMark ∧ c ≠ singleMark ∧ c ≠ '/') :
    Loose (place.begin ended c).1.mode := by
  unfold Place.begin
  dsimp only
  split_ifs
  · exact .inl rfl
  · exact .inl rfl
  · exact .inr (.inr (.inr (.inr ⟨_, _, rfl⟩)))
  · exact .inr (.inr (.inr (.inr ⟨_, _, rfl⟩)))
  · exact absurd ‹_› hc.1
  · exact absurd ‹_› hc.2.1
  · exact .inr (.inl ⟨_, rfl⟩)
  · exact .inr (.inr (.inl ⟨_, rfl⟩))
  · exact .inr (.inr (.inr (.inl ⟨_, rfl, fun heq ↦ hc.2.2 (List.cons.inj heq).1⟩)))
  · exact .inl rfl

/-- Outside of an `#include`, a character that is no mark starts a word or a punctuator. -/
theorem begin_fits (h : Outside (ended.foldl Place.after place))
    (hc : c ≠ doubleMark ∧ c ≠ singleMark ∧ c ≠ '/' ∧ c ≠ '#' ∧ c ≠ '%') :
    (if isWordChar c then Phase.word else Phase.code).Fits (place.begin ended c).1 := by
  have hplace := h.ne_afterInclude
  have hcalm : ∀ κ : Control, Outside κ.place ∧ Calm κ.mode →
      (if isWordChar c then Phase.word else Phase.code).Fits κ := by
    intro κ hκ
    split_ifs
    · exact ⟨hκ.1, .inl hκ.2⟩
    · exact hκ
  have hword : isWordChar c = true → (if isWordChar c then Phase.word else Phase.code) = .word :=
    fun h ↦ if_pos h
  unfold Place.begin
  dsimp only
  generalize (if isWordChar c then Phase.word else Phase.code) = phase at hcalm hword ⊢
  split_ifs with h1 h2 h3 h4 h5 h6 h7 h8 h9
  · exact hcalm _ ⟨.inl rfl, .inl rfl⟩
  · exact hcalm _ ⟨h, .inl rfl⟩
  · exact absurd h3.2 hplace
  · exact absurd h4.2 hplace
  · exact absurd h5 hc.1
  · exact absurd h6 hc.2.1
  · rw [hword (by rw [isWordChar, h7]; rfl)]
    exact ⟨h, .inr (.inl ⟨_, rfl⟩)⟩
  · rw [hword (by rw [isWordChar, h8, Bool.or_true])]
    exact ⟨h, .inr (.inr ⟨_, rfl⟩)⟩
  · have hempty : Quiet [] := ⟨fun heq ↦ (nomatch heq), List.not_mem_nil, List.not_mem_nil⟩
    exact hcalm _ ⟨h, .inr ⟨_, rfl, hempty.append hc.2.2⟩⟩
  · exact hcalm _ ⟨h.after ⟨fun heq ↦ (nomatch heq), fun heq ↦ (nomatch heq)⟩, .inl rfl⟩

end Begin

/-! ### One character -/

/-- A punctuator, with what is read next in front of it cut off, goes on, becomes a number, or ends.
-/
theorem step_punctuator {place : Place} {text : List Char} {c : Char}
    (hslash : text = ['/'] → c ≠ '/' ∧ c ≠ '*') :
    ∃ ended last, (ended = [] ∧ last = text ∨ (ended, last) = longest text) ∧
      (prolongs last c = true ∧
          step ⟨.punctuator text, place⟩ c =
            (⟨.punctuator (last ++ [c]), ended.foldl Place.after place⟩, ended) ∨
        isDecimal c = true ∧
          step ⟨.punctuator text, place⟩ c =
            (⟨.number (last ++ [c]), ended.foldl Place.after place⟩, ended) ∨
        step ⟨.punctuator text, place⟩ c = place.begin (ended ++ [.punctuator last]) c) := by
  unfold step
  dsimp only
  rw [if_neg fun h ↦ (hslash h.1).1 h.2, if_neg fun h ↦ (hslash h.1).2 h.2]
  by_cases hgoes : prolongs text c = true
  · exact ⟨[], text, .inl ⟨rfl, rfl⟩, .inl ⟨hgoes, by rw [if_pos hgoes]; rfl⟩⟩
  · rw [if_neg hgoes]
    refine ⟨(longest text).1, (longest text).2, .inr rfl, ?_⟩
    split_ifs with hpoint hrest
    · exact .inr (.inl ⟨hpoint.2, rfl⟩)
    · exact .inl ⟨hrest.2, rfl⟩
    · exact .inr (.inr rfl)

/-- A calm lexer begins with a mark as with nothing in front of it. -/
theorem step_calm {κ : Control} (houtside : Outside κ.place) (hcalm : Calm κ.mode) :
    ∃ ended : List Token, Outside (ended.foldl Place.after κ.place) ∧
      (∀ c, (∀ punctuator ∈ punctuators, c ∉ punctuator) → isDecimal c = false → c ≠ '/' → c ≠ '*' →
        step κ c = κ.place.begin ended c) := by
  obtain ⟨mode, place⟩ := κ
  rcases hcalm with rfl | ⟨text, rfl, hquiet⟩
  · exact ⟨[], houtside, fun c _ _ _ _ ↦ rfl⟩
  · obtain ⟨hlast, hended⟩ := longest_quiet hquiet
    refine ⟨(longest text).1 ++ [.punctuator (longest text).2], ?_, ?_⟩
    · exact houtside.foldl fun token hmem ↦ (List.mem_append.mp hmem).elim (hended token)
        fun hmem ↦ List.mem_singleton.mp hmem ▸ hlast.noMark
    · intro c hstrange hdecimal hslash hstar
      have hno : ∀ front, prolongs front c = false := fun front ↦
        Bool.eq_false_iff.mpr fun h ↦
          (prolongs_mem h).elim fun punctuator h ↦ hstrange punctuator h.1 h.2
      have hpoint : ¬((longest text).2 = ['.'] ∧ isDecimal c = true) := fun h ↦ by
        rw [hdecimal] at h
        exact Bool.noConfusion h.2
      unfold step
      dsimp only
      rw [if_neg fun h ↦ hslash h.2, if_neg fun h ↦ hstar h.2, hno, hno, if_neg (by decide),
        if_neg hpoint, if_neg fun h ↦ absurd h.2 (by decide)]

theorem isWordChar_of_isDecimal {c : Char} (h : isDecimal c = true) : isWordChar c = true := by
  rw [isWordChar, h, Bool.or_true]

theorem code_le_word {κ : Control} (h : Phase.code.Fits κ) : Phase.word.Fits κ := ⟨h.1, .inl h.2⟩

/-- The phase behind a character that is no mark, where no word is in progress. -/
def plainPhase (c : Char) : Phase := if isWordChar c then .word else .code

theorem fits_of_plainPhase {c : Char} {κ : Control} (h : (plainPhase c).Fits κ) :
    Phase.word.Fits κ := by
  unfold plainPhase at h
  split_ifs at h
  · exact h
  · exact code_le_word h

theorem plainPhase_fits_of_calm {c : Char} {κ : Control} (houtside : Outside κ.place)
    (hcalm : Calm κ.mode) : (plainPhase c).Fits κ := by
  unfold plainPhase
  split_ifs
  · exact ⟨houtside, .inl hcalm⟩
  · exact ⟨houtside, hcalm⟩

/-- A quiet punctuator, or a slash with no comment behind it, and a character that is no mark. -/
theorem step_punctuator_fits {place : Place} {text : List Char} {c : Char} (houtside : Outside place)
    (htext : Quiet text ∨ text = ['/'] ∧ c ≠ '*')
    (hc : c ≠ doubleMark ∧ c ≠ singleMark ∧ c ≠ '/' ∧ c ≠ '#' ∧ c ≠ '%') :
    (plainPhase c).Fits (step ⟨.punctuator text, place⟩ c).1 := by
  obtain ⟨ended, last, hcut, hstep⟩ := @step_punctuator place text c
    fun heq ↦ ⟨hc.2.2.1, htext.elim (fun hquiet ↦ absurd heq hquiet.1) And.right⟩
  have hlast : Quiet (last ++ [c]) ∧ NoMark (.punctuator last) ∧ ∀ token ∈ ended, NoMark token := by
    rcases htext with hquiet | ⟨rfl, -⟩
    · have hparts := quiet_of_cut hquiet hcut
      exact ⟨hparts.1.append hc.2.2, hparts.1.noMark, hparts.2⟩
    · obtain ⟨rfl, rfl⟩ : ended = [] ∧ last = ['/'] := by
        rcases hcut with h | h
        · exact h
        · exact Prod.mk.inj h
      refine ⟨⟨by simp, ?_, ?_⟩, ⟨by decide, by decide⟩, fun token hmem ↦ absurd hmem List.not_mem_nil⟩
      · simpa using hc.2.2.2.1.symm
      · simpa using hc.2.2.2.2.symm
  have hplace := houtside.foldl hlast.2.2
  rcases hstep with ⟨-, hstep⟩ | ⟨hdecimal, hstep⟩ | hstep
  · rw [hstep]
    exact plainPhase_fits_of_calm hplace (.inr ⟨_, rfl, hlast.1⟩)
  · rw [hstep, plainPhase, if_pos (isWordChar_of_isDecimal hdecimal)]
    exact ⟨hplace, .inr (.inr ⟨_, rfl⟩)⟩
  · rw [hstep]
    refine begin_fits (houtside.foldl fun token hmem ↦ ?_) hc
    exact (List.mem_append.mp hmem).elim (hlast.2.2 token)
      fun hmem ↦ List.mem_singleton.mp hmem ▸ hlast.2.1

theorem step_calm_fits {κ : Control} {c : Char} (houtside : Outside κ.place) (hcalm : Calm κ.mode)
    (hc : c ≠ doubleMark ∧ c ≠ singleMark ∧ c ≠ '/' ∧ c ≠ '#' ∧ c ≠ '%') :
    (plainPhase c).Fits (step κ c).1 := by
  obtain ⟨mode, place⟩ := κ
  rcases hcalm with rfl | ⟨text, rfl, hquiet⟩
  · exact @begin_fits place [] c houtside hc
  · exact step_punctuator_fits houtside (.inl hquiet) hc

/-- Only a slash starts with a slash. -/
theorem eq_nil_of_prolongs_slash {text : List Char} (h : prolongs text '/' = true) : text = [] := by
  obtain ⟨punctuator, hmem, hstarts⟩ := List.any_eq_true.mp h
  rw [List.isPrefixOf_iff_prefix] at hstarts
  have hslash : ∀ punctuator ∈ punctuators, '/' ∉ punctuator.drop 1 := by decide
  cases text with
  | nil => rfl
  | cons d text =>
    obtain ⟨rest, rfl⟩ := hstarts
    exact absurd (by simp) (hslash _ hmem)

theorem step_calm_slash {κ : Control} (houtside : Outside κ.place) (hcalm : Calm κ.mode) :
    Phase.slash.Fits (step κ '/').1 := by
  obtain ⟨mode, place⟩ := κ
  rcases hcalm with rfl | ⟨text, rfl, hquiet⟩
  · show Phase.slash.Fits (place.begin [] '/').1
    rw [begin_slash]
    exact ⟨houtside, rfl⟩
  · obtain ⟨ended, last, hcut, hstep⟩ := @step_punctuator place text '/'
      fun heq ↦ absurd heq hquiet.1
    have hparts := quiet_of_cut hquiet hcut
    rcases hstep with ⟨hgoes, hstep⟩ | ⟨hdecimal, -⟩ | hstep
    · rw [hstep, eq_nil_of_prolongs_slash hgoes]
      exact ⟨houtside.foldl hparts.2, rfl⟩
    · exact absurd hdecimal (by decide)
    · rw [hstep, begin_slash]
      refine ⟨houtside.foldl fun token hmem ↦ ?_, rfl⟩
      exact (List.mem_append.mp hmem).elim (hparts.2 token)
        fun hmem ↦ List.mem_singleton.mp hmem ▸ hparts.1.noMark

theorem step_word {place : Place} {text : List Char} {c : Char} (hc : c ≠ doubleMark ∧ c ≠ singleMark) :
    step ⟨.word text, place⟩ c =
      if isWordChar c then (⟨.word (text ++ [c]), place⟩, []) else place.begin [.identifier text] c := by
  unfold step
  dsimp only
  rw [if_neg (fun h ↦ hc.1 h.2 : ¬(text ∈ encodings ∧ c = doubleMark)),
    if_neg (fun h ↦ hc.2 h.2 : ¬(text ∈ encodings ∧ c = singleMark))]

theorem step_number {place : Place} {text : List Char} {c : Char} :
    step ⟨.number text, place⟩ c =
      if continuesNumber text c then (⟨.number (text ++ [c]), place⟩, [])
      else place.begin [.number text] c := rfl

theorem noMark_identifier (text : List Char) : NoMark (.identifier text) :=
  ⟨fun h ↦ (nomatch h), fun h ↦ (nomatch h)⟩

theorem noMark_number (text : List Char) : NoMark (.number text) :=
  ⟨fun h ↦ (nomatch h), fun h ↦ (nomatch h)⟩

/-- Behind a word or a number that ends. -/
theorem begin_single_fits {place : Place} {token : Token} {c : Char} (houtside : Outside place)
    (htoken : NoMark token)
    (hc : c ≠ doubleMark ∧ c ≠ singleMark ∧ c ≠ '/' ∧ c ≠ '#' ∧ c ≠ '%') :
    (plainPhase c).Fits (place.begin [token] c).1 :=
  begin_fits (houtside.after htoken) hc

theorem step_word_fits {κ : Control} {c : Char} (h : Phase.word.Fits κ)
    (hc : c ≠ doubleMark ∧ c ≠ singleMark ∧ c ≠ '/' ∧ c ≠ '#' ∧ c ≠ '%') :
    (if isWordChar c ∨ c = '.' ∨ c = '+' ∨ c = '-' then Phase.word else .code).Fits (step κ c).1 := by
  have hweaken : ∀ κ : Control, (plainPhase c).Fits κ →
      (if isWordChar c ∨ c = '.' ∨ c = '+' ∨ c = '-' then Phase.word else .code).Fits κ := by
    intro κ hκ
    split_ifs with hgoes
    · exact fits_of_plainPhase hκ
    · rwa [plainPhase, if_neg fun hword ↦ hgoes (.inl hword)] at hκ
  obtain ⟨mode, place⟩ := κ
  obtain ⟨houtside, hcalm | ⟨text, rfl⟩ | ⟨text, rfl⟩⟩ := h
  · exact hweaken _ (step_calm_fits houtside hcalm hc)
  · rw [step_word ⟨hc.1, hc.2.1⟩]
    by_cases hword : isWordChar c = true
    · rw [if_pos hword, if_pos (.inl hword)]
      exact ⟨houtside, .inr (.inl ⟨_, rfl⟩)⟩
    · rw [if_neg hword]
      exact hweaken _ (begin_single_fits houtside (noMark_identifier text) hc)
  · rw [step_number]
    by_cases hnumber : continuesNumber text c = true
    · have hgoes : isWordChar c = true ∨ c = '.' ∨ c = '+' ∨ c = '-' := by
        simp only [continuesNumber, Bool.or_eq_true, Bool.and_eq_true, decide_eq_true_eq] at hnumber
        tauto
      rw [if_pos hnumber, if_pos hgoes]
      exact ⟨houtside, .inr (.inr ⟨_, rfl⟩)⟩
    · rw [if_neg hnumber]
      exact hweaken _ (begin_single_fits houtside (noMark_number text) hc)

theorem step_word_slash {κ : Control} (h : Phase.word.Fits κ) : Phase.slash.Fits (step κ '/').1 := by
  obtain ⟨mode, place⟩ := κ
  obtain ⟨houtside, hcalm | ⟨text, rfl⟩ | ⟨text, rfl⟩⟩ := h
  · exact step_calm_slash houtside hcalm
  · rw [step_word ⟨by decide, by decide⟩, if_neg (by decide), begin_slash]
    exact ⟨houtside.after (noMark_identifier text), rfl⟩
  · rw [step_number, if_neg (by simp [continuesNumber, isWordChar, isNondigit, isDecimal]), begin_slash]
    exact ⟨houtside.after (noMark_number text), rfl⟩

/-! ### Directives -/

theorem step_loose {κ : Control} {c : Char} (h : Loose κ.mode ∨ κ.mode = .punctuator ['/'] ∧ c ≠ '*')
    (hc : c ≠ doubleMark ∧ c ≠ singleMark ∧ c ≠ '/') : Loose (step κ c).1.mode := by
  obtain ⟨mode, place⟩ := κ
  have hpunctuator : ∀ text, (text = ['/'] → c ≠ '*') →
      Loose (step ⟨.punctuator text, place⟩ c).1.mode := by
    intro text hstar
    obtain ⟨ended, last, -, hstep⟩ := @step_punctuator place text c
      fun heq ↦ ⟨hc.2.2, hstar heq⟩
    rcases hstep with ⟨-, hstep⟩ | ⟨-, hstep⟩ | hstep
    · rw [hstep]
      refine .inr (.inr (.inr (.inl ⟨_, rfl, fun heq ↦ hc.2.2 ?_⟩)))
      have hend := congrArg List.getLast? heq
      rw [List.getLast?_concat] at hend
      exact Option.some.inj hend
    · rw [hstep]
      exact .inr (.inr (.inl ⟨_, rfl⟩))
    · rw [hstep]
      exact begin_loose hc
  rcases h with (rfl | ⟨text, rfl⟩ | ⟨text, rfl⟩ | ⟨text, rfl, hne⟩ | ⟨close, text, rfl⟩) | ⟨rfl, hstar⟩
  · exact begin_loose hc
  · rw [step_word ⟨hc.1, hc.2.1⟩]
    split_ifs
    · exact .inr (.inl ⟨_, rfl⟩)
    · exact begin_loose hc
  · rw [step_number]
    split_ifs
    · exact .inr (.inr (.inl ⟨_, rfl⟩))
    · exact begin_loose hc
  · exact hpunctuator text fun heq ↦ absurd heq hne
  · unfold step
    dsimp only
    split_ifs
    · exact .inl rfl
    · exact .inl rfl
    · exact .inr (.inr (.inr (.inr ⟨_, _, rfl⟩)))
  · exact hpunctuator ['/'] fun _ ↦ hstar

theorem step_loose_slash {κ : Control} (h : Loose κ.mode) :
    Phase.directiveSlash.Fits (step κ '/').1 := by
  obtain ⟨mode, place⟩ := κ
  rcases h with rfl | ⟨text, rfl⟩ | ⟨text, rfl⟩ | ⟨text, rfl, hne⟩ | ⟨close, text, rfl⟩
  · show Phase.directiveSlash.Fits (place.begin [] '/').1
    rw [begin_slash]
    exact .inr rfl
  · rw [step_word ⟨by decide, by decide⟩, if_neg (by decide), begin_slash]
    exact .inr rfl
  · rw [step_number]
    split_ifs
    · exact .inl (.inr (.inr (.inl ⟨_, rfl⟩)))
    · rw [begin_slash]
      exact .inr rfl
  · obtain ⟨ended, last, -, hstep⟩ := @step_punctuator place text '/'
      fun heq ↦ absurd heq hne
    rcases hstep with ⟨hgoes, hstep⟩ | ⟨hdecimal, -⟩ | hstep
    · rw [hstep, eq_nil_of_prolongs_slash hgoes]
      exact .inr rfl
    · exact absurd hdecimal (by decide)
    · rw [hstep, begin_slash]
      exact .inr rfl
  · unfold step
    dsimp only
    split_ifs
    · exact .inl (.inl rfl)
    · exact .inl (.inl rfl)
    · exact .inl (.inr (.inr (.inr (.inr ⟨_, _, rfl⟩))))

/-! ### The phases follow the lexer -/

/-- A mark that no punctuator has ends what a calm lexer reads. -/
theorem step_calm_doubleMark {κ : Control} (houtside : Outside κ.place) (hcalm : Calm κ.mode) :
    ∃ place, Outside place ∧ (step κ doubleMark).1 = ⟨.string [doubleMark], place⟩ := by
  obtain ⟨ended, hended, hstep⟩ := step_calm houtside hcalm
  refine ⟨_, hended, ?_⟩
  rw [hstep doubleMark (by decide) (by decide) (by decide) (by decide), begin_doubleMark hended]

theorem step_calm_singleMark {κ : Control} (houtside : Outside κ.place) (hcalm : Calm κ.mode) :
    Phase.character.Fits (step κ singleMark).1 := by
  obtain ⟨ended, hended, hstep⟩ := step_calm houtside hcalm
  rw [hstep singleMark (by decide) (by decide) (by decide) (by decide), begin_singleMark]
  exact ⟨hended, _, rfl⟩

theorem Phase.Fits.step {phase after : Phase} {κ : Control} {c : Char} (h : phase.Fits κ)
    (hnext : phase.next c = some after) : after.Fits (step κ c).1 := by
  unfold Phase.next at hnext
  by_cases hnewline : c = '\n'
  · rw [if_pos hnewline] at hnext
    cases hnext
  rw [if_neg hnewline] at hnext
  cases phase with
  | code =>
    dsimp only at hnext
    split_ifs at hnext with hdouble hsingle hslash hhash hmark hword <;> obtain rfl := Option.some.inj hnext
    · obtain ⟨place, hplace, hstep⟩ := step_calm_doubleMark h.1 h.2
      rw [hdouble, hstep]
      exact ⟨hplace, _, rfl⟩
    · exact hsingle ▸ step_calm_singleMark h.1 h.2
    · exact hslash ▸ step_calm_slash h.1 h.2
    · exact step_loose (.inl h.2.loose) ⟨hdouble, hsingle, hslash⟩
    · have hfits := step_calm_fits h.1 h.2 ⟨hdouble, hsingle, hslash, hhash, fun h ↦ hmark (.inl h)⟩
      rwa [plainPhase, if_pos hword] at hfits
    · have hfits := step_calm_fits h.1 h.2 ⟨hdouble, hsingle, hslash, hhash, fun h ↦ hmark (.inl h)⟩
      rwa [plainPhase, if_neg hword] at hfits
  | word =>
    dsimp only at hnext
    split_ifs at hnext with hslash hmark hword <;> obtain rfl := Option.some.inj hnext
    · exact hslash ▸ step_word_slash h
    all_goals
      have hfits := step_word_fits h ⟨fun h ↦ hmark (.inl h), fun h ↦ hmark (.inr (.inl h)), hslash,
        fun h ↦ hmark (.inr (.inr (.inl h))), fun h ↦ hmark (.inr (.inr (.inr (.inl h))))⟩
    · rwa [if_pos hword] at hfits
    · rwa [if_neg hword] at hfits
  | slash =>
    obtain ⟨mode, place⟩ := κ
    obtain ⟨houtside, rfl⟩ := h
    dsimp only at hnext
    split_ifs at hnext with hslash hmark hword <;> obtain rfl := Option.some.inj hnext
    · rw [hslash]
      exact ⟨houtside, rfl⟩
    all_goals
      push Not at hmark
      have hfits := step_punctuator_fits houtside (.inr ⟨rfl, hmark.1⟩)
        ⟨hmark.2.1, hmark.2.2.1, hslash, hmark.2.2.2.1, hmark.2.2.2.2.1⟩
    · rwa [plainPhase, if_pos hword] at hfits
    · rwa [plainPhase, if_neg hword] at hfits
  | string =>
    obtain ⟨mode, place⟩ := κ
    obtain ⟨houtside, text, rfl⟩ := h
    dsimp only at hnext
    unfold CLexer.step Place.quote
    dsimp only
    split_ifs at hnext ⊢ <;> obtain rfl := Option.some.inj hnext
    · exact ⟨houtside.after ⟨fun h ↦ (nomatch h), fun h ↦ (nomatch h)⟩, .inl rfl⟩
    · exact ⟨houtside, _, rfl⟩
    · exact ⟨houtside, _, rfl⟩
  | stringEscape =>
    obtain ⟨mode, place⟩ := κ
    obtain ⟨houtside, text, rfl⟩ := h
    obtain rfl := Option.some.inj hnext
    unfold CLexer.step Place.escaped
    dsimp only
    rw [if_neg hnewline]
    exact ⟨houtside, _, rfl⟩
  | character =>
    obtain ⟨mode, place⟩ := κ
    obtain ⟨houtside, text, rfl⟩ := h
    dsimp only at hnext
    unfold CLexer.step Place.quote
    dsimp only
    split_ifs at hnext ⊢ <;> obtain rfl := Option.some.inj hnext
    · exact ⟨houtside.after ⟨fun h ↦ (nomatch h), fun h ↦ (nomatch h)⟩, .inl rfl⟩
    · exact ⟨houtside, _, rfl⟩
    · exact ⟨houtside, _, rfl⟩
  | characterEscape =>
    obtain ⟨mode, place⟩ := κ
    obtain ⟨houtside, text, rfl⟩ := h
    obtain rfl := Option.some.inj hnext
    unfold CLexer.step Place.escaped
    dsimp only
    rw [if_neg hnewline]
    exact ⟨houtside, _, rfl⟩
  | comment =>
    obtain ⟨mode, place⟩ := κ
    obtain ⟨houtside, rfl⟩ := h
    dsimp only at hnext
    split_ifs at hnext
    obtain rfl := Option.some.inj hnext
    unfold CLexer.step
    dsimp only
    rw [if_neg hnewline]
    exact ⟨houtside, rfl⟩
  | directive =>
    dsimp only at hnext
    split_ifs at hnext with hslash hmark <;> obtain rfl := Option.some.inj hnext
    · exact hslash ▸ step_loose_slash h
    · exact step_loose (.inl h) ⟨fun h ↦ hmark (.inl h), fun h ↦ hmark (.inr (.inl h)), hslash⟩
  | directiveSlash =>
    dsimp only at hnext
    split_ifs at hnext with hmark
    obtain rfl := Option.some.inj hnext
    push Not at hmark
    exact step_loose (h.imp_right fun h ↦ ⟨h, hmark.2.1⟩) ⟨hmark.2.2.1, hmark.2.2.2.1, hmark.1⟩

theorem Phase.Fits.run {phase after : Phase} {κ : Control} {text : List Char} (h : phase.Fits κ)
    (hbehind : phase.behind text = some after) : after.Fits (run κ text).1 := by
  induction text generalizing phase κ with
  | nil => exact Option.some.inj hbehind ▸ h
  | cons c text ih =>
    obtain ⟨next, hnext, hbehind⟩ := Option.bind_eq_some_iff.mp hbehind
    exact ih (h.step hnext) hbehind

/-- Outside of quotes and comments a newline leads to the next line. -/
theorem step_loose_newline {κ : Control} (h : Loose κ.mode ∨ κ.mode = .punctuator ['/']) :
    (step κ '\n').1 = fresh := by
  obtain ⟨mode, place⟩ := κ
  have hpunctuator : ∀ text, (step ⟨.punctuator text, place⟩ '\n').1 = fresh := by
    intro text
    obtain ⟨ended, last, -, hstep⟩ := @step_punctuator place text '\n'
      fun _ ↦ by decide
    rcases hstep with ⟨hgoes, -⟩ | ⟨hdecimal, -⟩ | hstep
    · obtain ⟨punctuator, hmem, hc⟩ := prolongs_mem hgoes
      exact absurd hc ((by decide : ∀ punctuator ∈ punctuators, '\n' ∉ punctuator) punctuator hmem)
    · exact absurd hdecimal (by decide)
    · rw [hstep, begin_newline]
  rcases h with (rfl | ⟨text, rfl⟩ | ⟨text, rfl⟩ | ⟨text, rfl, -⟩ | ⟨close, text, rfl⟩) | rfl
  · rfl
  · rw [step_word ⟨by decide, by decide⟩, if_neg (by decide), begin_newline]
  · rw [step_number, if_neg (by simp [continuesNumber, isWordChar, isNondigit, isDecimal]),
      begin_newline]
  · exact hpunctuator text
  · rfl
  · exact hpunctuator ['/']

/-- A newline where a line may end leads to the next line. -/
theorem Phase.Fits.newline {phase : Phase} {κ : Control} (h : phase.Fits κ)
    (hends : phase.ends = true) : (CLexer.step κ '\n').1 = fresh := by
  cases phase with
  | code => exact step_loose_newline (.inl h.2.loose)
  | word =>
    rcases h.2 with hcalm | hword | hnumber
    · exact step_loose_newline (.inl hcalm.loose)
    · exact step_loose_newline (.inl (.inr (.inl hword)))
    · exact step_loose_newline (.inl (.inr (.inr (.inl hnumber))))
  | slash => exact step_loose_newline (.inr h.2)
  | comment =>
    obtain ⟨mode, place⟩ := κ
    obtain ⟨-, rfl⟩ := h
    rfl
  | directive => exact step_loose_newline (.inl h)
  | directiveSlash => exact step_loose_newline h
  | string | stringEscape | character | characterEscape => cases hends

/-! ### Code without marks -/

/-- A character that starts no quote, comment, directive or spliced line. -/
def Ordinary (c : Char) : Prop :=
  c ≠ '\n' ∧ c ≠ doubleMark ∧ c ≠ singleMark ∧ c ≠ '/' ∧ c ≠ '#' ∧ c ≠ '%' ∧ c ≠ backslash

instance (c : Char) : Decidable (Ordinary c) := inferInstanceAs (Decidable (_ ∧ _))

theorem Ordinary.next {phase : Phase} {c : Char} (h : Ordinary c)
    (hphase : phase = .code ∨ phase = .word) :
    phase.next c = some .code ∨ phase.next c = some .word := by
  obtain ⟨hnewline, hdouble, hsingle, hslash, hhash, hpercent, hback⟩ := h
  unfold Phase.next
  rw [if_neg hnewline]
  rcases hphase with rfl | rfl
  · dsimp only
    rw [if_neg hdouble, if_neg hsingle, if_neg hslash, if_neg hhash,
      if_neg fun h ↦ h.elim hpercent hback]
    split_ifs
    · exact .inr rfl
    · exact .inl rfl
  · dsimp only
    rw [if_neg hslash, if_neg (by simp [hdouble, hsingle, hhash, hpercent, hback])]
    split_ifs
    · exact .inr rfl
    · exact .inl rfl

theorem behind_ordinary {phase : Phase} {text : List Char} (htext : ∀ c ∈ text, Ordinary c)
    (hphase : phase = .code ∨ phase = .word) :
    phase.behind text = some .code ∨ phase.behind text = some .word := by
  induction text generalizing phase with
  | nil => exact hphase.imp (congrArg some) (congrArg some)
  | cons c text ih =>
    have hrest : ∀ d ∈ text, Ordinary d := fun d hmem ↦ htext d (List.mem_cons_of_mem c hmem)
    rw [Phase.behind]
    rcases (htext c List.mem_cons_self).next hphase with hnext | hnext
    · rw [hnext, Option.bind_some]
      exact ih hrest (.inl rfl)
    · rw [hnext, Option.bind_some]
      exact ih hrest (.inr rfl)

theorem behind_word {text : List Char} (htext : ∀ c ∈ text, Ordinary c ∧ isWordChar c = true) :
    Phase.word.behind text = some .word := by
  induction text with
  | nil => rfl
  | cons c text ih =>
    obtain ⟨⟨hnewline, hdouble, hsingle, hslash, hhash, hpercent, hback⟩, hword⟩ :=
      htext c List.mem_cons_self
    have hnext : Phase.word.next c = some .word := by
      unfold Phase.next
      rw [if_neg hnewline]
      dsimp only
      rw [if_neg hslash, if_neg (by simp [hdouble, hsingle, hhash, hpercent, hback]),
        if_pos (.inl hword)]
    rw [Phase.behind, hnext, Option.bind_some]
    exact ih fun d hmem ↦ htext d (List.mem_cons_of_mem c hmem)

end Cecore.Library.CPhase
