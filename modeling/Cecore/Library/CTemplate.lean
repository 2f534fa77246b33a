import Cecore.Library.CPhase

/-!
# C source text with holes

A generator of C writes lines of fixed code, with texts from outside in string literals and
comments. The tokens of what it writes are the tokens of the code, the same for all texts, with a
string literal in each hole (`run_lines`). That a literal starts in every hole is checked on the
code alone (`IsLine`).
-/

set_option autoImplicit false
set_option relaxedAutoImplicit false

namespace Cecore.Library.CTemplate

open CLexer CPhase

/-! ### Literals -/

/-- What stands between the marks of a string literal. -/
inductive IsBody : List Char → Prop
  | nil : IsBody []
  | plain {c : Char} {rest : List Char} (hmark : c ≠ doubleMark) (hback : c ≠ backslash)
      (hnewline : c ≠ '\n') (hrest : IsBody rest) : IsBody (c :: rest)
  | escape {c : Char} {rest : List Char} (hnewline : c ≠ '\n') (hrest : IsBody rest) :
      IsBody (backslash :: c :: rest)

theorem IsBody.append {first second : List Char} (hfirst : IsBody first) (hsecond : IsBody second) :
    IsBody (first ++ second) := by
  induction hfirst with
  | nil => exact hsecond
  | plain hmark hback hnewline _ ih => exact .plain hmark hback hnewline ih
  | escape hnewline _ ih => exact .escape hnewline ih

theorem IsBody.newline {body : List Char} (h : IsBody body) : '\n' ∉ body := by
  induction h with
  | nil => exact List.not_mem_nil
  | plain _ _ hnewline _ ih => exact List.not_mem_cons_of_ne_of_not_mem hnewline.symm ih
  | escape hnewline _ ih =>
    exact List.not_mem_cons_of_ne_of_not_mem (by decide)
      (List.not_mem_cons_of_ne_of_not_mem hnewline.symm ih)

theorem IsBody.behind {body : List Char} (h : IsBody body) :
    Phase.string.behind body = some .string := by
  induction h with
  | nil => rfl
  | plain hmark hback hnewline _ ih =>
    rw [Phase.behind, Phase.next, if_neg hnewline, if_neg hmark, if_neg hback]
    exact ih
  | escape hnewline _ ih =>
    rw [Phase.behind, show Phase.string.next backslash = some .stringEscape by decide, Option.bind_some,
      Phase.behind, Phase.next, if_neg hnewline]
    exact ih

/-- The body of a literal is read into its token. -/
theorem IsBody.run {body : List Char} (h : IsBody body) (place : Place) (text : List Char) :
    run ⟨.string text, place⟩ body = (⟨.string (text ++ body), place⟩, []) := by
  induction h generalizing text with
  | nil => rw [CLexer.run, List.append_nil]
  | @plain c rest hmark hback hnewline _ ih =>
    have hstep : step ⟨.string text, place⟩ c = (⟨.string (text ++ [c]), place⟩, []) := by
      unfold step Place.quote
      dsimp only
      rw [if_neg hnewline, if_neg hmark, if_neg hback]
    rw [CLexer.run, hstep, ih, List.append_assoc]
    rfl
  | @escape c rest hnewline _ ih =>
    have hstep : step ⟨.stringEscape (text ++ [backslash]), place⟩ c =
        (⟨.string (text ++ [backslash] ++ [c]), place⟩, []) := by
      unfold step Place.escaped
      dsimp only
      rw [if_neg hnewline]
    have hback : step ⟨.string text, place⟩ backslash =
        (⟨.stringEscape (text ++ [backslash]), place⟩, []) := rfl
    rw [CLexer.run, hback, CLexer.run, hstep, ih, List.append_assoc, List.append_assoc]
    rfl

/-- How texts are written in literals and in comments. -/
structure Quoting where
  body : List Char → List Char
  remark : List Char → List Char
  isBody : ∀ text, IsBody (body text)
  newline_remark : ∀ text, '\n' ∉ remark text

def Quoting.quote (q : Quoting) (text : List Char) : List Char :=
  doubleMark :: (q.body text ++ [doubleMark])

/-! ### Lines -/

inductive Piece
  | code (text : List Char)
  | literal (text : List Char)
  | character (c : Char)
  | comment (text : List Char)
  deriving DecidableEq, Repr

def Quoting.text (q : Quoting) : Piece → List Char
  | .code text => text
  | .literal text => q.quote text
  | .character c => [singleMark, c, singleMark]
  | .comment text => q.remark text

def Quoting.line (q : Quoting) (pieces : List Piece) : List Char := pieces.flatMap q.text

def Quoting.source (q : Quoting) (lines : List (List Piece)) : List Char :=
  lines.flatMap fun pieces ↦ q.line pieces ++ ['\n']

/-- The phase behind a piece; quotes start in code, texts of comments in a comment. -/
def Piece.next (phase : Phase) : Piece → Option Phase
  | .code text => phase.behind text
  | .literal _ | .character _ => if phase = .code then some .code else none
  | .comment _ => if phase = .comment then some .comment else none

def behindPieces (phase : Phase) : List Piece → Option Phase
  | [] => some phase
  | piece :: rest => (piece.next phase).bind fun after ↦ behindPieces after rest

/-- A line that ends in code, whatever its texts are. -/
def IsLine (pieces : List Piece) : Bool := (behindPieces .code pieces).any Phase.ends

/-- A character stands for itself between single marks. -/
def Piece.Valid : Piece → Prop
  | .character c => c ≠ singleMark ∧ c ≠ backslash ∧ c ≠ '\n'
  | _ => True

def Piece.IsComment : Piece → Prop
  | .comment _ => True
  | _ => False

def Piece.IsCode : Piece → Prop
  | .code _ => True
  | _ => False

instance : DecidablePred Piece.IsCode
  | .code _ => isTrue trivial
  | .literal _ | .character _ | .comment _ => isFalse id

/-- Lines of nothing but code. -/
def Fixed (lines : List (List Piece)) : Prop :=
  ∀ pieces ∈ lines, IsLine pieces = true ∧ ∀ piece ∈ pieces, piece.IsCode

instance : DecidablePred Fixed := fun lines ↦
  inferInstanceAs (Decidable (∀ pieces ∈ lines, IsLine pieces = true ∧ ∀ piece ∈ pieces, piece.IsCode))

/-- The piece without its text. -/
def Piece.blank : Piece → Piece
  | .literal _ => .literal []
  | .comment _ => .comment []
  | piece => piece

theorem Piece.next_blank (phase : Phase) (piece : Piece) :
    piece.blank.next phase = piece.next phase := by
  cases piece <;> rfl

theorem behindPieces_blank (phase : Phase) (pieces : List Piece) :
    behindPieces phase (pieces.map Piece.blank) = behindPieces phase pieces := by
  induction pieces generalizing phase with
  | nil => rfl
  | cons piece pieces ih =>
    rw [List.map_cons, behindPieces, behindPieces, Piece.next_blank]
    exact Option.bind_congr fun after _ ↦ ih after

theorem isLine_blank (pieces : List Piece) : IsLine (pieces.map Piece.blank) = IsLine pieces := by
  rw [IsLine, IsLine, behindPieces_blank]

theorem behindPieces_append (phase : Phase) (first second : List Piece) :
    behindPieces phase (first ++ second) =
      (behindPieces phase first).bind fun after ↦ behindPieces after second := by
  induction first generalizing phase with
  | nil => rfl
  | cons piece first ih =>
    rw [List.cons_append, behindPieces, behindPieces, Option.bind_assoc]
    exact Option.bind_congr fun after _ ↦ ih after

theorem behindPieces_cons {phase after : Phase} {piece : Piece} (h : piece.next phase = some after)
    (rest : List Piece) : behindPieces phase (piece :: rest) = behindPieces after rest := by
  rw [behindPieces, h, Option.bind_some]

/-- Whether lines are lines shows without their texts. -/
theorem isLine_of_blank {lines : List (List Piece)}
    (h : ((lines.map (List.map Piece.blank)).all IsLine) = true) :
    ∀ pieces ∈ lines, IsLine pieces = true := by
  intro pieces hmem
  rw [← isLine_blank]
  exact List.all_eq_true.mp h _ (List.mem_map_of_mem hmem)

/-- A line of code without marks. -/
theorem isLine_of_ordinary {pieces : List Piece}
    (h : ∀ piece ∈ pieces, ∃ text, piece = .code text ∧ ∀ c ∈ text, Ordinary c) :
    IsLine pieces = true := by
  have hbehind : ∀ phase : Phase, phase = .code ∨ phase = .word →
      behindPieces phase pieces = some .code ∨ behindPieces phase pieces = some .word := by
    induction pieces with
    | nil => exact fun phase hphase ↦ hphase.imp (congrArg some) (congrArg some)
    | cons piece pieces ih =>
      intro phase hphase
      obtain ⟨text, rfl, htext⟩ := h piece List.mem_cons_self
      have hrest := ih fun other hmem ↦ h other (List.mem_cons_of_mem _ hmem)
      rw [behindPieces, Piece.next]
      rcases behind_ordinary htext hphase with hnext | hnext
      · rw [hnext, Option.bind_some]
        exact hrest .code (.inl rfl)
      · rw [hnext, Option.bind_some]
        exact hrest .word (.inr rfl)
  rcases hbehind .code (.inl rfl) with h | h <;> rw [IsLine, h] <;> rfl

theorem behind_quote (q : Quoting) (text : List Char) :
    Phase.code.behind (q.quote text) = some .code := by
  rw [Quoting.quote, Phase.behind, show Phase.code.next doubleMark = some .string by decide,
    Option.bind_some, Phase.behind_append, (q.isBody text).behind]
  rfl

/-! ### Tokens with holes -/

/-- The tokens with the holes taken by others, in order. -/
def fill : List (Option Token) → List Token → List Token
  | [], _ => []
  | some token :: rest, fillings => token :: fill rest fillings
  | none :: rest, [] => fill rest []
  | none :: rest, filling :: fillings => filling :: fill rest fillings

def holes (tokens : List (Option Token)) : ℕ := tokens.countP Option.isNone

theorem holes_append (first second : List (Option Token)) :
    holes (first ++ second) = holes first + holes second := List.countP_append

theorem holes_map_some (tokens : List Token) : holes (tokens.map some) = 0 := by
  rw [holes, List.countP_eq_zero]
  simp

theorem fill_append {first : List (Option Token)} {fillings : List Token}
    (h : holes first = fillings.length) (second : List (Option Token)) (others : List Token) :
    fill (first ++ second) (fillings ++ others) = fill first fillings ++ fill second others := by
  induction first generalizing fillings with
  | nil =>
    obtain rfl := List.length_eq_zero_iff.mp h.symm
    rfl
  | cons token first ih =>
    cases token with
    | some token =>
      rw [List.cons_append, fill, fill, List.cons_append, ih h]
    | none =>
      cases fillings with
      | nil => simp [holes] at h
      | cons filling fillings =>
        have hrest : holes first = fillings.length := by simpa [holes] using h
        rw [List.cons_append, List.cons_append, fill, fill, List.cons_append, ih hrest]

theorem fill_map_some (tokens : List Token) : fill (tokens.map some) [] = tokens := by
  induction tokens with
  | nil => rfl
  | cons token tokens ih => rw [List.map_cons, fill, ih]

theorem length_fill {tokens : List (Option Token)} {fillings : List Token}
    (h : holes tokens = fillings.length) : (fill tokens fillings).length = tokens.length := by
  induction tokens generalizing fillings with
  | nil => rfl
  | cons token tokens ih =>
    cases token with
    | some token => rw [fill, List.length_cons, List.length_cons, ih h]
    | none =>
      cases fillings with
      | nil => simp [holes] at h
      | cons filling fillings =>
        have hrest : holes tokens = fillings.length := by simpa [holes] using h
        rw [fill, List.length_cons, List.length_cons, ih hrest]

/-- The tokens that end in a piece, with a hole for a literal, and the lexer behind it. -/
def Piece.outline (κ : Control) : Piece → Control × List (Option Token)
  | .code text => ((run κ text).1, (run κ text).2.map some)
  | .literal _ => (⟨.between, .elsewhere⟩, (step κ doubleMark).2.map some ++ [none])
  | .character c =>
    ((run κ [singleMark, c, singleMark]).1, (run κ [singleMark, c, singleMark]).2.map some)
  | .comment _ => (κ, [])

def outlineFrom : Control → List Piece → Control × List (Option Token)
  | κ, [] => (κ, [])
  | κ, piece :: rest =>
    ((outlineFrom (piece.outline κ).1 rest).1,
      (piece.outline κ).2 ++ (outlineFrom (piece.outline κ).1 rest).2)

/-- The tokens of a line, with holes. -/
def outline (pieces : List Piece) : List (Option Token) :=
  (outlineFrom fresh pieces).2 ++ (step (outlineFrom fresh pieces).1 '\n').2.map some

theorem Piece.outline_blank (κ : Control) (piece : Piece) :
    piece.blank.outline κ = piece.outline κ := by
  cases piece <;> rfl

theorem outlineFrom_blank (κ : Control) (pieces : List Piece) :
    outlineFrom κ (pieces.map Piece.blank) = outlineFrom κ pieces := by
  induction pieces generalizing κ with
  | nil => rfl
  | cons piece pieces ih => rw [List.map_cons, outlineFrom, outlineFrom, Piece.outline_blank, ih]

theorem outline_blank (pieces : List Piece) : outline (pieces.map Piece.blank) = outline pieces := by
  rw [outline, outline, outlineFrom_blank]

section Quoted

variable (q : Quoting)

/-- The token in the hole of a piece. -/
def Quoting.fillings : Piece → List Token
  | .literal text => [.string (q.quote text)]
  | _ => []

theorem holes_outline_piece (κ : Control) (piece : Piece) :
    holes (piece.outline κ).2 = (q.fillings piece).length := by
  cases piece with
  | literal text =>
    rw [Piece.outline, holes_append, holes_map_some]
    rfl
  | code text => exact holes_map_some _
  | character c => exact holes_map_some _
  | comment text => rfl

theorem holes_outlineFrom (κ : Control) (pieces : List Piece) :
    holes (outlineFrom κ pieces).2 = (pieces.flatMap q.fillings).length := by
  induction pieces generalizing κ with
  | nil => rfl
  | cons piece pieces ih =>
    rw [outlineFrom, holes_append, holes_outline_piece q, ih, List.flatMap_cons, List.length_append]

theorem holes_outline (pieces : List Piece) :
    holes (outline pieces) = (pieces.flatMap q.fillings).length := by
  rw [outline, holes_append, holes_map_some, holes_outlineFrom q]
  rfl

theorem holes_outlines (lines : List (List Piece)) :
    holes (lines.flatMap outline) = (lines.flatMap fun pieces ↦ pieces.flatMap q.fillings).length := by
  induction lines with
  | nil => rfl
  | cons pieces lines ih =>
    rw [List.flatMap_cons, List.flatMap_cons, holes_append, List.length_append, ih, holes_outline q]

/-- A literal is a token of its own. -/
theorem run_literal {κ : Control} (h : Phase.code.Fits κ) (text : List Char) :
    run κ (q.quote text) =
      (⟨.between, .elsewhere⟩, (step κ doubleMark).2 ++ [.string (q.quote text)]) := by
  obtain ⟨place, hplace, hstep⟩ := step_calm_doubleMark h.1 h.2
  have hclose : step ⟨.string (doubleMark :: q.body text), place⟩ doubleMark =
      (⟨.between, .elsewhere⟩, [.string (q.quote text)]) := by
    have hafter : place.after (.string (q.quote text)) = .elsewhere := by
      rw [Place.after, if_neg fun h ↦ h.2.elim Token.noConfusion Token.noConfusion,
        if_neg fun h ↦ Token.noConfusion h.2]
    unfold step Place.quote
    dsimp only
    rw [if_neg (by decide), if_pos rfl, List.cons_append, ← Quoting.quote, hafter]
  rw [Quoting.quote, run, hstep, run_append, (q.isBody text).run, List.singleton_append, run, hclose]
  simp [run, Quoting.quote]

theorem run_comment {κ : Control} (h : Phase.comment.Fits κ) {text : List Char} (hline : '\n' ∉ text) :
    run κ text = (κ, []) := by
  obtain ⟨mode, place⟩ := κ
  obtain ⟨houtside, rfl⟩ := h
  induction text with
  | nil => rfl
  | cons c text ih =>
    obtain ⟨hc, hline⟩ := List.ne_and_not_mem_of_not_mem_cons hline
    have hstep : step ⟨.lineComment, place⟩ c = (⟨.lineComment, place⟩, []) := by
      unfold step
      dsimp only
      rw [if_neg hc.symm]
    rw [run, hstep, ih hline]
    rfl

theorem run_piece {phase after : Phase} {κ : Control} {piece : Piece} (h : phase.Fits κ)
    (hnext : piece.next phase = some after) (hvalid : piece.Valid) :
    run κ (q.text piece) = ((piece.outline κ).1, fill (piece.outline κ).2 (q.fillings piece)) ∧
      after.Fits (piece.outline κ).1 := by
  cases piece with
  | code text => exact ⟨Prod.ext rfl (fill_map_some _).symm, h.run hnext⟩
  | literal text =>
    rw [Piece.next] at hnext
    split_ifs at hnext with hphase
    obtain rfl := Option.some.inj hnext
    subst hphase
    refine ⟨?_, .inr rfl, .inl rfl⟩
    have hfill := @fill_append ((step κ doubleMark).2.map some) [] (holes_map_some _) [none]
      [.string (q.quote text)]
    rw [fill_map_some] at hfill
    exact (run_literal q h text).trans (Prod.ext rfl hfill.symm)
  | character c =>
    rw [Piece.next] at hnext
    split_ifs at hnext with hphase
    obtain rfl := Option.some.inj hnext
    subst hphase
    refine ⟨Prod.ext rfl (fill_map_some _).symm, h.run ?_⟩
    obtain ⟨hmark, hback, hnewline⟩ := hvalid
    have hc : Phase.character.next c = some .character := by
      unfold Phase.next
      rw [if_neg hnewline]
      dsimp only
      rw [if_neg hmark, if_neg hback]
    rw [Phase.behind, show Phase.code.next singleMark = some .character by decide, Option.bind_some,
      Phase.behind, hc]
    rfl
  | comment text =>
    rw [Piece.next] at hnext
    split_ifs at hnext with hphase
    obtain rfl := Option.some.inj hnext
    subst hphase
    exact ⟨run_comment h (q.newline_remark text), h⟩

theorem run_pieces {phase after : Phase} {κ : Control} {pieces : List Piece} (h : phase.Fits κ)
    (hbehind : behindPieces phase pieces = some after) (hvalid : ∀ piece ∈ pieces, piece.Valid) :
    run κ (q.line pieces) = ((outlineFrom κ pieces).1,
        fill (outlineFrom κ pieces).2 (pieces.flatMap q.fillings)) ∧
      after.Fits (outlineFrom κ pieces).1 := by
  induction pieces generalizing phase κ with
  | nil => exact ⟨rfl, Option.some.inj hbehind ▸ h⟩
  | cons piece pieces ih =>
    obtain ⟨next, hnext, hbehind⟩ := Option.bind_eq_some_iff.mp hbehind
    obtain ⟨hpiece, hfits⟩ := run_piece q h hnext (hvalid piece List.mem_cons_self)
    obtain ⟨hrest, hend⟩ := ih hfits hbehind fun other hmem ↦ hvalid other (List.mem_cons_of_mem _ hmem)
    refine ⟨?_, hend⟩
    have hline : q.line (piece :: pieces) = q.text piece ++ q.line pieces := rfl
    rw [hline, run_append, hpiece, hrest, outlineFrom, List.flatMap_cons,
      fill_append (holes_outline_piece q κ piece)]

/-- A line is read from one start of a line to the next. -/
theorem run_line {pieces : List Piece} (hline : IsLine pieces = true)
    (hvalid : ∀ piece ∈ pieces, piece.Valid) :
    run fresh (q.line pieces ++ ['\n']) =
      (fresh, fill (outline pieces) (pieces.flatMap q.fillings)) := by
  obtain ⟨after, hbehind, hends⟩ := (Option.any_eq_true _ _).mp hline
  obtain ⟨hrun, hfits⟩ := run_pieces q fits_fresh hbehind hvalid
  have hfill := fill_append (holes_outlineFrom q fresh pieces)
    ((step (outlineFrom fresh pieces).1 '\n').2.map some) []
  rw [fill_map_some, List.append_nil] at hfill
  rw [run_append, hrun, outline, hfill]
  simp only [run, hfits.newline hends, List.append_nil]

/-- The tokens of a source text are those of its fixed code, with the literals in the holes. -/
theorem run_lines {lines : List (List Piece)} (hlines : ∀ pieces ∈ lines, IsLine pieces = true)
    (hvalid : ∀ pieces ∈ lines, ∀ piece ∈ pieces, piece.Valid) :
    run fresh (q.source lines) =
      (fresh, fill (lines.flatMap outline) (lines.flatMap fun pieces ↦ pieces.flatMap q.fillings)) := by
  induction lines with
  | nil => rfl
  | cons pieces lines ih =>
    have hsource : q.source (pieces :: lines) = q.line pieces ++ ['\n'] ++ q.source lines := rfl
    rw [hsource, run_append, run_line q (hlines pieces List.mem_cons_self)
      (hvalid pieces List.mem_cons_self)]
    dsimp only
    rw [ih (fun other hmem ↦ hlines other (List.mem_cons_of_mem _ hmem))
      fun other hmem ↦ hvalid other (List.mem_cons_of_mem _ hmem), List.flatMap_cons,
      List.flatMap_cons, fill_append (holes_outline q pieces)]

/-! ### Lines are not spliced -/

theorem Phase.behind_newline {phase after : Phase} {text : List Char}
    (h : phase.behind text = some after) : '\n' ∉ text := by
  induction text generalizing phase with
  | nil => exact List.not_mem_nil
  | cons c text ih =>
    obtain ⟨next, hnext, hbehind⟩ := Option.bind_eq_some_iff.mp h
    refine List.not_mem_cons_of_ne_of_not_mem ?_ (ih hbehind)
    rintro rfl
    unfold Phase.next at hnext
    rw [if_pos rfl] at hnext
    cases hnext

theorem newline_piece {phase after : Phase} {piece : Piece} (hnext : piece.next phase = some after)
    (hvalid : piece.Valid) : '\n' ∉ q.text piece := by
  cases piece with
  | code text => exact Phase.behind_newline hnext
  | literal text =>
    have hbody := (q.isBody text).newline
    simp [Quoting.text, Quoting.quote, hbody, doubleMark]
  | character c =>
    have hc := hvalid.2.2.symm
    simp [Quoting.text, hc, singleMark]
  | comment text => exact q.newline_remark text

theorem newline_line {phase after : Phase} {pieces : List Piece}
    (hbehind : behindPieces phase pieces = some after) (hvalid : ∀ piece ∈ pieces, piece.Valid) :
    '\n' ∉ q.line pieces := by
  induction pieces generalizing phase with
  | nil => exact List.not_mem_nil
  | cons piece pieces ih =>
    obtain ⟨next, hnext, hbehind⟩ := Option.bind_eq_some_iff.mp hbehind
    have hpiece := newline_piece q hnext (hvalid piece List.mem_cons_self)
    have hrest := ih hbehind fun other hmem ↦ hvalid other (List.mem_cons_of_mem _ hmem)
    exact fun hmem ↦ (List.mem_append.mp hmem).elim hpiece hrest

/-- Where a line may end there is no backslash. -/
theorem Phase.next_ends {phase after : Phase} {c : Char} (hnext : phase.next c = some after)
    (hends : after.ends = true) : c ≠ backslash := by
  rintro rfl
  have hback : ∀ phase : Phase, (phase.next backslash).any Phase.ends = false := by
    intro phase
    cases phase <;> decide
  have hphase := hback phase
  rw [hnext, Option.any_some, hends] at hphase
  cases hphase

theorem last_piece {phase after : Phase} {piece : Piece} (hnext : piece.next phase = some after)
    (hends : after.ends = true) (hcomment : ¬piece.IsComment) (hne : q.text piece ≠ []) :
    (q.text piece).getLast? ≠ some backslash := by
  cases piece with
  | code text =>
    obtain ⟨front, c, rfl⟩ := (List.eq_nil_or_concat text).resolve_left hne
    rw [Piece.next, List.concat_eq_append, Phase.behind_append] at hnext
    obtain ⟨middle, -, hlast⟩ := Option.bind_eq_some_iff.mp hnext
    obtain ⟨next, hc, hnil⟩ := Option.bind_eq_some_iff.mp hlast
    obtain rfl := Option.some.inj hnil
    rw [Quoting.text, List.concat_eq_append, List.getLast?_concat]
    exact fun heq ↦ Phase.next_ends hc hends (Option.some.inj heq)
  | literal text =>
    rw [Quoting.text, Quoting.quote, ← List.cons_append, List.getLast?_concat]
    decide
  | character c =>
    intro h
    have hmark : singleMark = backslash := Option.some.inj h
    exact absurd hmark (by decide)
  | comment text => exact absurd trivial hcomment

theorem last_line {after : Phase} {pieces : List Piece}
    (hbehind : behindPieces .code pieces = some after) (hends : after.ends = true)
    (hcomment : ∀ piece ∈ pieces, ¬piece.IsComment) : (q.line pieces).getLast? ≠ some backslash := by
  induction pieces using List.reverseRecOn generalizing after with
  | nil => simp [Quoting.line]
  | append_singleton pieces piece ih =>
    rw [behindPieces_append] at hbehind
    obtain ⟨middle, hfront, hlast⟩ := Option.bind_eq_some_iff.mp hbehind
    obtain ⟨next, hnext, hnil⟩ := Option.bind_eq_some_iff.mp hlast
    obtain rfl := Option.some.inj hnil
    have hpiece := hcomment piece (List.mem_append_right _ List.mem_cons_self)
    have hline : q.line (pieces ++ [piece]) = q.line pieces ++ q.text piece := by
      rw [Quoting.line, List.flatMap_append, List.flatMap_singleton, ← Quoting.line]
    rw [hline]
    by_cases hempty : q.text piece = []
    · have hsame : middle = next := by
        cases piece with
        | code text =>
          rw [Quoting.text] at hempty
          rw [Piece.next, hempty] at hnext
          exact Option.some.inj hnext
        | literal text => cases hempty
        | character c => cases hempty
        | comment text => exact absurd trivial hpiece
      rw [hempty, List.append_nil]
      exact ih (hsame ▸ hfront) hends fun other hmem ↦ hcomment other (List.mem_append_left _ hmem)
    · rw [List.getLast?_append_of_ne_nil _ hempty]
      exact last_piece q hnext hends hpiece hempty

/-- Lines without comments from outside stay as they are. -/
theorem splice_source {lines : List (List Piece)} (hlines : ∀ pieces ∈ lines, IsLine pieces = true)
    (hvalid : ∀ pieces ∈ lines, ∀ piece ∈ pieces, piece.Valid)
    (hcomment : ∀ pieces ∈ lines, ∀ piece ∈ pieces, ¬piece.IsComment) (rest : List Char) :
    splice (q.source lines ++ rest) = q.source lines ++ splice rest := by
  induction lines with
  | nil => rfl
  | cons pieces lines ih =>
    obtain ⟨after, hbehind, hends⟩ := (Option.any_eq_true _ _).mp (hlines pieces List.mem_cons_self)
    have hsource : q.source (pieces :: lines) = q.line pieces ++ '\n' :: q.source lines := by
      rw [Quoting.source, List.flatMap_cons, List.append_assoc, List.singleton_append, ← Quoting.source]
    rw [hsource, List.append_assoc, List.cons_append,
      splice_line (newline_line q hbehind (hvalid pieces List.mem_cons_self))
        (last_line q hbehind hends (hcomment pieces List.mem_cons_self)),
      ih (fun other hmem ↦ hlines other (List.mem_cons_of_mem _ hmem))
        (fun other hmem ↦ hvalid other (List.mem_cons_of_mem _ hmem))
        fun other hmem ↦ hcomment other (List.mem_cons_of_mem _ hmem), List.append_assoc,
      List.cons_append]

end Quoted

/-! ### Comments at the start -/

/-- A comment line with a text from outside: where it ends in a backslash, it goes on in the next
line. -/
theorem run_comment_line {front text : List Char} (hfront : '\n' ∉ front) (htext : '\n' ∉ text)
    (rest : List Char) :
    run fresh ('/' :: '/' :: (front ++ splice (text ++ '\n' :: rest))) =
      if text.getLast? = some backslash then
        run fresh ('/' :: '/' :: (front ++ text.dropLast ++ splice rest))
      else run fresh (splice rest) := by
  split_ifs with hlast
  · obtain ⟨init, rfl⟩ := List.getLast?_eq_some_iff.mp hlast
    have hinit : '\n' ∉ init := fun hmem ↦ htext (List.mem_append_left _ hmem)
    rw [List.append_assoc, List.singleton_append, splice_continued hinit, List.dropLast_concat,
      List.append_assoc]
  · have hstart : run fresh ['/', '/'] = (⟨.lineComment, .lineStart⟩, []) := by decide
    have hcomment : ∀ {line : List Char}, '\n' ∉ line →
        run ⟨.lineComment, .lineStart⟩ line = (⟨.lineComment, .lineStart⟩, []) :=
      fun hline ↦ run_comment ⟨.inl rfl, rfl⟩ hline
    have hsplit : '/' :: '/' :: (front ++ splice (text ++ '\n' :: rest)) =
        ['/', '/'] ++ ((front ++ text) ++ '\n' :: splice rest) := by
      rw [splice_line htext hlast, List.append_assoc]
      rfl
    have hline : '\n' ∉ front ++ text := fun hmem ↦ (List.mem_append.mp hmem).elim hfront htext
    rw [hsplit, run_append, hstart, run_append, hcomment hline]
    rfl

theorem splice_slashes (rest : List Char) :
    splice ('/' :: '/' :: rest) = '/' :: '/' :: splice rest := by
  cases rest with
  | nil => rfl
  | cons c rest =>
    rw [splice, if_neg fun h ↦ absurd h.1 (by decide), splice, if_neg fun h ↦ absurd h.1 (by decide)]

end Cecore.Library.CTemplate
