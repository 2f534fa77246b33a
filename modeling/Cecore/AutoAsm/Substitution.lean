import Cecore.AutoAsm.Environment
import Cecore.Library.Rewriting
import Mathlib.Data.List.SplitBy

/-!
# Symbol substitution

`substituteSymbols` of `core/autoasm.cpp` replaces one symbol after the other, in an order of their
kinds and lengths. With names of identifier characters that is the replacement of all of them at once
(`substituteSymbols_simultaneous`). A name with other characters is open to the symbols that are
replaced before it: a definition `player` is replaced in the label `player.loop`.
-/

set_option autoImplicit false
set_option relaxedAutoImplicit false

namespace Cecore.AutoAsm

open Library.Rewriting

/-! ### Pieces -/

/-- Identifier characters next to each other are one piece, and any other character is one. -/
def pieces (text : Text) : List Text := text.splitBy fun c d ↦ isIdentChar c && isIdentChar d

/-- The text does not start in the middle of what ends in `before`. -/
def Starts (before : Option Char) (text : Text) : Prop :=
  before.any isIdentChar = true → text.head?.any isIdentChar = false

/-- The first and the last character are identifier characters. -/
structure Bounded (name : Text) : Prop where
  head : name.head?.any isIdentChar = true
  last : name.getLast?.any isIdentChar = true

theorem flatten_pieces (text : Text) : (pieces text).flatten = text :=
  List.flatten_splitBy _ _

theorem pieces_append {text rest : Text} (h : Starts text.getLast? rest) :
    pieces (text ++ rest) = pieces text ++ pieces rest := by
  refine List.splitBy_append fun c hc d hd ↦ ?_
  cases hident : isIdentChar c with
  | false => rfl
  | true =>
    rw [Starts, Option.mem_def.mp hc, Option.mem_def.mp hd] at h
    exact h hident

/-- A list of pieces as a text has them. -/
def Pieced (ps : List Text) : Prop := pieces ps.flatten = ps

theorem pieced_pieces (text : Text) : Pieced (pieces text) :=
  congrArg pieces (flatten_pieces text)

theorem pieced_iff {ps : List Text} : Pieced ps ↔ [] ∉ ps ∧
    (∀ p ∈ ps, p.IsChain fun c d ↦ isIdentChar c && isIdentChar d) ∧
    ps.IsChain fun p q ↦ ∃ hp hq, (isIdentChar (p.getLast hp) && isIdentChar (q.head hq)) = false := by
  rw [Pieced, pieces, List.splitBy_eq_iff, and_iff_right rfl]

theorem Pieced.of_append {front rest : List Text} (h : Pieced (front ++ rest)) :
    Pieced front ∧ Pieced rest := by
  rw [pieced_iff] at h ⊢
  rw [pieced_iff]
  obtain ⟨hne, hchain, hnext⟩ := h
  rw [List.mem_append, not_or] at hne
  rw [List.forall_mem_append] at hchain
  rw [List.isChain_append] at hnext
  exact ⟨⟨hne.1, hchain.1, hnext.1⟩, hne.2, hchain.2, hnext.2.1⟩

/-- What follows pieces starts on its own. -/
theorem Pieced.starts {front rest : List Text} (h : Pieced (front ++ rest)) :
    Starts front.flatten.getLast? rest.flatten := by
  intro hlast
  obtain ⟨hne, -, hnext⟩ := pieced_iff.mp h
  rw [List.isChain_append] at hnext
  rcases List.eq_nil_or_concat front with rfl | ⟨front, p, rfl⟩
  · exact absurd hlast (by simp)
  cases rest with
  | nil => rfl
  | cons q rest =>
    obtain ⟨hp, hq, hboth⟩ := hnext.2.2 p (by simp) q (by simp)
    have hplast : p.getLast? = some (p.getLast hp) := List.getLast?_eq_some_getLast hp
    have hqhead : q.head? = some (q.head hq) := List.head?_eq_some_head hq
    rw [List.concat_eq_append, List.flatten_append, List.flatten_singleton, List.getLast?_append,
      hplast] at hlast
    rw [List.flatten_cons, List.head?_append, hqhead]
    simpa [show isIdentChar (p.getLast hp) = true by simpa using hlast] using hboth

theorem Pieced.append {front rest : List Text} (hfront : Pieced front) (hrest : Pieced rest)
    (h : Starts front.flatten.getLast? rest.flatten) : Pieced (front ++ rest) := by
  rw [Pieced, List.flatten_append, pieces_append h, hfront, hrest]

/-- A piece of more than one character has identifier characters only. -/
theorem piece_tail {c : Char} {tail : Text}
    (h : (c :: tail).IsChain fun c d ↦ isIdentChar c && isIdentChar d) :
    tail = [] ∨ isIdentChar c = true ∧ ∀ d ∈ tail, isIdentChar d = true := by
  induction tail generalizing c with
  | nil => exact .inl rfl
  | cons d tail ih =>
    rw [List.isChain_cons_cons, Bool.and_eq_true] at h
    refine .inr ⟨h.1.1, List.forall_mem_cons.mpr ⟨h.1.2, fun e he ↦ ?_⟩⟩
    rcases ih h.2 with rfl | ⟨-, htail⟩
    · cases he
    · exact htail e he

theorem pieces_identifier {name : Text} (hne : name ≠ [])
    (h : ∀ c ∈ name, isIdentChar c = true) : pieces name = [name] := by
  refine List.splitBy_of_isChain hne (List.pairwise_of_forall_mem_list fun c hc d hd ↦ ?_).isChain
  rw [h c hc, h d hd]
  rfl

theorem pieces_ne_nil {name : Text} (h : name ≠ []) : pieces name ≠ [] :=
  List.splitBy_ne_nil.mpr h

/-- The first piece starts with the first character. -/
theorem exists_pieces_cons {name : Text} (h : name ≠ []) :
    ∃ p ps, pieces name = p :: ps ∧ p.head? = name.head? := by
  obtain ⟨p, ps, hps⟩ := List.exists_cons_of_ne_nil (pieces_ne_nil h)
  have hne : p ≠ [] := by
    have hnot := List.nil_notMem_splitBy (fun c d ↦ isIdentChar c && isIdentChar d) name
    rintro rfl
    exact hnot (by rw [← pieces, hps]; exact List.mem_cons_self)
  obtain ⟨c, tail, rfl⟩ := List.exists_cons_of_ne_nil hne
  refine ⟨_, ps, hps, ?_⟩
  rw [← flatten_pieces name, hps]
  rfl

/-! ### One symbol -/

/-- A name and its value, in pieces. -/
def pieceRule (e : Rule Char) : Rule Text := ⟨pieces e.word, pieces e.value⟩

theorem Bounded.ne_nil {name : Text} (h : Bounded name) : name ≠ [] := by
  rintro rfl
  exact absurd h.head (by decide)

theorem bounded_identifier {name : Text} (hne : name ≠ [])
    (h : ∀ c ∈ name, isIdentChar c = true) : Bounded name := by
  refine ⟨?_, ?_⟩
  · rw [List.head?_eq_some_head hne]
    exact h _ (List.head_mem hne)
  · rw [List.getLast?_eq_some_getLast hne]
    exact h _ (List.getLast_mem hne)

/-- What follows a name starts with another character. -/
theorem Bounded.starts {name rest : Text} (h : Bounded name)
    (hrest : Starts name.getLast? rest) : rest.head?.any isIdentChar = false :=
  hrest h.last

theorem head_rewrite {e : Rule Char} (he : Bounded e.word) {ps : List Text} (hne : [] ∉ ps)
    (h : ps.flatten.head?.any isIdentChar = false) :
    (rewrite [pieceRule e] ps).flatten.head?.any isIdentChar = false := by
  cases ps with
  | nil => rfl
  | cons p ps =>
    cases p with
    | nil => exact absurd List.mem_cons_self hne
    | cons c tail =>
      have hnone : ruleAt [pieceRule e] ((c :: tail) :: ps) = none := by
        refine ruleAt_eq_none.mpr fun r hr hleads ↦ ?_
        obtain rfl := List.mem_singleton.mp hr
        obtain ⟨q, qs, hqs, hhead⟩ := exists_pieces_cons he.ne_nil
        rw [pieceRule, hqs, List.cons_prefix_cons] at hleads
        have hident := he.head
        rw [← hhead, hleads.1] at hident
        rw [List.flatten_cons, List.cons_append] at h
        exact Bool.false_ne_true (h.symm.trans hident)
      rw [rewrite_of_none hnone]
      exact h

theorem Pieced.nil_notMem {ps : List Text} (h : Pieced ps) : [] ∉ ps :=
  (pieced_iff.mp h).1

/-- The rewritten pieces are the pieces of a text. -/
theorem Pieced.rewrite {e : Rule Char} (he : Bounded e.word) {ps : List Text} (h : Pieced ps) :
    Pieced (rewrite [pieceRule e] ps) := by
  have hword : ∀ r ∈ [pieceRule e], r.word ≠ [] :=
    fun r hr ↦ List.mem_singleton.mp hr ▸ pieces_ne_nil he.ne_nil
  induction ps using scan_induction hword with
  | nil => exact h
  | word r rest hr hrule ih =>
    have hrest := h.of_append.2
    rw [rewrite_of_some (hword r hr) hrule]
    obtain rfl := List.mem_singleton.mp hr
    have hstarts : Starts e.word.getLast? rest.flatten := by
      have hboth := h.starts
      rwa [pieceRule, flatten_pieces] at hboth
    exact (pieced_pieces e.value).append (ih hrest) fun _ ↦
      head_rewrite he hrest.nil_notMem (he.starts hstarts)
  | letter p rest hrule ih =>
    have hsplit : Pieced ([p] ++ rest) := h
    have hrest := hsplit.of_append.2
    rw [rewrite_of_none hrule, ← List.singleton_append]
    exact hsplit.of_append.1.append (ih hrest) fun hlast ↦
      head_rewrite he hrest.nil_notMem (hsplit.starts hlast)

theorem replaceFrom_skip (name value : Text) (before : Option Char) (dropped rest : Text) :
    replaceFrom name value before dropped.length (dropped ++ rest) =
      replaceFrom name value before 0 rest := by
  induction dropped with
  | nil => rfl
  | cons c dropped ih => exact ih

/-- No name is found behind an identifier character. -/
theorem replaceFrom_run (name value : Text) {before : Option Char}
    (hbefore : before.any isIdentChar = true) {run : Text}
    (hrun : ∀ c ∈ run, isIdentChar c = true) (rest : Text) :
    replaceFrom name value before 0 (run ++ rest) =
      run ++ replaceFrom name value (run.getLast?.or before) 0 rest := by
  induction run generalizing before with
  | nil => rfl
  | cons c run ih =>
    rw [List.forall_mem_cons] at hrun
    have hnot : ¬(startsWith (c :: (run ++ rest)) name = true ∧ before.any isIdentChar = false ∧
        ((c :: (run ++ rest))[name.length]?).any isIdentChar = false) := by
      rw [hbefore]
      simp
    have hc : (some c).any isIdentChar = true := hrun.1
    rw [List.cons_append, replaceFrom, if_neg hnot, ih hc hrun.2, List.getLast?_cons]
    cases run.getLast? <;> rfl

/-- Where the name stands between other characters its pieces are pieces of the text. -/
theorem exists_pieces_of_startsWith {name text : Text} (hstarts : startsWith text name = true)
    (hnext : (text[name.length]?).any isIdentChar = false) :
    ∃ rest, text = name ++ rest ∧ pieces text = pieces name ++ pieces rest := by
  obtain ⟨rest, rfl⟩ := List.isPrefixOf_iff_prefix.mp hstarts
  refine ⟨rest, rfl, pieces_append fun _ ↦ ?_⟩
  rw [List.getElem?_append_right (Nat.le_refl _), Nat.sub_self, ← List.head?_eq_getElem?] at hnext
  exact hnext

/-- The scan replaces the name where its pieces stand. -/
theorem replaceFrom_flatten {e : Rule Char} (he : Bounded e.word) {ps : List Text}
    (h : Pieced ps) {before : Option Char} (hbefore : Starts before ps.flatten) :
    replaceFrom e.word e.value before 0 ps.flatten = (rewrite [pieceRule e] ps).flatten := by
  have hword : ∀ r ∈ [pieceRule e], r.word ≠ [] :=
    fun r hr ↦ List.mem_singleton.mp hr ▸ pieces_ne_nil he.ne_nil
  induction ps using scan_induction hword generalizing before with
  | nil => rfl
  | word r rest hr hrule ih =>
    have hrest := h.of_append.2
    have hboth := h.starts
    rw [rewrite_of_some (hword r hr) hrule]
    obtain rfl := List.mem_singleton.mp hr
    have hflat : (pieceRule e).word.flatten = e.word := flatten_pieces e.word
    rw [hflat] at hboth
    rw [List.flatten_append, hflat] at hbefore ⊢
    have hnext := he.starts hboth
    obtain ⟨c, name, hname⟩ := List.exists_cons_of_ne_nil he.ne_nil
    have hfree : before.any isIdentChar = false := by
      by_contra hident
      have hhead := hbefore (Bool.eq_true_of_not_eq_false hident)
      have hc := he.head
      rw [hname] at hc hhead
      exact Bool.false_ne_true (hhead.symm.trans hc)
    have hcond : startsWith (e.word ++ rest.flatten) e.word = true ∧
        before.any isIdentChar = false ∧
        ((e.word ++ rest.flatten)[e.word.length]?).any isIdentChar = false := by
      refine ⟨List.isPrefixOf_iff_prefix.mpr (List.prefix_append _ _), hfree, ?_⟩
      rw [List.getElem?_append_right (Nat.le_refl _), Nat.sub_self, ← List.head?_eq_getElem?]
      exact hnext
    have hlength : e.word.length - 1 = name.length := by rw [hname]; rfl
    rw [show e.word ++ rest.flatten = c :: (name ++ rest.flatten) by rw [hname]; rfl] at hcond ⊢
    rw [replaceFrom, if_pos hcond, hlength, replaceFrom_skip, ih hrest fun _ ↦ hnext,
      List.flatten_append]
    congr 1
    exact (flatten_pieces e.value).symm
  | letter p rest hrule ih =>
    have hsplit : Pieced ([p] ++ rest) := h
    have hrest := hsplit.of_append.2
    have hstarts := hsplit.starts
    cases p with
    | nil => exact absurd List.mem_cons_self h.nil_notMem
    | cons c tail =>
      rw [List.flatten_singleton, List.getLast?_cons] at hstarts
      have hnot : ¬(startsWith (c :: (tail ++ rest.flatten)) e.word = true ∧
          before.any isIdentChar = false ∧
          ((c :: (tail ++ rest.flatten))[e.word.length]?).any isIdentChar = false) := by
        rintro ⟨hname, -, hnext⟩
        obtain ⟨behind, -, hpieces⟩ := exists_pieces_of_startsWith hname hnext
        have hself : pieces (c :: (tail ++ rest.flatten)) = (c :: tail) :: rest := h
        refine ruleAt_eq_none.mp hrule _ List.mem_cons_self ⟨pieces behind, ?_⟩
        rw [← hself, hpieces]
        rfl
      have hchain := (pieced_iff.mp h).2.1 _ List.mem_cons_self
      rw [rewrite_of_none hrule, List.flatten_cons, List.flatten_cons, List.cons_append,
        List.cons_append, replaceFrom, if_neg hnot]
      congr 1
      rcases piece_tail hchain with rfl | ⟨hc, htail⟩
      · exact ih hrest hstarts
      · have hbehind : (some c).any isIdentChar = true := hc
        rw [replaceFrom_run _ _ hbehind htail, ih hrest ?_]
        cases hlast : tail.getLast? <;> simpa [hlast] using hstarts

/-- Nothing is replaced where the pieces of the name stand nowhere. -/
theorem replaceFrom_eq_self {name value front text : Text}
    (h : ¬pieces name <:+: pieces (front ++ text)) :
    replaceFrom name value front.getLast? 0 text = text := by
  induction text generalizing front with
  | nil => rfl
  | cons c rest ih =>
    have hnot : ¬(startsWith (c :: rest) name = true ∧ front.getLast?.any isIdentChar = false ∧
        ((c :: rest)[name.length]?).any isIdentChar = false) := by
      rintro ⟨hname, hfree, hnext⟩
      obtain ⟨behind, -, hpieces⟩ := exists_pieces_of_startsWith hname hnext
      have hfront : pieces (front ++ c :: rest) = pieces front ++ pieces (c :: rest) :=
        pieces_append fun hident ↦ absurd (hfree.symm.trans hident) Bool.false_ne_true
      refine h ⟨pieces front, pieces behind, ?_⟩
      rw [hfront, hpieces, List.append_assoc]
    have hlast : (front ++ [c]).getLast? = some c := by simp
    rw [replaceFrom, if_neg hnot, ← hlast, ih (by rwa [List.append_assoc])]

/-- Replacing whole tokens rewrites the pieces. -/
theorem pieces_replaceWholeToken {B : Text → Prop} {e : Rule Char} (hne : e.word ≠ [])
    (he : (pieceRule e).Possible B → Bounded e.word) {text : Text} (h : ∀ p ∈ pieces text, B p) :
    pieces (replaceWholeToken e.word e.value text) = rewrite [pieceRule e] (pieces text) := by
  rw [replaceWholeToken, if_neg hne]
  by_cases hpossible : (pieceRule e).Possible B
  · have hbounded := he hpossible
    have hstarts : Starts none (pieces text).flatten :=
      fun hident ↦ absurd hident Bool.false_ne_true
    have hreplaced := replaceFrom_flatten hbounded (pieced_pieces text) hstarts
    rw [flatten_pieces] at hreplaced
    rw [hreplaced]
    exact (pieced_pieces text).rewrite hbounded
  · have hstands := not_infix_of_not_possible h hpossible
    rw [rewrite_eq_self fun r hr ↦ List.mem_singleton.mp hr ▸ hstands]
    exact congrArg pieces (@replaceFrom_eq_self _ _ [] _ hstands)

/-! ### Spans -/

/-- A quoted literal, or what stands between literals. -/
inductive Span
  | quoted (text : Text)
  | plain (text : Text)

def Span.text : Span → Text
  | .quoted text => text
  | .plain text => text

def Span.substitute (f : Text → Text) : Span → Text
  | .quoted text => text
  | .plain text => f text

/-- What has been read (reversed) since the last literal. -/
def plainSpan (span : Text) : List Span := if span = [] then [] else [.plain span.reverse]

/-- The spans behind the opened `quote` and what has been read (reversed) of the span. -/
def spansFrom : (quote : Option Char) → (span : Text) → Text → List Span
  | none, span, [] => plainSpan span
  | some _, span, [] => [.quoted span.reverse]
  | none, span, c :: rest =>
    if isQuote c then plainSpan span ++ spansFrom (some c) [c] rest
    else spansFrom none (c :: span) rest
  | some q, span, c :: rest =>
    if c = q then .quoted (c :: span).reverse :: spansFrom none [] rest
    else spansFrom (some q) (c :: span) rest

def spans (line : Text) : List Span := spansFrom none [] line

theorem flatMap_plainSpan (f : Text → Text) (span : Text) :
    (plainSpan span).flatMap (Span.substitute f) = if span = [] then [] else f span.reverse := by
  rw [plainSpan]
  split_ifs
  · rfl
  · exact List.append_nil _

theorem outsideQuotesFrom_eq (f : Text → Text) (quote : Option Char) (span line : Text) :
    outsideQuotesFrom f quote span line =
      (spansFrom quote span line).flatMap (Span.substitute f) := by
  induction line generalizing quote span with
  | nil =>
    cases quote with
    | none => rw [outsideQuotesFrom, spansFrom, flatMap_plainSpan]
    | some q => exact (List.append_nil _).symm
  | cons c rest ih =>
    cases quote with
    | none =>
      rw [outsideQuotesFrom, spansFrom]
      split_ifs
      · rw [List.nil_append, ih, List.flatMap_append, flatMap_plainSpan, if_pos ‹_›,
          List.nil_append]
      · rw [ih, List.flatMap_append, flatMap_plainSpan, if_neg ‹_›]
      · exact ih none (c :: span)
    | some q =>
      rw [outsideQuotesFrom, spansFrom]
      split_ifs
      · rw [ih, List.flatMap_cons, Span.substitute]
      · exact ih (some q) (c :: span)

theorem outsideQuotes_eq (f : Text → Text) (line : Text) :
    outsideQuotes f line = (spans line).flatMap (Span.substitute f) :=
  outsideQuotesFrom_eq f none [] line

/-- The spans of a line make it up. -/
theorem flatMap_text_spans (line : Text) : (spans line).flatMap Span.text = line := by
  have htext : Span.text = Span.substitute fun text ↦ text := by
    funext span
    cases span <;> rfl
  rw [htext, ← outsideQuotes_eq, outsideQuotes, outsideQuotesFrom_id]
  rfl

/-- No quote stands between literals. -/
theorem not_isQuote_of_plain {line text : Text} (h : .plain text ∈ spans line) :
    ∀ c ∈ text, isQuote c = false := by
  suffices hfrom : ∀ (quote : Option Char) (span : Text),
      (quote = none → ∀ c ∈ span, isQuote c = false) →
      .plain text ∈ spansFrom quote span line → ∀ c ∈ text, isQuote c = false from
    hfrom none [] (fun _ c hc ↦ absurd hc List.not_mem_nil) h
  have hplain {span : Text} (hspan : ∀ c ∈ span, isQuote c = false)
      (hmem : .plain text ∈ plainSpan span) : ∀ c ∈ text, isQuote c = false := by
    rw [plainSpan] at hmem
    split_ifs at hmem
    · cases hmem
    · obtain rfl : text = span.reverse := Span.plain.inj (List.mem_singleton.mp hmem)
      exact fun c hc ↦ hspan c (List.mem_reverse.mp hc)
  clear h
  induction line with
  | nil =>
    rintro (- | q) span hspan hmem
    · exact hplain (hspan rfl) hmem
    · cases List.mem_singleton.mp hmem
  | cons c rest ih =>
    rintro (- | q) span hspan hmem
    · rw [spansFrom] at hmem
      split_ifs at hmem with hc
      · rcases List.mem_append.mp hmem with hmem | hmem
        · exact hplain (hspan rfl) hmem
        · exact ih (some c) [c] (fun hnone ↦ nomatch hnone) hmem
      · exact ih none (c :: span) (fun _ ↦ List.forall_mem_cons.mpr
          ⟨Bool.eq_false_of_not_eq_true hc, hspan rfl⟩) hmem
    · rw [spansFrom] at hmem
      split_ifs at hmem
      · rcases List.mem_cons.mp hmem with heq | hmem
        · cases heq
        · exact ih none [] (fun _ c hc ↦ absurd hc List.not_mem_nil) hmem
      · exact ih (some q) (c :: span) (fun hnone ↦ nomatch hnone) hmem

/-- A literal runs from its quote to the next one of its kind, or to the end of the line. -/
def Literal (line text : Text) : Prop :=
  ∃ q body, isQuote q = true ∧ q ∉ body ∧
    (text = q :: body ++ [q] ∨ text = q :: body ∧ text <:+ line)

theorem literal_of_quoted {line text : Text} (h : .quoted text ∈ spans line) :
    Literal line text := by
  suffices hfrom : ∀ (quote : Option Char) (span rest : Text), rest <:+ line →
      span.reverse ++ rest <:+ line →
      (∀ q ∈ quote, isQuote q = true ∧ ∃ body, span.reverse = q :: body ∧ q ∉ body) →
      .quoted text ∈ spansFrom quote span rest → Literal line text from
    hfrom none [] line List.suffix_rfl List.suffix_rfl (fun q hq ↦ nomatch hq) h
  have hplain (span : Text) : Span.quoted text ∉ plainSpan span := by
    rw [plainSpan]
    split_ifs <;> simp
  clear h
  intro quote span rest
  induction rest generalizing quote span with
  | nil =>
    intro _ hsuffix hquote hmem
    cases quote with
    | none => exact absurd hmem (hplain span)
    | some q =>
      obtain ⟨hq, body, hspan, hbody⟩ := hquote q rfl
      obtain rfl : text = span.reverse := Span.quoted.inj (List.mem_singleton.mp hmem)
      rw [List.append_nil] at hsuffix
      exact ⟨q, body, hq, hbody, .inr ⟨hspan, hsuffix⟩⟩
  | cons c rest ih =>
    intro hrest hsuffix hquote hmem
    have hbehind : rest <:+ line := (List.suffix_cons c rest).trans hrest
    have hnext : (c :: span).reverse ++ rest <:+ line := by
      rwa [List.reverse_cons, List.append_assoc, List.singleton_append]
    cases quote with
    | none =>
      rw [spansFrom] at hmem
      split_ifs at hmem with hc
      · have hmem := (List.mem_append.mp hmem).resolve_left (hplain span)
        refine ih (some c) [c] hbehind hrest (fun q hq ↦ ?_) hmem
        obtain rfl := Option.mem_some_iff.mp hq
        exact ⟨hc, [], rfl, List.not_mem_nil⟩
      · exact ih none (c :: span) hbehind hnext (fun q hq ↦ nomatch hq) hmem
    | some q =>
      obtain ⟨hq, body, hspan, hbody⟩ := hquote q rfl
      rw [spansFrom] at hmem
      split_ifs at hmem with hc
      · rcases List.mem_cons.mp hmem with heq | hmem
        · refine ⟨q, body, hq, hbody, .inl ?_⟩
          rw [Span.quoted.inj heq, List.reverse_cons, hspan, hc]
        · exact ih none [] hbehind hbehind (fun q hq ↦ nomatch hq) hmem
      · refine ih (some q) (c :: span) hbehind hnext (fun p hp ↦ ?_) hmem
        obtain rfl := Option.mem_some_iff.mp hp
        refine ⟨hq, body ++ [c], by rw [List.reverse_cons, hspan, List.cons_append], ?_⟩
        rw [List.mem_append, List.mem_singleton, not_or]
        exact ⟨hbody, fun heq ↦ hc heq.symm⟩

/-! ### All symbols -/

def Define.replacement (d : Define) : Rule Char := ⟨d.name, d.value⟩

def Alloc.replacement (a : Alloc) : Rule Char := ⟨a.name, formatHexLiteral a.address⟩

def Label.replacement (l : Label) : Rule Char := ⟨l.name, formatHexLiteral l.address⟩

/-- What is replaced and by what: not an empty name, and not what is still at address zero. -/
def replacements (defines : List Define) (allocs : List Alloc) (labels : List Label) :
    List (Rule Char) :=
  (defines.map Define.replacement ++
    (allocs.filter fun a ↦ a.address ≠ 0).map Alloc.replacement ++
    (labels.filter fun l ↦ l.address ≠ 0).map Label.replacement).filter fun e ↦ e.word ≠ []

/-- The symbols of the map, in its order. -/
def Symbols.entries (symbols : Symbols) : List (Rule Char) :=
  replacements symbols.defines symbols.allocs symbols.labels

/-- The symbols in the order in which they are replaced. -/
def Symbols.passes (symbols : Symbols) : List (Rule Char) :=
  replacements (longestFirst Define.name symbols.defines) (longestFirst Alloc.name symbols.allocs)
    (longestFirst Label.name symbols.labels)

theorem passes_perm (symbols : Symbols) : symbols.passes.Perm symbols.entries := by
  refine List.Perm.filter _ (List.Perm.append (List.Perm.append ?_ ?_) ?_)
  · exact (longestFirst_perm _ _).map _
  · exact ((longestFirst_perm _ _).filter _).map _
  · exact ((longestFirst_perm _ _).filter _).map _

theorem entries_ne_nil {defines : List Define} {allocs : List Alloc} {labels : List Label}
    (e : Rule Char) (he : e ∈ replacements defines allocs labels) : e.word ≠ [] := by
  simpa using (List.mem_filter.mp he).2

theorem substituteSpan_eq (symbols : Symbols) (span : Text) :
    symbols.substituteSpan span =
      symbols.passes.foldl (fun text e ↦ replaceWholeToken e.word e.value text) span := by
  have hempty (text : Text) (e : Rule Char) :
      (if e.word = [] then text else replaceWholeToken e.word e.value text) =
        replaceWholeToken e.word e.value text := by
    by_cases he : e.word = [] <;> simp [he, replaceWholeToken]
  simp only [Symbols.substituteSpan, Symbols.passes, replacements, List.foldl_filter,
    List.foldl_append, List.foldl_map, decide_not, Bool.not_eq_true', decide_eq_false_iff_not,
    ite_not, hempty]
  rfl

/-- Every name is replaced where it stands as a whole token, the longest where several start. -/
def simultaneously (entries : List (Rule Char)) (text : Text) : Text :=
  (rewrite ((longestFirst Rule.word entries).map pieceRule) (pieces text)).flatten

/-- The values in the end, when each symbol is also replaced in the values before it. -/
def settled (passes : List (Rule Char)) : List (Rule Char) :=
  passes.foldl
    (fun done e ↦ done.map (Rule.mapValue (replaceWholeToken e.word e.value)) ++ [e]) []

section

variable {B : Text → Prop} {entries : List (Rule Char)}

theorem pieces_foldl (hne : ∀ e ∈ entries, e.word ≠ [])
    (hbounded : ∀ e ∈ entries, (pieceRule e).Possible B → Bounded e.word)
    (hvalues : ∀ e ∈ entries, ∀ p ∈ pieces e.value, B p) {text : Text}
    (h : ∀ p ∈ pieces text, B p) :
    pieces (entries.foldl (fun text e ↦ replaceWholeToken e.word e.value text) text) =
      (entries.map pieceRule).foldl (fun ps r ↦ rewrite [r] ps) (pieces text) := by
  induction entries generalizing text with
  | nil => rfl
  | cons e entries ih =>
    rw [List.forall_mem_cons] at hne hbounded hvalues
    have hstep := pieces_replaceWholeToken hne.1 hbounded.1 h
    rw [List.map_cons, List.foldl_cons, List.foldl_cons, ← hstep]
    refine ih hne.2 hbounded.2 hvalues.2 fun p hp ↦ ?_
    rw [hstep] at hp
    have hword : ∀ r ∈ [pieceRule e], r.word ≠ [] :=
      fun r hr ↦ List.mem_singleton.mp hr ▸ pieces_ne_nil hne.1
    rcases mem_rewrite hword hp with hp | ⟨r, hr, hp⟩
    · exact h p hp
    · obtain rfl := List.mem_singleton.mp hr
      exact hvalues.1 p hp

theorem map_pieceRule_settled (hne : ∀ e ∈ entries, e.word ≠ [])
    (hbounded : ∀ e ∈ entries, (pieceRule e).Possible B → Bounded e.word)
    (hvalues : ∀ e ∈ entries, ∀ p ∈ pieces e.value, B p) :
    (settled entries).map pieceRule = settle (entries.map pieceRule) := by
  suffices hfold : ∀ done : List (Rule Char), (∀ e ∈ done, ∀ p ∈ pieces e.value, B p) →
      (entries.foldl (fun done e ↦
        done.map (Rule.mapValue (replaceWholeToken e.word e.value)) ++ [e]) done).map pieceRule =
      (entries.map pieceRule).foldl settleStep (done.map pieceRule) from
    hfold [] fun e he ↦ absurd he List.not_mem_nil
  induction entries with
  | nil => exact fun _ _ ↦ rfl
  | cons e entries ih =>
    intro done hdone
    rw [List.forall_mem_cons] at hne hbounded hvalues
    have hvalue (t : Rule Char) (ht : t ∈ done) :=
      pieces_replaceWholeToken hne.1 hbounded.1 (hdone t ht)
    have hstep : (done.map (Rule.mapValue (replaceWholeToken e.word e.value)) ++ [e]).map
        pieceRule = settleStep (done.map pieceRule) (pieceRule e) := by
      rw [settleStep, List.map_append, List.map_map, List.map_map]
      congr 1
      refine List.map_congr_left fun t ht ↦ ?_
      simp only [Function.comp_apply, Rule.mapValue, pieceRule, hvalue t ht]
    rw [List.foldl_cons, List.map_cons, List.foldl_cons, ← hstep]
    refine ih hne.2 hbounded.2 hvalues.2 _ fun t ht p hp ↦ ?_
    rcases List.mem_append.mp ht with ht | ht
    · obtain ⟨t, hmem, rfl⟩ := List.mem_map.mp ht
      have hp : p ∈ pieces (replaceWholeToken e.word e.value t.value) := hp
      rw [hvalue t hmem] at hp
      have hword : ∀ r ∈ [pieceRule e], r.word ≠ [] :=
        fun r hr ↦ List.mem_singleton.mp hr ▸ pieces_ne_nil hne.1
      rcases mem_rewrite hword hp with hp | ⟨r, hr, hp⟩
      · exact hdone t hmem p hp
      · obtain rfl := List.mem_singleton.mp hr
        exact hvalues.1 p hp
    · exact hvalues.1 p (List.mem_singleton.mp ht ▸ hp)

/-- The symbols one after the other, as pieces, are the settled symbols at once. -/
theorem simultaneously_eq {order : List (Rule Char)} (hperm : order.Perm entries)
    (hne : ∀ e ∈ entries, e.word ≠ [])
    (h : (entries.map Rule.word).Pairwise fun name name' ↦ (∀ p ∈ pieces name, B p) →
      (∀ p ∈ pieces name', B p) → ¬pieces name <+: pieces name') {text : Text}
    (htext : ∀ p ∈ pieces text, B p) :
    simultaneously order text = (rewrite (entries.map pieceRule) (pieces text)).flatten := by
  have hsorted := (longestFirst_perm Rule.word order).trans hperm
  rw [List.pairwise_map] at h
  have hdistinct : (longestFirst Rule.word order).Pairwise fun e e' ↦ (pieceRule e).Possible B →
      (pieceRule e').Possible B → e.word ≠ e'.word := by
    refine hsorted.symm.pairwise (h.imp fun hleads hp hp' heq ↦ ?_)
      fun hdiffer hp hp' heq ↦ hdiffer hp' hp heq.symm
    exact hleads hp hp' (heq ▸ List.prefix_rfl)
  rw [simultaneously]
  congr 1
  refine rewrite_perm (B := B) ?_ (List.pairwise_map.mpr h) (List.pairwise_map.mpr ?_)
    (hsorted.map pieceRule) htext
  · rintro r hr
    obtain ⟨e, he, rfl⟩ := List.mem_map.mp hr
    exact pieces_ne_nil (hne e he)
  · refine (longestFirst_pairwise Rule.word order).imp₂ (fun e e' hlength hdiffer hp hp' hleads ↦
      hdiffer hp hp' ?_) hdistinct
    obtain ⟨rest, hrest⟩ := hleads
    have hword : e.word ++ rest.flatten = e'.word := by
      rw [← flatten_pieces e'.word, ← show _ = pieces e'.word from hrest, List.flatten_append]
      exact congrArg (· ++ rest.flatten) (flatten_pieces e.word).symm
    exact List.IsPrefix.eq_of_length_le ⟨_, hword⟩ hlength

end

/-! ### What is replaced -/

namespace Symbols

/-- The piece stands between literals of the line or in a value. -/
def Occurs (symbols : Symbols) (line piece : Text) : Prop :=
  (∃ text, .plain text ∈ spans line ∧ piece ∈ pieces text) ∨
    ∃ e ∈ symbols.entries, piece ∈ pieces e.value

/-- The names that can stand in the line are bounded by identifier characters, and no symbol gets in
the way of one that is replaced after it. -/
structure Separate (symbols : Symbols) (line : Text) : Prop where
  bounded : ∀ e ∈ symbols.entries, (pieceRule e).Possible (symbols.Occurs line) → Bounded e.word
  before : symbols.passes.Pairwise fun e e' ↦
    Before (symbols.Occurs line) (symbols.entries.map fun e ↦ pieces e.word) (pieceRule e)
      (pieceRule e')

theorem passes_ne_nil (symbols : Symbols) (e : Rule Char) (he : e ∈ symbols.passes) :
    e.word ≠ [] :=
  entries_ne_nil e he

theorem occurs_value (symbols : Symbols) (line : Text) (e : Rule Char) (he : e ∈ symbols.passes)
    (p : Text) (hp : p ∈ pieces e.value) : symbols.Occurs line p :=
  .inr ⟨e, (passes_perm symbols).mem_iff.mp he, hp⟩

theorem Separate.bounded_passes {symbols : Symbols} {line : Text} (h : symbols.Separate line)
    (e : Rule Char) (he : e ∈ symbols.passes) :
    (pieceRule e).Possible (symbols.Occurs line) → Bounded e.word :=
  h.bounded e ((passes_perm symbols).mem_iff.mp he)

theorem Separate.ready {symbols : Symbols} {line : Text} (h : symbols.Separate line) :
    Ready (symbols.Occurs line) (symbols.entries.map fun e ↦ pieces e.word) []
      (symbols.passes.map pieceRule) := by
  refine ⟨fun r hr ↦ ?_, fun r hr ↦ ?_, fun r hr ↦ ?_, fun t ht ↦ absurd ht List.not_mem_nil,
    List.pairwise_map.mpr h.before⟩
  · obtain ⟨e, he, rfl⟩ := List.mem_map.mp hr
    exact pieces_ne_nil (passes_ne_nil symbols e he)
  · obtain ⟨e, he, rfl⟩ := List.mem_map.mp hr
    exact occurs_value symbols line e he
  · obtain ⟨e, he, rfl⟩ := List.mem_map.mp hr
    exact List.mem_map.mpr ⟨e, (passes_perm symbols).mem_iff.mp he, rfl⟩

/-- A name is not the start of one that is replaced later. -/
theorem Separate.not_prefix {symbols : Symbols} {line : Text} (h : symbols.Separate line) :
    (symbols.passes.map Rule.word).Pairwise fun name name' ↦
      (∀ p ∈ pieces name, symbols.Occurs line p) → (∀ p ∈ pieces name', symbols.Occurs line p) →
        ¬pieces name <+: pieces name' :=
  List.pairwise_map.mpr (h.before.imp fun hbefore hp hp' hleads ↦
    (hbefore hp hp').1.inside hleads.isInfix)

theorem map_word_settled (passes : List (Rule Char)) :
    (settled passes).map Rule.word = passes.map Rule.word := by
  suffices hfold : ∀ done : List (Rule Char), (passes.foldl (fun done e ↦
      done.map (Rule.mapValue (replaceWholeToken e.word e.value)) ++ [e]) done).map Rule.word =
      (done ++ passes).map Rule.word from hfold []
  induction passes with
  | nil => simp
  | cons e passes ih =>
    intro done
    rw [List.foldl_cons, ih]
    simp [Function.comp_def]

/-- In a span the symbols are replaced at once, by their settled values. -/
theorem substituteSpan_settled {symbols : Symbols} {line text : Text} (h : symbols.Separate line)
    (htext : .plain text ∈ spans line) :
    symbols.substituteSpan text = simultaneously (settled symbols.passes) text := by
  have hne := passes_ne_nil symbols
  have hbounded := h.bounded_passes
  have hvalues := occurs_value symbols line
  have hpieces (p : Text) (hp : p ∈ pieces text) : symbols.Occurs line p := .inl ⟨text, htext, hp⟩
  have hwords := map_word_settled symbols.passes
  have hsettled (e : Rule Char) (he : e ∈ settled symbols.passes) : e.word ≠ [] := by
    have hmem : e.word ∈ (settled symbols.passes).map Rule.word := List.mem_map_of_mem he
    rw [hwords] at hmem
    obtain ⟨e', he', hword⟩ := List.mem_map.mp hmem
    exact hword ▸ hne e' he'
  calc symbols.substituteSpan text
      = (pieces (symbols.passes.foldl (fun text e ↦ replaceWholeToken e.word e.value text)
          text)).flatten := by rw [flatten_pieces, substituteSpan_eq]
    _ = (rewrite (settle (symbols.passes.map pieceRule)) (pieces text)).flatten := by
        rw [pieces_foldl hne hbounded hvalues hpieces, foldl_rewrite h.ready hpieces]
    _ = simultaneously (settled symbols.passes) text := by
        rw [← map_pieceRule_settled hne hbounded hvalues,
          simultaneously_eq List.Perm.rfl hsettled (hwords ▸ h.not_prefix) hpieces]

/-- Values without names are settled, and the order of the map does not matter. -/
theorem simultaneously_settled {symbols : Symbols} {line text : Text} (h : symbols.Separate line)
    (htext : .plain text ∈ spans line)
    (hvalues : ∀ e ∈ symbols.entries, ∀ e' ∈ symbols.entries,
      ¬pieces e'.word <:+: pieces e.value)
    {order : List (Rule Char)} (horder : order.Perm symbols.entries) :
    simultaneously (settled symbols.passes) text = simultaneously order text := by
  have hne := passes_ne_nil symbols
  have hpieces (p : Text) (hp : p ∈ pieces text) : symbols.Occurs line p := .inl ⟨text, htext, hp⟩
  have hperm := passes_perm symbols
  have hself : settle (symbols.passes.map pieceRule) = symbols.passes.map pieceRule := by
    refine settle_eq_self fun t ht r hr ↦ ?_
    obtain ⟨e, he, rfl⟩ := List.mem_map.mp ht
    obtain ⟨e', he', rfl⟩ := List.mem_map.mp hr
    exact hvalues e (hperm.mem_iff.mp he) e' (hperm.mem_iff.mp he')
  rw [simultaneously_eq (horder.trans hperm.symm) hne h.not_prefix hpieces,
    ← substituteSpan_settled h htext, substituteSpan_eq, ← hself,
    ← foldl_rewrite h.ready hpieces,
    ← pieces_foldl hne h.bounded_passes (occurs_value symbols line) hpieces, flatten_pieces]

/-- Where no symbol gets in the way of another, the names that stand as whole tokens between the
literals of the line are replaced, and nothing else. -/
theorem substituteSymbols_simultaneous (symbols : Symbols) (line : Text)
    (h : symbols.Separate line) :
    (spans line).flatMap Span.text = line ∧
    (∀ text, .plain text ∈ spans line → ∀ c ∈ text, isQuote c = false) ∧
    (∀ text, .quoted text ∈ spans line → Literal line text) ∧
    symbols.substituteSymbols line =
      (spans line).flatMap (Span.substitute (simultaneously (settled symbols.passes))) ∧
    ((∀ e ∈ symbols.entries, ∀ e' ∈ symbols.entries, ¬pieces e'.word <:+: pieces e.value) →
      ∀ order, order.Perm symbols.entries → symbols.substituteSymbols line =
        (spans line).flatMap (Span.substitute (simultaneously order))) := by
  have hsettled : symbols.substituteSymbols line =
      (spans line).flatMap (Span.substitute (simultaneously (settled symbols.passes))) := by
    rw [substituteSymbols, outsideQuotes_eq]
    refine List.flatMap_congr fun span hspan ↦ ?_
    cases span with
    | quoted text => rfl
    | plain text => exact substituteSpan_settled h hspan
  refine ⟨flatMap_text_spans line, fun _ ↦ not_isQuote_of_plain, fun _ ↦ literal_of_quoted, hsettled,
    fun hvalues order horder ↦ hsettled.trans (List.flatMap_congr fun span hspan ↦ ?_)⟩
  cases span with
  | quoted text => rfl
  | plain text => exact simultaneously_settled h hspan hvalues horder

/-- Identifiers never get in each other's way. -/
theorem separate_of_identifiers {symbols : Symbols}
    (h : ∀ e ∈ symbols.entries, ∀ c ∈ e.word, isIdentChar c = true)
    (hdistinct : (symbols.entries.map Rule.word).Nodup) (line : Text) : symbols.Separate line := by
  have hperm := passes_perm symbols
  have hpieces (e : Rule Char) (he : e ∈ symbols.passes) : pieces e.word = [e.word] :=
    pieces_identifier (passes_ne_nil symbols e he) (h e (hperm.mem_iff.mp he))
  have hnodup : (symbols.passes.map Rule.word).Nodup :=
    (hperm.map Rule.word).nodup_iff.mpr hdistinct
  refine ⟨fun e he _ ↦ bounded_identifier (entries_ne_nil e he) (h e he), ?_⟩
  refine (List.pairwise_map.mp hnodup).imp_of_mem fun {e e'} he he' hdiffer _ _ ↦ ?_
  have hword : (pieceRule e).word = [e.word] := hpieces e he
  have hword' : (pieceRule e').word = [e'.word] := hpieces e' he'
  refine ⟨⟨?_, fun part hne hpart hwhole ↦ ?_⟩, .inl (by rw [hword']; rfl)⟩
  · rw [hword, hword']
    exact fun hstands ↦ hdiffer (List.mem_singleton.mp (hstands.subset List.mem_cons_self))
  · rw [hword'] at hpart hwhole
    rcases List.suffix_cons_iff.mp hpart with heq | hnil
    · exact absurd heq hwhole
    · exact absurd (List.suffix_nil.mp hnil) hne

theorem substituteSymbols_simultaneous_identifiers :
    (Symbols.mk [⟨"block".toList, 64, 0, 0x1000, []⟩] [⟨"back".toList, 0x2000⟩]
      [⟨"ax".toList, "ecx".toList⟩] fun _ ↦ none).substituteSymbols
        "mov rax,ax // \"back\" back".toList =
      (spans "mov rax,ax // \"back\" back".toList).flatMap
        (Span.substitute (simultaneously [⟨"back".toList, "0x2000".toList⟩,
          ⟨"ax".toList, "ecx".toList⟩, ⟨"block".toList, "0x1000".toList⟩])) := by
  refine (substituteSymbols_simultaneous _ _ (separate_of_identifiers ?_ ?_ _)).2.2.2.2 ?_ _ ?_
  · decide
  · decide
  · decide
  · decide

/-- A definition `player` is replaced in the label `player.loop`, though no value has a name in it. -/
theorem substituteSymbols_inside_name :
    ¬∀ (symbols : Symbols) (line : Text),
      (∀ e ∈ symbols.entries, ∀ e' ∈ symbols.entries, ¬pieces e'.word <:+: pieces e.value) →
      ∀ order, order.Perm symbols.entries → symbols.substituteSymbols line =
        (spans line).flatMap (Span.substitute (simultaneously order)) := by
  intro h
  let symbols : Symbols := ⟨[], [⟨"player.loop".toList, 0x2000⟩],
    [⟨"player".toList, "1000".toList⟩], fun _ ↦ none⟩
  have hvalues : ∀ e ∈ symbols.entries, ∀ e' ∈ symbols.entries,
      ¬pieces e'.word <:+: pieces e.value := by
    decide
  have hcode : symbols.substituteSymbols "jmp player.loop".toList = "jmp 1000.loop".toList := by
    decide
  have hspec : (spans "jmp player.loop".toList).flatMap
      (Span.substitute (simultaneously symbols.entries)) = "jmp 0x2000".toList := by
    decide
  have heq := h symbols "jmp player.loop".toList hvalues symbols.entries List.Perm.rfl
  rw [hcode, hspec] at heq
  exact absurd heq (by decide)

end Symbols

end Cecore.AutoAsm
