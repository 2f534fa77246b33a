import Mathlib.Data.List.Basic

/-!
# Rewriting a list by rules

`rewrite rules` reads a list once and puts a rule's value where its word stands. When no word that can
stand in the list overlaps another one or a value, one rule after the other does the same as all at
once (`foldl_rewrite`): a later rule may still rewrite the values of the earlier ones, which is what
`settle` does to them.
-/

set_option autoImplicit false
set_option relaxedAutoImplicit false

namespace Cecore.Library.Rewriting

/-- A word and what replaces it. -/
structure Rule (β : Type) where
  word : List β
  value : List β
  deriving DecidableEq

variable {β : Type}

def Rule.mapValue (f : List β → List β) (r : Rule β) : Rule β := ⟨r.word, f r.value⟩

@[simp] theorem Rule.mapValue_word (f : List β → List β) (r : Rule β) :
    (r.mapValue f).word = r.word := rfl

/-! ### Rules that do not interfere -/

/-- The word has no letter that cannot occur. -/
def Rule.Possible (B : β → Prop) (r : Rule β) : Prop := ∀ b ∈ r.word, B b

/-- Where the word of `r` stands, that of `t` neither stands in it nor overlaps its end. -/
structure Clear (t r : Rule β) : Prop where
  inside : ¬t.word <:+: r.word
  overlap : ∀ part, part ≠ [] → part <:+ r.word → part ≠ r.word → ¬part <+: t.word

/-- The value of `t` overlaps no occurrence of the word of `r`. -/
structure Uncrossed (t r : Rule β) : Prop where
  front : ∀ part, part ≠ [] → part <:+ r.word → part ≠ r.word → ¬part <+: t.value
  back : ∀ part, part ≠ [] → part <+: r.word → part ≠ r.word → ¬part <:+ t.value
  within : ¬t.value <:+: r.word

/-- A word of one letter cannot be overlapped; next to any other no value has one of the `words`. -/
def Keeps (words : List (List β)) (t r : Rule β) : Prop :=
  r.word.length = 1 ∨ Uncrossed t r ∧ ∀ word ∈ words, ¬word <:+: t.value

/-- `t` can be applied before `r`. -/
def Before (B : β → Prop) (words : List (List β)) (t r : Rule β) : Prop :=
  t.Possible B → r.Possible B → Clear t r ∧ Keeps words t r

/-- The rules of `done` have been applied, and those of `rules` can be. -/
structure Ready (B : β → Prop) (words : List (List β)) (done rules : List (Rule β)) : Prop where
  nonempty : ∀ r ∈ done ++ rules, r.word ≠ []
  bounded : ∀ r ∈ done ++ rules, ∀ b ∈ r.value, B b
  known : ∀ r ∈ rules, r.word ∈ words
  before : ∀ t ∈ done, ∀ r ∈ rules, Before B words t r
  pairwise : rules.Pairwise (Before B words)

variable {B : β → Prop} {words : List (List β)}

theorem Rule.possible_of_prefix {r : Rule β} {l : List β} (hl : ∀ b ∈ l, B b) (h : r.word <+: l) :
    r.Possible B :=
  fun b hb ↦ hl b (h.subset hb)

theorem not_infix_of_not_possible {r : Rule β} {l : List β} (hl : ∀ b ∈ l, B b)
    (h : ¬r.Possible B) : ¬r.word <:+: l :=
  fun hstands ↦ h fun b hb ↦ hl b (hstands.subset hb)

theorem Ready.nonempty_done {done rules : List (Rule β)} (h : Ready B words done rules)
    (t : Rule β) (ht : t ∈ done) : t.word ≠ [] :=
  h.nonempty t (List.mem_append_left _ ht)

theorem Ready.forall_nonempty {done rules : List (Rule β)} {s : Rule β}
    (h : Ready B words done (s :: rules)) : ∀ r ∈ done ++ [s], r.word ≠ [] :=
  fun r hr ↦ h.nonempty r (by
    rw [List.append_cons]
    exact List.mem_append_left _ hr)

/-! ### The scan -/

variable [DecidableEq β]

/-- The rule whose word the list starts with. -/
def ruleAt (rules : List (Rule β)) (l : List β) : Option (Rule β) :=
  rules.find? fun r ↦ r.word.isPrefixOf l

/-- `skip` letters of a replaced word are still to be dropped. -/
def rewriteFrom (rules : List (Rule β)) : (skip : ℕ) → List β → List β
  | _, [] => []
  | skip + 1, _ :: rest => rewriteFrom rules skip rest
  | 0, b :: rest =>
    match ruleAt rules (b :: rest) with
    | some r => r.value ++ rewriteFrom rules (r.word.length - 1) rest
    | none => b :: rewriteFrom rules 0 rest

def rewrite (rules : List (Rule β)) (l : List β) : List β := rewriteFrom rules 0 l

theorem ruleAt_eq_some {rules : List (Rule β)} {l : List β} {r : Rule β}
    (h : ruleAt rules l = some r) : r ∈ rules ∧ r.word <+: l :=
  ⟨List.mem_of_find?_eq_some h,
    List.isPrefixOf_iff_prefix.mp (List.find?_some (p := fun r : Rule β ↦ r.word.isPrefixOf l) h)⟩

theorem ruleAt_eq_none {rules : List (Rule β)} {l : List β} :
    ruleAt rules l = none ↔ ∀ r ∈ rules, ¬r.word <+: l := by
  simp [ruleAt, List.find?_eq_none]

@[simp] theorem rewrite_nil (rules : List (Rule β)) : rewrite rules [] = [] := rfl

theorem rewriteFrom_append (rules : List (Rule β)) (word rest : List β) :
    rewriteFrom rules word.length (word ++ rest) = rewrite rules rest := by
  induction word with
  | nil => rfl
  | cons b word ih => exact ih

theorem rewrite_of_some {rules : List (Rule β)} {r : Rule β} {rest : List β} (hne : r.word ≠ [])
    (h : ruleAt rules (r.word ++ rest) = some r) :
    rewrite rules (r.word ++ rest) = r.value ++ rewrite rules rest := by
  obtain ⟨b, word, hword⟩ := List.exists_cons_of_ne_nil hne
  have happ : r.word ++ rest = b :: (word ++ rest) := by rw [hword, List.cons_append]
  rw [rewrite, happ, rewriteFrom]
  rw [happ] at h
  rw [h]
  have hlength : r.word.length - 1 = word.length := by rw [hword]; rfl
  simp only [hlength, rewriteFrom_append]

theorem rewrite_of_none {rules : List (Rule β)} {b : β} {rest : List β}
    (h : ruleAt rules (b :: rest) = none) :
    rewrite rules (b :: rest) = b :: rewrite rules rest := by
  rw [rewrite, rewriteFrom, h]
  rfl

/-- A list is read word by word where a rule applies and letter by letter elsewhere. -/
theorem scan_induction {rules : List (Rule β)} (hne : ∀ r ∈ rules, r.word ≠ [])
    {P : List β → Prop} (nil : P [])
    (word : ∀ (r : Rule β) (rest : List β), r ∈ rules → ruleAt rules (r.word ++ rest) = some r →
      P rest → P (r.word ++ rest))
    (letter : ∀ (b : β) (rest : List β), ruleAt rules (b :: rest) = none → P rest → P (b :: rest))
    (l : List β) : P l := by
  induction hn : l.length using Nat.strongRecOn generalizing l with
  | ind n ih =>
    cases l with
    | nil => exact nil
    | cons b rest =>
      cases hrule : ruleAt rules (b :: rest) with
      | none => exact letter b rest hrule (ih rest.length (by simp [← hn]) rest rfl)
      | some r =>
        obtain ⟨hr, rest', hrest'⟩ := ruleAt_eq_some hrule
        rw [← hrest'] at hrule hn ⊢
        have hpos := List.length_pos_of_ne_nil (hne r hr)
        rw [List.length_append] at hn
        exact word r rest' hr hrule (ih rest'.length (by omega) rest' rfl)

/-- A list stays when no word stands anywhere in it. -/
theorem rewrite_eq_self {rules : List (Rule β)} {l : List β}
    (h : ∀ r ∈ rules, ¬r.word <:+: l) : rewrite rules l = l := by
  induction l with
  | nil => rfl
  | cons b rest ih =>
    rw [rewrite_of_none (ruleAt_eq_none.mpr fun r hr hleads ↦ h r hr hleads.isInfix),
      ih fun r hr hstands ↦ h r hr (hstands.trans (List.suffix_cons b rest).isInfix)]

/-- Only the rule that applies at each place matters. -/
theorem rewrite_congr {rules rules' : List (Rule β)} (hne : ∀ r ∈ rules, r.word ≠ []) {l : List β}
    (h : ∀ rest, rest <:+ l → ruleAt rules' rest = ruleAt rules rest) :
    rewrite rules' l = rewrite rules l := by
  induction l using scan_induction hne with
  | nil => rfl
  | word r rest hr hrule ih =>
    rw [rewrite_of_some (hne r hr) hrule,
      rewrite_of_some (hne r hr) ((h _ List.suffix_rfl).trans hrule),
      ih fun rest' hsuffix ↦ h rest' (hsuffix.trans (List.suffix_append _ _))]
  | letter b rest hrule ih =>
    rw [rewrite_of_none hrule, rewrite_of_none ((h _ List.suffix_rfl).trans hrule),
      ih fun rest' hsuffix ↦ h rest' (hsuffix.trans (List.suffix_cons _ _))]

theorem mem_rewrite {rules : List (Rule β)} (hne : ∀ r ∈ rules, r.word ≠ []) {l : List β} {b : β} :
    b ∈ rewrite rules l → b ∈ l ∨ ∃ r ∈ rules, b ∈ r.value := by
  induction l using scan_induction hne with
  | nil => exact fun h ↦ .inl h
  | word r rest hr hrule ih =>
    intro h
    rw [rewrite_of_some (hne r hr) hrule, List.mem_append] at h
    rcases h with h | h
    · exact .inr ⟨r, hr, h⟩
    · exact (ih h).imp_left (List.mem_append_right _)
  | letter c rest hrule ih =>
    intro h
    rw [rewrite_of_none hrule, List.mem_cons] at h
    rcases h with rfl | h
    · exact .inl List.mem_cons_self
    · exact (ih h).imp_left (List.mem_cons_of_mem _)

/-- A part of the list in which no word starts stays as it is. -/
theorem rewrite_append {rules : List (Rule β)} {front rest : List β}
    (h : ∀ part, part ≠ [] → part <:+ front → ruleAt rules (part ++ rest) = none) :
    rewrite rules (front ++ rest) = front ++ rewrite rules rest := by
  induction front with
  | nil => rfl
  | cons b front ih =>
    have hnone : ruleAt rules (b :: (front ++ rest)) = none :=
      h (b :: front) (List.cons_ne_nil _ _) List.suffix_rfl
    rw [List.cons_append, rewrite_of_none hnone, ih fun part hne hpart ↦
      h part hne (hpart.trans (List.suffix_cons b front)), List.cons_append]

/-- A rule for a single letter rewrites the parts of a list on their own. -/
theorem rewrite_letter_append {b : β} {value : List β} (l l' : List β) :
    rewrite [⟨[b], value⟩] (l ++ l') = rewrite [⟨[b], value⟩] l ++ rewrite [⟨[b], value⟩] l' := by
  induction l with
  | nil => rfl
  | cons c rest ih =>
    have hrule (rest : List β) : ruleAt [⟨[b], value⟩] (c :: rest) =
        if b = c then some ⟨[b], value⟩ else none := by
      by_cases hb : b = c <;> simp [ruleAt, hb]
    rw [List.cons_append]
    by_cases hb : b = c
    · subst hb
      have hsome (rest : List β) : rewrite [⟨[b], value⟩] (b :: rest) =
          value ++ rewrite [⟨[b], value⟩] rest :=
        rewrite_of_some (r := ⟨[b], value⟩) (List.cons_ne_nil _ _) ((hrule rest).trans (if_pos rfl))
      rw [hsome, hsome, ih, List.append_assoc]
    · have hnone (rest : List β) : rewrite [⟨[b], value⟩] (c :: rest) =
          c :: rewrite [⟨[b], value⟩] rest :=
        rewrite_of_none ((hrule rest).trans (if_neg hb))
      rw [hnone, hnone, ih, List.cons_append]

/-! ### One rule after the other -/

/-- A rule behind others, whose values it rewrites. -/
def settleStep (done : List (Rule β)) (s : Rule β) : List (Rule β) :=
  done.map (Rule.mapValue (rewrite [s])) ++ [s]

/-- The values in the end, when each rule is applied to what those in front of it have left. -/
def settle (rules : List (Rule β)) : List (Rule β) := rules.foldl settleStep []

theorem ruleAt_append (rules rules' : List (Rule β)) (l : List β) :
    ruleAt (rules ++ rules') l = (ruleAt rules l).or (ruleAt rules' l) :=
  List.find?_append

theorem ruleAt_map (f : List β → List β) (rules : List (Rule β)) (l : List β) :
    ruleAt (rules.map (Rule.mapValue f)) l = (ruleAt rules l).map (Rule.mapValue f) :=
  List.find?_map

/-- What a rule makes of a value and of what follows it are apart. -/
theorem rewrite_value_append {t s : Rule β} (hs : s.word ∈ words) (h : Keeps words t s)
    (l : List β) : rewrite [s] (t.value ++ l) = rewrite [s] t.value ++ rewrite [s] l := by
  rcases h with hone | ⟨huncrossed, hstill⟩
  · obtain ⟨b, hb⟩ := List.length_eq_one_iff.mp hone
    obtain ⟨word, value⟩ := s
    obtain rfl : word = [b] := hb
    exact rewrite_letter_append _ _
  · have hnot := hstill s.word hs
    have hself : rewrite [s] t.value = t.value :=
      rewrite_eq_self fun r hr ↦ List.mem_singleton.mp hr ▸ hnot
    rw [hself]
    refine rewrite_append fun part hne hpart ↦ ruleAt_eq_none.mpr fun r hr hleads ↦ ?_
    obtain rfl := List.mem_singleton.mp hr
    rcases List.prefix_or_prefix_of_prefix hleads (List.prefix_append part l) with hin | hout
    · exact hnot (hin.isInfix.trans hpart.isInfix)
    · by_cases hwhole : part = r.word
      · exact hnot (hwhole ▸ hpart.isInfix)
      · exact huncrossed.back part hne hout hwhole hpart

/-- A word stands in the rewritten list only where it stood before, or in a value. -/
theorem prefix_of_prefix_rewrite {done : List (Rule β)} {s : Rule β} (hs : s.word ∈ words)
    (hne : ∀ r ∈ done, r.word ≠ [])
    (h : ∀ t ∈ done, t.Possible B → Uncrossed t s ∧ ∀ word ∈ words, ¬word <:+: t.value)
    {l : List β} (hl : ∀ b ∈ l, B b) {part : List β} (hpart : part <:+ s.word)
    (hleads : part <+: rewrite done l) : part <+: l := by
  induction l using scan_induction hne generalizing part with
  | nil => exact hleads
  | word t rest ht hrule ih =>
    obtain ⟨huncrossed, hstill⟩ :=
      h t ht (Rule.possible_of_prefix hl (List.prefix_append t.word rest))
    rw [rewrite_of_some (hne t ht) hrule] at hleads
    rcases List.prefix_or_prefix_of_prefix hleads (List.prefix_append _ _) with hshort | hlong
    · by_cases hempty : part = []
      · rw [hempty]
        exact List.nil_prefix
      by_cases hwhole : part = s.word
      · exact absurd hshort.isInfix (hwhole ▸ hstill s.word hs)
      · exact absurd hshort (huncrossed.front part hempty hpart hwhole)
    · exact absurd (hlong.isInfix.trans hpart.isInfix) huncrossed.within
  | letter b rest hrule ih =>
    rw [rewrite_of_none hrule] at hleads
    cases part with
    | nil => exact List.nil_prefix
    | cons c part =>
      rw [List.cons_prefix_cons] at hleads ⊢
      exact ⟨hleads.1, ih (fun a ha ↦ hl a (List.mem_cons_of_mem _ ha))
        ((List.suffix_cons c part).trans hpart) hleads.2⟩

theorem ruleAt_settleStep (done : List (Rule β)) (s : Rule β) (l : List β) :
    ruleAt (settleStep done s) l =
      ((ruleAt done l).map (Rule.mapValue (rewrite [s]))).or (ruleAt [s] l) := by
  rw [settleStep, ruleAt_append, ruleAt_map]

theorem ruleAt_singleton {s : Rule β} (rest : List β) : ruleAt [s] (s.word ++ rest) = some s := by
  simp [ruleAt]

theorem mapValue_of_not_possible {t s : Rule β} (hbounded : ∀ b ∈ t.value, B b)
    (hs : ¬s.Possible B) : t.mapValue (rewrite [s]) = t := by
  rw [Rule.mapValue, rewrite_eq_self fun r hr ↦ ?_]
  rw [List.mem_singleton.mp hr]
  exact not_infix_of_not_possible hbounded hs

/-- A rule that cannot apply changes neither the list nor the values. -/
theorem rewrite_rewrite_of_not_possible {done rules : List (Rule β)} {s : Rule β}
    (h : Ready B words done (s :: rules)) (hs : ¬s.Possible B) {l : List β} (hl : ∀ b ∈ l, B b) :
    rewrite [s] (rewrite done l) = rewrite (settleStep done s) l := by
  have hbounded (t : Rule β) (ht : t ∈ done) := h.bounded t (List.mem_append_left _ ht)
  have hnone {l : List β} (hl : ∀ b ∈ l, B b) : ∀ r ∈ [s], ¬r.word <:+: l := by
    intro r hr
    rw [List.mem_singleton.mp hr]
    exact not_infix_of_not_possible hl hs
  have hinside : ∀ b ∈ rewrite done l, B b := by
    intro b hb
    rcases mem_rewrite h.nonempty_done hb with hb | ⟨t, ht, hb⟩
    · exact hl b hb
    · exact hbounded t ht b hb
  have hdone : done.map (Rule.mapValue (rewrite [s])) = done :=
    (List.map_congr_left fun t ht ↦ mapValue_of_not_possible (hbounded t ht) hs).trans
      (List.map_id' done)
  rw [rewrite_eq_self (hnone hinside)]
  refine (rewrite_congr h.nonempty_done fun rest hrest ↦ ?_).symm
  have hlast : ruleAt [s] rest = none :=
    ruleAt_eq_none.mpr fun r hr hleads ↦ hnone hl r hr (hleads.isInfix.trans hrest.isInfix)
  rw [settleStep, hdone, ruleAt_append, hlast, Option.or_none]

/-- The words of the other rules stay apart from an occurrence of the new one. -/
theorem rewrite_word_append {done rules : List (Rule β)} {s : Rule β}
    (h : Ready B words done (s :: rules)) (hs : s.Possible B) {rest : List β}
    (hl : ∀ b ∈ s.word ++ rest, B b) (hnone : ruleAt done (s.word ++ rest) = none) :
    rewrite done (s.word ++ rest) = s.word ++ rewrite done rest := by
  refine rewrite_append fun part hne hpart ↦ ?_
  by_cases hwhole : part = s.word
  · rw [hwhole]
    exact hnone
  refine ruleAt_eq_none.mpr fun t ht hleads ↦ ?_
  have hp : t.Possible B := by
    intro b hb
    rcases List.mem_append.mp (hleads.subset hb) with hb | hb
    · exact hl b (List.mem_append_left _ (hpart.subset hb))
    · exact hl b (List.mem_append_right _ hb)
  have hclear := (h.before t ht s List.mem_cons_self hp hs).1
  rcases List.prefix_or_prefix_of_prefix hleads (List.prefix_append part rest) with hin | hover
  · exact hclear.inside (hin.isInfix.trans hpart.isInfix)
  · exact hclear.overlap part hne hpart hwhole hover

theorem ruleAt_rewrite_eq_none {done rules : List (Rule β)} {s : Rule β}
    (h : Ready B words done (s :: rules)) (hs : s.Possible B) {b : β} {rest : List β}
    (hl : ∀ c ∈ b :: rest, B c) (hdone : ruleAt done (b :: rest) = none)
    (hnone : ruleAt [s] (b :: rest) = none) : ruleAt [s] (b :: rewrite done rest) = none := by
  refine ruleAt_eq_none.mpr fun r hr hleads ↦ ?_
  obtain rfl := List.mem_singleton.mp hr
  refine ruleAt_eq_none.mp hnone r hr ?_
  by_cases hone : r.word.length = 1
  · obtain ⟨c, hc⟩ := List.length_eq_one_iff.mp hone
    rw [hc, List.cons_prefix_cons] at hleads ⊢
    exact ⟨hleads.1, List.nil_prefix⟩
  · rw [← rewrite_of_none hdone] at hleads
    exact prefix_of_prefix_rewrite (h.known r List.mem_cons_self) h.nonempty_done
      (fun t ht hp ↦ (h.before t ht r List.mem_cons_self hp hs).2.resolve_left hone) hl
      List.suffix_rfl hleads

/-- A rule applied behind others that are applied at once is applied with them. -/
theorem rewrite_rewrite {done rules : List (Rule β)} {s : Rule β}
    (h : Ready B words done (s :: rules)) {l : List β} (hl : ∀ b ∈ l, B b) :
    rewrite [s] (rewrite done l) = rewrite (settleStep done s) l := by
  by_cases hpossible : s.Possible B
  swap
  · exact rewrite_rewrite_of_not_possible h hpossible hl
  have hdone := h.nonempty_done
  have hsmem : s ∈ done ++ s :: rules := List.mem_append_right _ List.mem_cons_self
  have hsne := h.nonempty s hsmem
  induction l using scan_induction h.forall_nonempty with
  | nil => rfl
  | word r rest hr hrule ih =>
    have ih := ih fun b hb ↦ hl b (List.mem_append_right _ hb)
    rw [ruleAt_append] at hrule
    cases hfirst : ruleAt done (r.word ++ rest) with
    | some t =>
      rw [hfirst] at hrule
      obtain rfl : t = r := Option.some_inj.mp hrule
      have ht := (ruleAt_eq_some hfirst).1
      have hp := Rule.possible_of_prefix hl (List.prefix_append t.word rest)
      have hkeeps := (h.before t ht s List.mem_cons_self hp hpossible).2
      have hthen : ruleAt (settleStep done s) (t.word ++ rest) =
          some (t.mapValue (rewrite [s])) := by
        rw [ruleAt_settleStep, hfirst]
        rfl
      have hrewritten : rewrite (settleStep done s) (t.word ++ rest) =
          rewrite [s] t.value ++ rewrite (settleStep done s) rest :=
        rewrite_of_some (r := t.mapValue (rewrite [s])) (hdone t ht) hthen
      rw [rewrite_of_some (hdone t ht) hfirst, hrewritten,
        rewrite_value_append (h.known s List.mem_cons_self) hkeeps, ih]
    | none =>
      rw [hfirst] at hrule
      obtain rfl : r = s := List.mem_singleton.mp (ruleAt_eq_some hrule).1
      have hthen : ruleAt (settleStep done r) (r.word ++ rest) = some r := by
        rw [ruleAt_settleStep, hfirst]
        exact ruleAt_singleton rest
      rw [rewrite_word_append h hpossible hl hfirst, rewrite_of_some hsne (ruleAt_singleton _),
        rewrite_of_some hsne hthen, ih]
  | letter b rest hrule ih =>
    have ih := ih fun c hc ↦ hl c (List.mem_cons_of_mem _ hc)
    rw [ruleAt_append, Option.or_eq_none_iff] at hrule
    have hthen : ruleAt (settleStep done s) (b :: rest) = none := by
      rw [ruleAt_settleStep, hrule.1, hrule.2]
      rfl
    rw [rewrite_of_none hrule.1, rewrite_of_none hthen,
      rewrite_of_none (ruleAt_rewrite_eq_none h hpossible hl hrule.1 hrule.2), ih]

theorem Keeps.mapValue {t s r : Rule β} (hs : s.word ∈ words) (h : Keeps words t r) :
    Keeps words (t.mapValue (rewrite [s])) r := by
  rcases h with hone | ⟨huncrossed, hstill⟩
  · exact .inl hone
  · have hself : t.mapValue (rewrite [s]) = t := by
      rw [Rule.mapValue, rewrite_eq_self fun r hr ↦ List.mem_singleton.mp hr ▸ hstill s.word hs]
    rw [hself]
    exact .inr ⟨huncrossed, hstill⟩

theorem mem_settleStep {done : List (Rule β)} {s r : Rule β} :
    r ∈ settleStep done s ↔ (∃ t ∈ done, t.mapValue (rewrite [s]) = r) ∨ r = s := by
  rw [settleStep, List.mem_append, List.mem_map, List.mem_singleton]

/-- The other rules can still be applied after the next one. -/
theorem Ready.settleStep {done rules : List (Rule β)} {s : Rule β}
    (h : Ready B words done (s :: rules)) : Ready B words (settleStep done s) rules := by
  have hdone {t : Rule β} (ht : t ∈ done) : t ∈ done ++ s :: rules := List.mem_append_left _ ht
  have hrules {t : Rule β} (ht : t ∈ s :: rules) : t ∈ done ++ s :: rules :=
    List.mem_append_right _ ht
  have hs := hrules List.mem_cons_self
  have hmem {r : Rule β} (hr : r ∈ Rewriting.settleStep done s ++ rules) :
      (∃ t ∈ done, t.mapValue (rewrite [s]) = r) ∨ r ∈ s :: rules := by
    rcases List.mem_append.mp hr with hr | hr
    · rcases mem_settleStep.mp hr with hr | rfl
      · exact .inl hr
      · exact .inr List.mem_cons_self
    · exact .inr (List.mem_cons_of_mem _ hr)
  have hword : ∀ r ∈ [s], r.word ≠ [] :=
    fun r hr ↦ List.mem_singleton.mp hr ▸ h.nonempty s hs
  have hpairwise := List.pairwise_cons.mp h.pairwise
  refine ⟨fun r hr ↦ ?_, fun r hr b hb ↦ ?_, fun r hr ↦ h.known r (List.mem_cons_of_mem _ hr),
    fun t ht r hr ↦ ?_, hpairwise.2⟩
  · rcases hmem hr with ⟨t, ht, rfl⟩ | hr
    · exact h.nonempty t (hdone ht)
    · exact h.nonempty r (hrules hr)
  · rcases hmem hr with ⟨t, ht, rfl⟩ | hr
    · rcases mem_rewrite hword hb with hb | ⟨r, hr, hb⟩
      · exact h.bounded t (hdone ht) b hb
      · exact h.bounded s hs b (List.mem_singleton.mp hr ▸ hb)
    · exact h.bounded r (hrules hr) b hb
  · rcases mem_settleStep.mp ht with ⟨t, hmem, rfl⟩ | rfl
    · intro htp hrp
      obtain ⟨hclear, hkeeps⟩ := h.before t hmem r (List.mem_cons_of_mem _ hr) htp hrp
      exact ⟨⟨hclear.inside, hclear.overlap⟩, hkeeps.mapValue (h.known s List.mem_cons_self)⟩
    · exact hpairwise.1 r hr

theorem foldl_rewrite_from {done rules : List (Rule β)} (h : Ready B words done rules) {l : List β}
    (hl : ∀ b ∈ l, B b) :
    rules.foldl (fun l r ↦ rewrite [r] l) (rewrite done l) =
      rewrite (rules.foldl settleStep done) l := by
  induction rules generalizing done with
  | nil => rfl
  | cons s rules ih =>
    rw [List.foldl_cons, List.foldl_cons, rewrite_rewrite h hl, ih h.settleStep]

/-- Rules applied one after the other are the settled rules applied at once. -/
theorem foldl_rewrite {rules : List (Rule β)} (h : Ready B words [] rules) {l : List β}
    (hl : ∀ b ∈ l, B b) :
    rules.foldl (fun l r ↦ rewrite [r] l) l = rewrite (settle rules) l := by
  have hnil : rewrite [] l = l := rewrite_eq_self fun r hr ↦ absurd hr List.not_mem_nil
  rw [settle, ← foldl_rewrite_from h hl, hnil]

theorem map_word_foldl_settleStep (done rules : List (Rule β)) :
    (rules.foldl settleStep done).map Rule.word = (done ++ rules).map Rule.word := by
  induction rules generalizing done with
  | nil => simp
  | cons s rules ih =>
    rw [List.foldl_cons, ih]
    simp [settleStep, Function.comp_def]

@[simp] theorem map_word_settle (rules : List (Rule β)) :
    (settle rules).map Rule.word = rules.map Rule.word :=
  map_word_foldl_settleStep [] rules

/-- Values without words are settled. -/
theorem settle_eq_self {rules : List (Rule β)}
    (h : ∀ t ∈ rules, ∀ r ∈ rules, ¬r.word <:+: t.value) : settle rules = rules := by
  suffices hfold : ∀ done rest : List (Rule β), done ++ rest = rules →
      rest.foldl settleStep done = rules from hfold [] rules rfl
  intro done rest hsplit
  induction rest generalizing done with
  | nil => rw [← hsplit, List.append_nil, List.foldl_nil]
  | cons s rest ih =>
    have hs : s ∈ rules := by simp [← hsplit]
    have hself (t : Rule β) (ht : t ∈ done) : t.mapValue (rewrite [s]) = t := by
      have htmem : t ∈ rules := by simp [← hsplit, ht]
      rw [Rule.mapValue, rewrite_eq_self fun r hr ↦ List.mem_singleton.mp hr ▸ h t htmem s hs]
    have hstep : settleStep done s = done ++ [s] := by
      rw [settleStep, (List.map_congr_left hself).trans (List.map_id' done)]
    rw [List.foldl_cons, hstep]
    exact ih _ (by rw [← hsplit, List.append_assoc, List.singleton_append])

/-- The rule that applies comes before every other one whose word stands there. -/
theorem rel_of_ruleAt {R : Rule β → Rule β → Prop} {rules : List (Rule β)} (h : rules.Pairwise R)
    {l : List β} {t r : Rule β} (hrule : ruleAt rules l = some t) (hr : r ∈ rules)
    (hleads : r.word <+: l) (hne : r ≠ t) : R t r := by
  obtain ⟨-, front, rest, rfl, hfront⟩ := List.find?_eq_some_iff_append.mp hrule
  rcases List.mem_append.mp hr with hr | hr
  · have hnot := hfront r hr
    rw [List.isPrefixOf_iff_prefix.mpr hleads] at hnot
    exact absurd hnot (by decide)
  · have hrest := (List.mem_cons.mp hr).resolve_left hne
    exact (List.pairwise_cons.mp (List.pairwise_append.mp h).2.1).1 r hrest

/-- Any order in which no word comes before one that it starts gives the same. -/
theorem rewrite_perm {rules rules' : List (Rule β)} (hne : ∀ r ∈ rules, r.word ≠ [])
    (h : rules.Pairwise fun t r ↦ t.Possible B → r.Possible B → ¬t.word <+: r.word)
    (h' : rules'.Pairwise fun t r ↦ t.Possible B → r.Possible B → ¬t.word <+: r.word)
    (hperm : rules'.Perm rules) {l : List β} (hl : ∀ b ∈ l, B b) :
    rewrite rules' l = rewrite rules l := by
  refine rewrite_congr hne fun rest hrest ↦ ?_
  have hl (b : β) (hb : b ∈ rest) : B b := hl b (hrest.subset hb)
  cases hrule : ruleAt rules rest with
  | none =>
    rw [ruleAt_eq_none] at hrule ⊢
    exact fun r hr ↦ hrule r (hperm.mem_iff.mp hr)
  | some r =>
    obtain ⟨hr, hleads⟩ := ruleAt_eq_some hrule
    cases hrule' : ruleAt rules' rest with
    | none => exact absurd hleads (ruleAt_eq_none.mp hrule' r (hperm.mem_iff.mpr hr))
    | some r' =>
      obtain ⟨hr', hleads'⟩ := ruleAt_eq_some hrule'
      by_contra hneq
      have hdiffer : r' ≠ r := fun heq ↦ hneq (congrArg some heq)
      have hp := Rule.possible_of_prefix hl hleads
      have hp' := Rule.possible_of_prefix hl hleads'
      rcases List.prefix_or_prefix_of_prefix hleads hleads' with hfirst | hfirst
      · exact rel_of_ruleAt h hrule (hperm.mem_iff.mp hr') hleads' hdiffer hp hp' hfirst
      · exact rel_of_ruleAt h' hrule' (hperm.mem_iff.mpr hr) hleads hdiffer.symm hp' hp hfirst

end Cecore.Library.Rewriting
