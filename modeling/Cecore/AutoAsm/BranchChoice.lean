import Cecore.AutoAsm.Branches
import Cecore.AutoAsm.Surroundings

/-!
# What a try block decides on

The guarded branch of a block is meant to be selected where the assertions that it keeps hold
(`Selects`). `selectTryExceptBranches` tests every assertion between `{$try}` and the last
`{$except}` of the block, also those of branches inside that are not selected. When the two select
the same is `selects_iff`.
-/

set_option autoImplicit false
set_option relaxedAutoImplicit false

namespace Cecore.AutoAsm

open Platform

section Choice

variable (symbols : Symbols) (proc : Option Target)

/-- The lines that the pass selects. -/
def selection (lines : List Text) : Option (List Text) :=
  (selectTryExceptBranches symbols proc lines []).1.toOption

/-- The lines that it selects for a block. -/
def blockSelection (b : Block) : Option (List Text) :=
  selection symbols proc (chosenBranch symbols proc b.guarded b.fallback).1

/-! ### The meaning of blocks -/

/-- An assertion of the target is true; other lines assert nothing. -/
def AssertHolds (rawLine : Text) : Prop :=
  ∀ t, proc = some t → startsWith (trim rawLine) "__ASSERT__:".toList = true →
    ∃ addrExpr, checkAssert symbols t (fun _ _ ↦ []) ((trim rawLine).drop 11) = .ok addrExpr

/-- The lines with each block replaced by what is selected of its guarded branch, if all assertions
in that hold, and otherwise by what is selected of its other branch. -/
inductive Selects : List Text → List Text → Prop
  | nil : Selects [] []
  | line {line : Text} {rest more : List Text} : marker line = none → Selects rest more →
      Selects (line :: rest) (line :: more)
  | guarded {line : Text} {rest body after guarded fallback taken more : List Text} :
      marker line = some .tryBegin → cutBlock 1 rest = some (body, after) →
      cutExcept 1 body = some (guarded, fallback) → Selects guarded taken →
      (∀ kept ∈ taken, AssertHolds symbols proc kept) → Selects after more →
        Selects (line :: rest) (taken ++ more)
  | fallback {line : Text} {rest body after guarded fallback kept taken more : List Text} :
      marker line = some .tryBegin → cutBlock 1 rest = some (body, after) →
      cutExcept 1 body = some (guarded, fallback) → Selects guarded kept →
      ¬(∀ line ∈ kept, AssertHolds symbols proc line) → Selects fallback taken →
      Selects after more → Selects (line :: rest) (taken ++ more)

/-- What is meant to be selected for a block. -/
def SelectsBlock (b : Block) (selected : List Text) : Prop :=
  ∃ kept, Selects symbols proc b.guarded kept ∧
    ((∀ line ∈ kept, AssertHolds symbols proc line) ∧ selected = kept ∨
      ¬(∀ line ∈ kept, AssertHolds symbols proc line) ∧ Selects symbols proc b.fallback selected)

/-- The blocks in a list of lines, at any depth. -/
inductive Inside (b : Block) : List Text → Prop
  | here {line : Text} {rest body after : List Text} : marker line = some .tryBegin →
      cutBlock 1 rest = some (body, after) → cutExcept 1 body = some (b.guarded, b.fallback) →
        Inside b (line :: rest)
  | line {line : Text} {rest : List Text} : marker line = none → Inside b rest →
      Inside b (line :: rest)
  | guarded {line : Text} {rest body after guarded fallback : List Text} :
      marker line = some .tryBegin → cutBlock 1 rest = some (body, after) →
      cutExcept 1 body = some (guarded, fallback) → Inside b guarded → Inside b (line :: rest)
  | fallback {line : Text} {rest body after guarded fallback : List Text} :
      marker line = some .tryBegin → cutBlock 1 rest = some (body, after) →
      cutExcept 1 body = some (guarded, fallback) → Inside b fallback → Inside b (line :: rest)
  | after {line : Text} {rest body after : List Text} : marker line = some .tryBegin →
      cutBlock 1 rest = some (body, after) → Inside b after → Inside b (line :: rest)

/-- The pass selects what is meant, for the script and for every block in it. -/
structure SelectsRight (lines : List Text) : Prop where
  script : ∀ selected, selection symbols proc lines = some selected ↔
    Selects symbols proc lines selected
  block : ∀ b, Inside b lines → ∀ selected, blockSelection symbols proc b = some selected ↔
    SelectsBlock symbols proc b selected

/-- Where an assertion of a guarded branch fails, one fails that is kept of the branch, or both
branches leave the same. -/
def KeptDecide (b : Block) : Prop :=
  ¬(∀ line ∈ b.guarded, AssertHolds symbols proc line) →
    (∀ other, Selects symbols proc b.fallback other → ∃ kept, Selects symbols proc b.guarded kept) ∧
      ∀ kept, Selects symbols proc b.guarded kept →
        (∀ line ∈ kept, AssertHolds symbols proc line) → Selects symbols proc b.fallback kept

end Choice

variable {symbols : Symbols} {proc : Option Target}

/-! ### The test of a branch -/

theorem tryBranchFails_eq_none {lines : List Text} :
    tryBranchFails symbols proc lines = none ↔ ∀ line ∈ lines, AssertHolds symbols proc line := by
  unfold tryBranchFails AssertHolds
  cases proc with
  | none => simp
  | some t =>
    dsimp only
    rw [List.findSome?_eq_none_iff]
    refine forall₂_congr fun line _ ↦ ?_
    by_cases hassert : startsWith (trim line) "__ASSERT__:".toList = true
    · rw [if_pos hassert]
      cases hcheck : checkAssert symbols t (fun _ _ ↦ []) ((trim line).drop 11) with
      | ok addrExpr =>
        refine iff_of_true rfl fun other hother _ ↦ ?_
        obtain rfl := Option.some.inj hother
        exact ⟨addrExpr, hcheck⟩
      | error reason =>
        refine iff_of_false (by simp) fun h ↦ ?_
        obtain ⟨addrExpr, hok⟩ := h t rfl hassert
        rw [hcheck] at hok
        cases hok
    · rw [if_neg hassert]
      exact iff_of_true rfl fun _ _ h ↦ absurd h hassert

theorem chosenBranch_guarded {guarded fallback : List Text}
    (h : ∀ line ∈ guarded, AssertHolds symbols proc line) :
    (chosenBranch symbols proc guarded fallback).1 = guarded := by
  rw [chosenBranch, tryBranchFails_eq_none.mpr h]

theorem chosenBranch_fallback {guarded fallback : List Text}
    (h : ¬∀ line ∈ guarded, AssertHolds symbols proc line) :
    (chosenBranch symbols proc guarded fallback).1 = fallback := by
  rw [← tryBranchFails_eq_none] at h
  obtain ⟨reason, hreason⟩ := Option.ne_none_iff_exists'.mp h
  rw [chosenBranch, hreason]

/-! ### One line at a time -/

theorem toOption_eq_none {outcome : Except Text (List Text)}
    (h : ∀ selected, outcome ≠ .ok selected) : outcome.toOption = none := by
  cases outcome with
  | error error => rfl
  | ok selected => exact absurd rfl (h selected)

theorem selectBranches_line {turns : ℕ} {line : Text} (rest log : List Text)
    (hline : marker line = none) :
    (selectBranches symbols proc (turns + 1) (line :: rest) log).1.toOption =
      (selectBranches symbols proc turns rest log).1.toOption.map (line :: ·) := by
  obtain ⟨hbegin, hother⟩ := (marker_eq_none_iff line).mp hline
  rw [selectBranches, if_neg hbegin, if_neg hother]
  cases selectBranches symbols proc turns rest log with
  | mk outcome left => cases outcome <;> rfl

theorem selectBranches_block_eq {turns : ℕ} {line : Text} {rest body after guarded fallback : List Text}
    (log : List Text) (hline : marker line = some .tryBegin)
    (hbody : cutBlock 1 rest = some (body, after))
    (hexcept : cutExcept 1 body = some (guarded, fallback)) :
    ∃ left, (selectBranches symbols proc (turns + 1) (line :: rest) log).1.toOption =
      (selectBranches symbols proc turns (chosenBranch symbols proc guarded fallback).1
        log).1.toOption.bind fun taken ↦
          (selectBranches symbols proc turns after left).1.toOption.map (taken ++ ·) := by
  rw [selectBranches_block log hline hbody hexcept]
  cases selectBranches symbols proc turns (chosenBranch symbols proc guarded fallback).1 log with
  | mk outcome left =>
    refine ⟨left ++ [(chosenBranch symbols proc guarded fallback).2], ?_⟩
    cases outcome with
    | error error => rfl
    | ok taken =>
      dsimp only
      cases selectBranches symbols proc turns after
        (left ++ [(chosenBranch symbols proc guarded fallback).2]) with
      | mk outcome behind => cases outcome <;> rfl

/-- A line that ends the selection without a result. -/
theorem selectBranches_refused {turns : ℕ} {line : Text} {rest log : List Text}
    (hline : marker line ≠ none)
    (hopen : marker line = some .tryBegin → ∀ body after guarded fallback,
      cutBlock 1 rest = some (body, after) → cutExcept 1 body ≠ some (guarded, fallback)) :
    (selectBranches symbols proc (turns + 1) (line :: rest) log).1.toOption = none := by
  refine toOption_eq_none fun selected hselected ↦ ?_
  cases hmarker : marker line with
  | none => exact hline hmarker
  | some m =>
    cases m with
    | tryBegin =>
      obtain ⟨body, after, guarded, fallback, hbody, hexcept⟩ :=
        selectBranches_unclosed hmarker hselected
      exact hopen hmarker body after guarded fallback hbody hexcept
    | tryExcept => exact selectBranches_stray (.inl hmarker) hselected
    | tryEnd => exact selectBranches_stray (.inr hmarker) hselected

/-- Whether a line starts a block. -/
theorem block_or_refused (line : Text) (rest : List Text) :
    marker line = none ∨
      (∃ body after guarded fallback, marker line = some .tryBegin ∧
        cutBlock 1 rest = some (body, after) ∧ cutExcept 1 body = some (guarded, fallback)) ∨
      marker line ≠ none ∧ (marker line = some .tryBegin → ∀ body after guarded fallback,
        cutBlock 1 rest = some (body, after) → cutExcept 1 body ≠ some (guarded, fallback)) := by
  by_cases hnone : marker line = none
  · exact Or.inl hnone
  · by_cases hblock : ∃ body after guarded fallback, marker line = some .tryBegin ∧
        cutBlock 1 rest = some (body, after) ∧ cutExcept 1 body = some (guarded, fallback)
    · exact Or.inr (Or.inl hblock)
    · exact Or.inr (Or.inr ⟨hnone, fun hbegin body after guarded fallback hbody hexcept ↦
        hblock ⟨body, after, guarded, fallback, hbegin, hbody, hexcept⟩⟩)

/-- Neither the turns, if they are enough, nor the log matter to what is selected. -/
theorem selectBranches_congr {turns others : ℕ} {lines : List Text} (hturns : lines.length ≤ turns)
    (hothers : lines.length ≤ others) (log left : List Text) :
    (selectBranches symbols proc turns lines log).1.toOption =
      (selectBranches symbols proc others lines left).1.toOption := by
  induction turns generalizing others lines log left with
  | zero =>
    obtain rfl := List.length_eq_zero_iff.mp (Nat.le_zero.mp hturns)
    cases others <;> rfl
  | succ turns ih =>
    cases lines with
    | nil => cases others <;> rfl
    | cons line rest =>
      rw [List.length_cons] at hturns hothers
      obtain ⟨others, rfl⟩ : ∃ k, others = k + 1 := ⟨others - 1, by omega⟩
      rcases block_or_refused line rest with hline | hblock | ⟨hline, hopen⟩
      · rw [selectBranches_line rest log hline, selectBranches_line rest left hline,
          @ih others rest (by omega) (by omega) log left]
      · obtain ⟨body, after, guarded, fallback, hbegin, hbody, hexcept⟩ := hblock
        obtain ⟨-, -, hafter⟩ := length_of_cut hbody hexcept
        have hchosen := @length_chosenBranch symbols proc _ _ _ _ _ hbody hexcept
        obtain ⟨first, hfirst⟩ := @selectBranches_block_eq symbols proc turns _ _ _ _ _ _ log hbegin
          hbody hexcept
        obtain ⟨second, hsecond⟩ := @selectBranches_block_eq symbols proc others _ _ _ _ _ _ left
          hbegin hbody hexcept
        rw [hfirst, hsecond, @ih others (chosenBranch symbols proc guarded fallback).1 (by omega)
          (by omega) log left]
        simp only [@ih others after (by omega) (by omega) first second]
      · rw [selectBranches_refused hline hopen, selectBranches_refused hline hopen]

theorem selectBranches_eq_selection {turns : ℕ} {lines : List Text} (hturns : lines.length ≤ turns)
    (log : List Text) :
    (selectBranches symbols proc turns lines log).1.toOption = selection symbols proc lines :=
  selectBranches_congr hturns le_rfl log []

theorem selection_line {line : Text} (rest : List Text) (hline : marker line = none) :
    selection symbols proc (line :: rest) = (selection symbols proc rest).map (line :: ·) :=
  selectBranches_line rest [] hline

theorem selection_block {line : Text} {rest body after guarded fallback : List Text}
    (hline : marker line = some .tryBegin) (hbody : cutBlock 1 rest = some (body, after))
    (hexcept : cutExcept 1 body = some (guarded, fallback)) :
    selection symbols proc (line :: rest) =
      (blockSelection symbols proc ⟨guarded, fallback⟩).bind fun taken ↦
        (selection symbols proc after).map (taken ++ ·) := by
  obtain ⟨-, -, hafter⟩ := length_of_cut hbody hexcept
  have hchosen := @length_chosenBranch symbols proc _ _ _ _ _ hbody hexcept
  obtain ⟨left, hleft⟩ := @selectBranches_block_eq symbols proc rest.length _ _ _ _ _ _ [] hline hbody
    hexcept
  rw [blockSelection, ← @selectBranches_eq_selection symbols proc rest.length
    (chosenBranch symbols proc guarded fallback).1 hchosen.le [],
    ← @selectBranches_eq_selection symbols proc rest.length after hafter.le left]
  exact hleft

theorem selection_refused {line : Text} {rest : List Text} (hline : marker line ≠ none)
    (hopen : marker line = some .tryBegin → ∀ body after guarded fallback,
      cutBlock 1 rest = some (body, after) → cutExcept 1 body ≠ some (guarded, fallback)) :
    selection symbols proc (line :: rest) = none :=
  selectBranches_refused hline hopen

theorem Selects.cons_line {line : Text} {rest selected : List Text} (hline : marker line = none) :
    Selects symbols proc (line :: rest) selected ↔
      ∃ more, Selects symbols proc rest more ∧ selected = line :: more := by
  constructor
  · intro h
    cases h with
    | line _ hrest => exact ⟨_, hrest, rfl⟩
    | guarded hbegin => simp [hline] at hbegin
    | fallback hbegin => simp [hline] at hbegin
  · rintro ⟨more, hrest, rfl⟩
    exact .line hline hrest

theorem Selects.cons_block {line : Text} {rest body after guarded fallback selected : List Text}
    (hline : marker line = some .tryBegin) (hbody : cutBlock 1 rest = some (body, after))
    (hexcept : cutExcept 1 body = some (guarded, fallback)) :
    Selects symbols proc (line :: rest) selected ↔
      ∃ taken more, SelectsBlock symbols proc ⟨guarded, fallback⟩ taken ∧
        Selects symbols proc after more ∧ selected = taken ++ more := by
  constructor
  · intro h
    cases h with
    | line hnone => simp [hline] at hnone
    | guarded _ hbody' hexcept' hkept hholds hafter =>
      obtain ⟨rfl, rfl⟩ := Prod.mk.inj (Option.some.inj (hbody.symm.trans hbody'))
      obtain ⟨rfl, rfl⟩ := Prod.mk.inj (Option.some.inj (hexcept.symm.trans hexcept'))
      exact ⟨_, _, ⟨_, hkept, Or.inl ⟨hholds, rfl⟩⟩, hafter, rfl⟩
    | fallback _ hbody' hexcept' hkept hfails htaken hafter =>
      obtain ⟨rfl, rfl⟩ := Prod.mk.inj (Option.some.inj (hbody.symm.trans hbody'))
      obtain ⟨rfl, rfl⟩ := Prod.mk.inj (Option.some.inj (hexcept.symm.trans hexcept'))
      exact ⟨_, _, ⟨_, hkept, Or.inr ⟨hfails, htaken⟩⟩, hafter, rfl⟩
  · rintro ⟨taken, more, ⟨kept, hkept, ⟨hholds, rfl⟩ | ⟨hfails, htaken⟩⟩, hafter, rfl⟩
    · exact .guarded hline hbody hexcept hkept hholds hafter
    · exact .fallback hline hbody hexcept hkept hfails htaken hafter

theorem Selects.refused {line : Text} {rest selected : List Text} (hline : marker line ≠ none)
    (hopen : marker line = some .tryBegin → ∀ body after guarded fallback,
      cutBlock 1 rest = some (body, after) → cutExcept 1 body ≠ some (guarded, fallback)) :
    ¬Selects symbols proc (line :: rest) selected := by
  intro h
  cases h with
  | line hnone => exact hline hnone
  | guarded hbegin hbody hexcept => exact hopen hbegin _ _ _ _ hbody hexcept
  | fallback hbegin hbody hexcept => exact hopen hbegin _ _ _ _ hbody hexcept

/-- Only lines that were there are kept. -/
theorem Selects.subset {lines selected : List Text} (h : Selects symbols proc lines selected) :
    selected ⊆ lines := by
  induction h with
  | nil => exact List.Subset.refl _
  | line _ _ ih => exact List.cons_subset_cons _ ih
  | @guarded line rest body after guarded fallback taken more _ hbody hexcept _ _ _ ihtaken ihafter =>
    obtain ⟨last, -, rfl⟩ := eq_of_cutBlock hbody
    obtain ⟨middle, -, rfl⟩ := eq_of_cutExcept hexcept
    refine List.append_subset.mpr ⟨fun kept hkept ↦ ?_, fun kept hkept ↦ ?_⟩
    · simp [ihtaken hkept]
    · simp [ihafter hkept]
  | @fallback line rest body after guarded fallback kept taken more _ hbody hexcept _ _ _ _ _ ihtaken
      ihafter =>
    obtain ⟨last, -, rfl⟩ := eq_of_cutBlock hbody
    obtain ⟨middle, -, rfl⟩ := eq_of_cutExcept hexcept
    refine List.append_subset.mpr ⟨fun kept hkept ↦ ?_, fun kept hkept ↦ ?_⟩
    · simp [ihtaken hkept]
    · simp [ihafter hkept]

/-! ### Scripts -/

theorem Inside.trans {lines : List Text} {b c : Block} (hb : Inside b lines)
    (hc : Inside c b.guarded ∨ Inside c b.fallback) : Inside c lines := by
  induction hb with
  | here hbegin hbody hexcept =>
    rcases hc with hc | hc
    · exact .guarded hbegin hbody hexcept hc
    · exact .fallback hbegin hbody hexcept hc
  | line hline _ ih => exact .line hline ih
  | guarded hbegin hbody hexcept _ ih => exact .guarded hbegin hbody hexcept ih
  | fallback hbegin hbody hexcept _ ih => exact .fallback hbegin hbody hexcept ih
  | after hbegin hbody _ ih => exact .after hbegin hbody ih

/-- The branches of a block are shorter than the lines around it. -/
theorem Inside.length_lt {lines : List Text} {b : Block} (h : Inside b lines) :
    b.guarded.length < lines.length ∧ b.fallback.length < lines.length := by
  induction h with
  | here _ hbody hexcept =>
    obtain ⟨hguarded, hfallback, -⟩ := length_of_cut hbody hexcept
    rw [List.length_cons]
    omega
  | line _ _ ih =>
    rw [List.length_cons]
    omega
  | guarded _ hbody hexcept _ ih =>
    obtain ⟨hguarded, -, -⟩ := length_of_cut hbody hexcept
    rw [List.length_cons]
    omega
  | fallback _ hbody hexcept _ ih =>
    obtain ⟨-, hfallback, -⟩ := length_of_cut hbody hexcept
    rw [List.length_cons]
    omega
  | after _ hbody _ ih =>
    obtain ⟨last, -, rfl⟩ := eq_of_cutBlock hbody
    rw [List.length_cons, List.length_append, List.length_cons]
    omega

/-- A script is selected as meant if its blocks are. -/
theorem selection_iff_selects {lines : List Text}
    (hblocks : ∀ b, Inside b lines → ∀ selected,
      blockSelection symbols proc b = some selected ↔ SelectsBlock symbols proc b selected)
    (selected : List Text) :
    selection symbols proc lines = some selected ↔ Selects symbols proc lines selected := by
  induction hlength : lines.length using Nat.strong_induction_on generalizing lines selected with
  | _ length ih =>
    subst hlength
    cases lines with
    | nil =>
      constructor
      · rintro ⟨⟩
        exact .nil
      · rintro ⟨⟩
        rfl
    | cons line rest =>
      rcases block_or_refused line rest with hline | hblock | ⟨hline, hopen⟩
      · have hrest := fun more ↦
          ih rest.length (by simp) (fun b hb ↦ hblocks b (.line hline hb)) more rfl
        rw [selection_line rest hline, Selects.cons_line hline, Option.map_eq_some_iff]
        simp only [hrest, eq_comm]
      · obtain ⟨body, after, guarded, fallback, hbegin, hbody, hexcept⟩ := hblock
        obtain ⟨-, -, hlength⟩ := length_of_cut hbody hexcept
        have hafter := fun more ↦ ih after.length (by
          rw [List.length_cons]
          omega) (fun b hb ↦ hblocks b (.after hbegin hbody hb)) more rfl
        have hblock := hblocks ⟨guarded, fallback⟩ (.here hbegin hbody hexcept)
        rw [selection_block hbegin hbody hexcept, Selects.cons_block hbegin hbody hexcept,
          Option.bind_eq_some_iff]
        simp only [hblock, Option.map_eq_some_iff, hafter]
        constructor
        · rintro ⟨taken, htaken, more, hmore, rfl⟩
          exact ⟨taken, more, htaken, hmore, rfl⟩
        · rintro ⟨taken, more, htaken, hmore, rfl⟩
          exact ⟨taken, htaken, more, hmore, rfl⟩
      · rw [selection_refused hline hopen]
        exact iff_of_false (by simp) (Selects.refused hline hopen)

/-- A block is selected as meant exactly if its kept assertions decide. -/
theorem blockSelection_iff {b : Block}
    (hguarded : ∀ selected, selection symbols proc b.guarded = some selected ↔
      Selects symbols proc b.guarded selected)
    (hfallback : ∀ selected, selection symbols proc b.fallback = some selected ↔
      Selects symbols proc b.fallback selected) :
    (∀ selected, blockSelection symbols proc b = some selected ↔
      SelectsBlock symbols proc b selected) ↔ KeptDecide symbols proc b := by
  unfold blockSelection
  by_cases hall : ∀ line ∈ b.guarded, AssertHolds symbols proc line
  · rw [chosenBranch_guarded hall]
    refine iff_of_true (fun selected ↦ ?_) fun hfails ↦ absurd hall hfails
    have hkept : ∀ kept, Selects symbols proc b.guarded kept →
        ∀ line ∈ kept, AssertHolds symbols proc line := fun kept h line hline ↦
      hall line (h.subset hline)
    rw [hguarded]
    constructor
    · exact fun h ↦ ⟨selected, h, Or.inl ⟨hkept selected h, rfl⟩⟩
    · rintro ⟨kept, h, ⟨-, rfl⟩ | ⟨hfails, -⟩⟩
      · exact h
      · exact absurd (hkept kept h) hfails
  · rw [chosenBranch_fallback hall]
    simp only [hfallback]
    constructor
    · refine fun h _ ↦ ⟨fun other hother ↦ ?_, fun kept hkept hholds ↦ ?_⟩
      · obtain ⟨kept, hkept, -⟩ := (h other).mp hother
        exact ⟨kept, hkept⟩
      · exact (h kept).mpr ⟨kept, hkept, Or.inl ⟨hholds, rfl⟩⟩
    · intro h selected
      obtain ⟨hsome, hsame⟩ := h hall
      constructor
      · intro hselected
        obtain ⟨kept, hkept⟩ := hsome selected hselected
        by_cases hholds : ∀ line ∈ kept, AssertHolds symbols proc line
        · have hother := (hfallback kept).mpr (hsame kept hkept hholds)
          rw [(hfallback selected).mpr hselected] at hother
          exact ⟨kept, hkept, Or.inl ⟨hholds, Option.some.inj hother⟩⟩
        · exact ⟨kept, hkept, Or.inr ⟨hholds, hselected⟩⟩
      · rintro ⟨kept, hkept, ⟨hholds, rfl⟩ | ⟨-, hselected⟩⟩
        · exact hsame selected hkept hholds
        · exact hselected

/-- A script and all blocks in it are selected as meant exactly if no block has an assertion that
fails only where its guarded branch does not keep it, unless its branches leave the same. -/
theorem selects_iff (symbols : Symbols) (proc : Option Target) (lines : List Text) :
    SelectsRight symbols proc lines ↔ ∀ b, Inside b lines → KeptDecide symbols proc b := by
  constructor
  · intro h b hb
    refine (blockSelection_iff (fun selected ↦ ?_) fun selected ↦ ?_).mp (h.block b hb)
    · exact selection_iff_selects (fun c hc ↦ h.block c (hb.trans (Or.inl hc))) selected
    · exact selection_iff_selects (fun c hc ↦ h.block c (hb.trans (Or.inr hc))) selected
  · intro h
    have hblocks : ∀ b, Inside b lines → ∀ selected,
        blockSelection symbols proc b = some selected ↔ SelectsBlock symbols proc b selected := by
      -- by induction on the length of the lines that a block is in
      induction hlength : lines.length using Nat.strong_induction_on generalizing lines with
      | _ length ih =>
        subst hlength
        intro b hb
        obtain ⟨hguarded, hfallback⟩ := hb.length_lt
        refine (blockSelection_iff (fun selected ↦ ?_) fun selected ↦ ?_).mpr (h b hb)
        · exact selection_iff_selects (ih _ hguarded b.guarded
            (fun c hc ↦ h c (hb.trans (Or.inl hc))) rfl) selected
        · exact selection_iff_selects (ih _ hfallback b.fallback
            (fun c hc ↦ h c (hb.trans (Or.inr hc))) rfl) selected
    exact ⟨selection_iff_selects hblocks, hblocks⟩

/-- A block whose guarded branch is a block: the assertion of the inner one fails, so that its other
branch is selected, which asserts nothing. -/
def nestedTry : List Text :=
  ["__TRY_BEGIN__".toList, "__TRY_BEGIN__".toList, "__ASSERT__:1000,CC".toList,
    "__TRY_EXCEPT__".toList, "nop".toList, "__TRY_END__".toList, "__TRY_EXCEPT__".toList,
    "hlt".toList, "__TRY_END__".toList]

/-- The other branch of the outer block is selected, although what its guarded branch keeps asserts
nothing. -/
theorem nestedTry_selects_fallback :
    selection ⟨[], [], [], fun _ ↦ none⟩ (some onePage) nestedTry = some ["hlt".toList] ∧
      Selects ⟨[], [], [], fun _ ↦ none⟩ (some onePage) nestedTry ["nop".toList] ∧
      ¬SelectsRight ⟨[], [], [], fun _ ↦ none⟩ (some onePage) nestedTry := by
  have hselected : selection ⟨[], [], [], fun _ ↦ none⟩ (some onePage) nestedTry =
      some ["hlt".toList] := by
    decide
  have hfails : ¬∀ line ∈ ["__ASSERT__:1000,CC".toList],
      AssertHolds ⟨[], [], [], fun _ ↦ none⟩ (some onePage) line := by
    rw [← tryBranchFails_eq_none]
    decide
  have hholds : ∀ line ∈ ["nop".toList],
      AssertHolds ⟨[], [], [], fun _ ↦ none⟩ (some onePage) line := by
    rw [← tryBranchFails_eq_none]
    decide
  have hnop : Selects ⟨[], [], [], fun _ ↦ none⟩ (some onePage) ["nop".toList] ["nop".toList] :=
    .line (by decide) .nil
  have hassert : Selects ⟨[], [], [], fun _ ↦ none⟩ (some onePage) ["__ASSERT__:1000,CC".toList]
      ["__ASSERT__:1000,CC".toList] := .line (by decide) .nil
  have hinner : Selects ⟨[], [], [], fun _ ↦ none⟩ (some onePage) ["__TRY_BEGIN__".toList,
      "__ASSERT__:1000,CC".toList, "__TRY_EXCEPT__".toList, "nop".toList, "__TRY_END__".toList]
      (["nop".toList] ++ []) :=
    .fallback (by decide) (by decide : cutBlock 1 _ = some (["__ASSERT__:1000,CC".toList,
      "__TRY_EXCEPT__".toList, "nop".toList], [])) (by decide) hassert hfails hnop .nil
  have houter : Selects ⟨[], [], [], fun _ ↦ none⟩ (some onePage) nestedTry (["nop".toList] ++ []) :=
    .guarded (by decide) (by decide : cutBlock 1 _ = some (["__TRY_BEGIN__".toList,
      "__ASSERT__:1000,CC".toList, "__TRY_EXCEPT__".toList, "nop".toList, "__TRY_END__".toList,
      "__TRY_EXCEPT__".toList, "hlt".toList], []))
      (by decide : cutExcept 1 _ = some (_, ["hlt".toList])) hinner hholds .nil
  refine ⟨hselected, houter, fun h ↦ ?_⟩
  have hother := (h.script _).mpr houter
  rw [hselected] at hother
  revert hother
  decide

end Cecore.AutoAsm
