import Cecore.AutoAsm.Line
import Mathlib.Data.List.Basic

/-!
# Try blocks

The block structure behind `selectTryExceptBranches`, without positions: `cutBlock` takes the body
of a block off the lines behind its `{$try}`, and `cutExcept` cuts the body at its last `{$except}`.
`Level` lists the blocks of a branch that are not inside of another block, and `Reaches` the
branches inside a list of lines with the choices that lead to them. The selection succeeds exactly
when every branch that its choices lead to has a level (`selectable_iff`), and only the lines that
mark blocks matter to that as long as every block is entered by its guarded branch
(`selectable_iff_of_checked`).
-/

set_option autoImplicit false
set_option relaxedAutoImplicit false

namespace Cecore.AutoAsm

open Platform

/-! ### Marker lines -/

inductive Marker
  | tryBegin
  | tryExcept
  | tryEnd
  deriving DecidableEq, Repr

/-- The marker a line is, if it is one. -/
def marker (line : Text) : Option Marker :=
  if trim line = "__TRY_BEGIN__".toList then some .tryBegin
  else if trim line = "__TRY_END__".toList then some .tryEnd
  else if trim line = "__TRY_EXCEPT__".toList then some .tryExcept
  else none

/-- The lines that are markers. -/
def skeleton (lines : List Text) : List Text := lines.filter fun line ↦ (marker line).isSome

/-- The nesting depth behind a line. -/
def depthAfter (line : Text) (depth : ℕ) : ℕ :=
  match marker line with
  | some .tryBegin => depth + 1
  | some .tryEnd => depth - 1
  | _ => depth

theorem depthAfter_of_none {line : Text} (h : marker line = none) (depth : ℕ) :
    depthAfter line depth = depth := by
  rw [depthAfter, h]

theorem skeleton_cons_of_none {line : Text} (h : marker line = none) (rest : List Text) :
    skeleton (line :: rest) = skeleton rest := by
  simp [skeleton, h]

theorem skeleton_cons_of_some {line : Text} {m : Marker} (h : marker line = some m)
    (rest : List Text) : skeleton (line :: rest) = line :: skeleton rest := by
  simp [skeleton, h]

/-! ### Cutting a block out -/

/-- The lines up to the `{$endtry}` that closes `depth` blocks, and the lines behind it. -/
def cutBlock : (depth : ℕ) → List Text → Option (List Text × List Text)
  | _, [] => none
  | depth, line :: rest =>
    if marker line = some .tryEnd ∧ depth = 1 then some ([], rest)
    else (cutBlock (depthAfter line depth) rest).map fun cut ↦ (line :: cut.1, cut.2)

/-- The lines in front of the last `{$except}` at depth one, and the lines behind it. -/
def cutExcept : (depth : ℕ) → List Text → Option (List Text × List Text)
  | _, [] => none
  | depth, line :: rest =>
    match cutExcept (depthAfter line depth) rest with
    | some cut => some (line :: cut.1, cut.2)
    | none => if marker line = some .tryExcept ∧ depth = 1 then some ([], rest) else none

theorem eq_of_cutBlock {depth : ℕ} {lines body after : List Text}
    (h : cutBlock depth lines = some (body, after)) :
    ∃ line, marker line = some .tryEnd ∧ lines = body ++ line :: after := by
  induction lines generalizing depth body with
  | nil => cases h
  | cons line rest ih =>
    rw [cutBlock] at h
    split_ifs at h with hend
    · obtain ⟨rfl, rfl⟩ := Prod.mk.inj (Option.some.inj h)
      exact ⟨line, hend.1, rfl⟩
    · obtain ⟨⟨cut, behind⟩, hcut, heq⟩ := Option.map_eq_some_iff.mp h
      obtain ⟨rfl, rfl⟩ := Prod.mk.inj heq
      obtain ⟨last, hlast, rfl⟩ := ih hcut
      exact ⟨last, hlast, rfl⟩

theorem eq_of_cutExcept {depth : ℕ} {body guarded fallback : List Text}
    (h : cutExcept depth body = some (guarded, fallback)) :
    ∃ line, marker line = some .tryExcept ∧ body = guarded ++ line :: fallback := by
  induction body generalizing depth guarded with
  | nil => cases h
  | cons line rest ih =>
    rw [cutExcept] at h
    cases hcut : cutExcept (depthAfter line depth) rest with
    | some cut =>
      rw [hcut] at h
      obtain ⟨rfl, rfl⟩ := Prod.mk.inj (Option.some.inj h)
      obtain ⟨last, hlast, rfl⟩ := ih hcut
      exact ⟨last, hlast, rfl⟩
    | none =>
      rw [hcut] at h
      dsimp only at h
      split_ifs at h with hexcept
      obtain ⟨rfl, rfl⟩ := Prod.mk.inj (Option.some.inj h)
      exact ⟨line, hexcept.1, rfl⟩

/-- Cutting looks at markers only. -/
theorem cutBlock_skeleton (depth : ℕ) (lines : List Text) :
    cutBlock depth (skeleton lines) =
      (cutBlock depth lines).map fun cut ↦ (skeleton cut.1, skeleton cut.2) := by
  induction lines generalizing depth with
  | nil => rfl
  | cons line rest ih =>
    cases hmarker : marker line with
    | none =>
      rw [skeleton_cons_of_none hmarker, cutBlock, if_neg (by simp [hmarker]),
        depthAfter_of_none hmarker, ih, Option.map_map]
      congr 1
      funext cut
      simp [skeleton_cons_of_none hmarker]
    | some m =>
      rw [skeleton_cons_of_some hmarker, cutBlock, cutBlock]
      split_ifs
      · rfl
      · rw [ih, Option.map_map, Option.map_map]
        congr 1
        funext cut
        simp [skeleton_cons_of_some hmarker]

theorem cutExcept_skeleton (depth : ℕ) (body : List Text) :
    cutExcept depth (skeleton body) =
      (cutExcept depth body).map fun cut ↦ (skeleton cut.1, skeleton cut.2) := by
  induction body generalizing depth with
  | nil => rfl
  | cons line rest ih =>
    cases hmarker : marker line with
    | none =>
      rw [skeleton_cons_of_none hmarker, ih, cutExcept, depthAfter_of_none hmarker]
      cases cutExcept depth rest with
      | some cut => simp [skeleton_cons_of_none hmarker]
      | none => simp [hmarker]
    | some m =>
      rw [skeleton_cons_of_some hmarker, cutExcept, cutExcept, ih]
      cases cutExcept (depthAfter line depth) rest with
      | some cut => simp [skeleton_cons_of_some hmarker]
      | none =>
        dsimp only [Option.map_none]
        split_ifs <;> rfl

/-! ### The positions of the source -/

theorem scanBlock_cons (depth index : ℕ) (exceptIndex : Option ℕ) (line : Text)
    (rest : List Text) :
    scanBlock depth index exceptIndex (line :: rest) =
      if marker line = some .tryEnd ∧ depth = 1 then (exceptIndex, some index)
      else scanBlock (depthAfter line depth) (index + 1)
        (if marker line = some .tryExcept ∧ depth = 1 then some index else exceptIndex) rest := by
  rw [scanBlock]
  by_cases hbegin : trim line = "__TRY_BEGIN__".toList
  · have hmarker : marker line = some .tryBegin := by rw [marker, if_pos hbegin]
    rw [if_pos hbegin, depthAfter, hmarker]
    simp
  · rw [if_neg hbegin]
    by_cases hend : trim line = "__TRY_END__".toList
    · have hmarker : marker line = some .tryEnd := by rw [marker, if_neg hbegin, if_pos hend]
      rw [if_pos hend, depthAfter, hmarker]
      simp
    · rw [if_neg hend]
      by_cases hexcept : trim line = "__TRY_EXCEPT__".toList
      · have hmarker : marker line = some .tryExcept := by
          rw [marker, if_neg hbegin, if_neg hend, if_pos hexcept]
        rw [depthAfter, hmarker]
        by_cases hdepth : depth = 1 <;> simp [hexcept, hdepth]
      · have hmarker : marker line = none := by
          rw [marker, if_neg hbegin, if_neg hend, if_neg hexcept]
        rw [if_neg fun h ↦ hexcept h.1, depthAfter_of_none hmarker, hmarker]
        simp

/-- The end that `scanBlock` finds is where `cutBlock` cuts. -/
theorem scanBlock_snd (depth index : ℕ) (exceptIndex : Option ℕ) (lines : List Text) :
    (scanBlock depth index exceptIndex lines).2 =
      (cutBlock depth lines).map fun cut ↦ index + cut.1.length := by
  induction lines generalizing depth index exceptIndex with
  | nil => rfl
  | cons line rest ih =>
    rw [scanBlock_cons, cutBlock]
    by_cases hend : marker line = some .tryEnd ∧ depth = 1
    · rw [if_pos hend, if_pos hend]
      rfl
    · rw [if_neg hend, if_neg hend, ih, Option.map_map]
      congr 1
      funext cut
      simp only [Function.comp, List.length_cons]
      omega

/-- The `{$except}` that `scanBlock` finds is where `cutExcept` cuts the body. -/
theorem scanBlock_fst {depth index : ℕ} {exceptIndex : Option ℕ} {lines body after : List Text}
    (h : cutBlock depth lines = some (body, after)) :
    (scanBlock depth index exceptIndex lines).1 =
      ((cutExcept depth body).map fun cut ↦ index + cut.1.length).or exceptIndex := by
  induction lines generalizing depth index exceptIndex body with
  | nil => cases h
  | cons line rest ih =>
    rw [cutBlock] at h
    rw [scanBlock_cons]
    split_ifs at h with hend
    · obtain ⟨rfl, -⟩ := Prod.mk.inj (Option.some.inj h)
      rw [if_pos hend]
      rfl
    · obtain ⟨⟨inner, behind⟩, hcut, heq⟩ := Option.map_eq_some_iff.mp h
      obtain ⟨rfl, rfl⟩ := Prod.mk.inj heq
      rw [if_neg hend, ih hcut, cutExcept]
      cases cutExcept (depthAfter line depth) inner with
      | some cut =>
        simp only [Option.map_some, Option.some_or, List.length_cons, Option.some.injEq]
        omega
      | none =>
        dsimp only
        split_ifs <;> rfl

/-! ### Selecting -/

variable {symbols : Symbols} {proc : Option Target}

/-- The branch of a block that is selected, with the log entry. -/
def chosenBranch (symbols : Symbols) (proc : Option Target) (guarded fallback : List Text) :
    List Text × Text :=
  match tryBranchFails symbols proc guarded with
  | none => (guarded, "TRY: selected guarded block".toList)
  | some reason => (fallback, "TRY: selected \x7b$except\x7d block (".toList ++ reason ++ [')'])

/-- Selecting the chosen branch of each block does not fail. -/
inductive Selectable (symbols : Symbols) (proc : Option Target) : List Text → Prop
  | nil : Selectable symbols proc []
  | line {line : Text} {rest : List Text} (hline : marker line = none)
      (hrest : Selectable symbols proc rest) : Selectable symbols proc (line :: rest)
  | block {line : Text} {rest body after guarded fallback : List Text}
      (hline : marker line = some .tryBegin) (hbody : cutBlock 1 rest = some (body, after))
      (hexcept : cutExcept 1 body = some (guarded, fallback))
      (hbranch : Selectable symbols proc (chosenBranch symbols proc guarded fallback).1)
      (hafter : Selectable symbols proc after) : Selectable symbols proc (line :: rest)

theorem trim_of_marker {line : Text} (h : marker line = some .tryBegin) :
    trim line = "__TRY_BEGIN__".toList := by
  unfold marker at h
  split_ifs at h with hbegin
  · exact hbegin
  all_goals simp at h

theorem marker_eq_none_iff (line : Text) :
    marker line = none ↔ trim line ≠ "__TRY_BEGIN__".toList ∧
      ¬(trim line = "__TRY_EXCEPT__".toList ∨ trim line = "__TRY_END__".toList) := by
  unfold marker
  split_ifs <;> simp_all

/-- A turn at a block. -/
theorem selectBranches_block {turns : ℕ} {line : Text} {rest body after guarded fallback : List Text}
    (log : List Text) (hline : marker line = some .tryBegin)
    (hbody : cutBlock 1 rest = some (body, after))
    (hexcept : cutExcept 1 body = some (guarded, fallback)) :
    selectBranches symbols proc (turns + 1) (line :: rest) log =
      match selectBranches symbols proc turns (chosenBranch symbols proc guarded fallback).1 log with
      | (.error error, log) => (.error error, log)
      | (.ok selected, log) =>
        match selectBranches symbols proc turns after
          (log ++ [(chosenBranch symbols proc guarded fallback).2]) with
        | (.error error, log) => (.error error, log)
        | (.ok more, log) => (.ok (selected ++ more), log) := by
  obtain ⟨last, -, hrest⟩ := eq_of_cutBlock hbody
  obtain ⟨middle, -, hinner⟩ := eq_of_cutExcept hexcept
  have hscan : scanBlock 1 0 none rest = (some guarded.length, some body.length) := by
    refine Prod.ext ?_ ?_
    · rw [scanBlock_fst hbody, hexcept]
      simp
    · rw [scanBlock_snd, hbody]
      simp
  have hguarded : rest.take guarded.length = guarded := by
    rw [hrest, hinner, List.append_assoc, List.take_left]
  have hfallback : (rest.take body.length).drop (guarded.length + 1) = fallback := by
    rw [hrest, List.take_left, hinner, ← List.singleton_append, ← List.append_assoc]
    exact List.drop_left' (by simp)
  have hafter : rest.drop (body.length + 1) = after := by
    rw [hrest, ← List.singleton_append, ← List.append_assoc]
    exact List.drop_left' (by simp)
  rw [selectBranches, if_pos (trim_of_marker hline), hscan]
  dsimp only
  rw [hguarded, hfallback, hafter]
  unfold chosenBranch
  cases tryBranchFails symbols proc guarded <;> rfl

/-- A turn at a block that is not closed, or that has no `{$except}`. -/
theorem selectBranches_unclosed {turns : ℕ} {line : Text} {rest log selected : List Text}
    (hline : marker line = some .tryBegin)
    (h : (selectBranches symbols proc (turns + 1) (line :: rest) log).1 = .ok selected) :
    ∃ body after guarded fallback, cutBlock 1 rest = some (body, after) ∧
      cutExcept 1 body = some (guarded, fallback) := by
  rw [selectBranches, if_pos (trim_of_marker hline)] at h
  have hend := scanBlock_snd 1 0 none rest
  cases hbody : cutBlock 1 rest with
  | none =>
    rw [hbody, Option.map_none] at hend
    have hscan : scanBlock 1 0 none rest = ((scanBlock 1 0 none rest).1, none) :=
      Prod.ext rfl hend
    rw [hscan] at h
    simp at h
  | some cut =>
    obtain ⟨body, after⟩ := cut
    cases hexcept : cutExcept 1 body with
    | none =>
      have hfst := @scanBlock_fst 1 0 none rest body after hbody
      rw [hexcept] at hfst
      rw [hbody] at hend
      have hscan : scanBlock 1 0 none rest = (none, some (0 + body.length)) :=
        Prod.ext hfst hend
      rw [hscan] at h
      simp at h
    | some parts => exact ⟨body, after, parts.1, parts.2, rfl, hexcept⟩

theorem selectBranches_block_ok {turns : ℕ} {line : Text}
    {rest body after guarded fallback : List Text} (log : List Text)
    (hline : marker line = some .tryBegin) (hbody : cutBlock 1 rest = some (body, after))
    (hexcept : cutExcept 1 body = some (guarded, fallback)) :
    (∃ selected, (selectBranches symbols proc (turns + 1) (line :: rest) log).1 = .ok selected) ↔
      let branch := selectBranches symbols proc turns
        (chosenBranch symbols proc guarded fallback).1 log
      (∃ taken, branch.1 = .ok taken) ∧ ∃ more, (selectBranches symbols proc turns after
        (branch.2 ++ [(chosenBranch symbols proc guarded fallback).2])).1 = .ok more := by
  rw [selectBranches_block log hline hbody hexcept]
  cases selectBranches symbols proc turns (chosenBranch symbols proc guarded fallback).1 log with
  | mk outcome left =>
    cases outcome with
    | error error => simp
    | ok taken =>
      dsimp only
      cases selectBranches symbols proc turns after
        (left ++ [(chosenBranch symbols proc guarded fallback).2]) with
      | mk outcome behind => cases outcome <;> simp

theorem selectBranches_line_ok {turns : ℕ} {line : Text} (rest log : List Text)
    (hline : marker line = none) :
    (∃ selected, (selectBranches symbols proc (turns + 1) (line :: rest) log).1 = .ok selected) ↔
      ∃ more, (selectBranches symbols proc turns rest log).1 = .ok more := by
  obtain ⟨hbegin, hother⟩ := (marker_eq_none_iff line).mp hline
  rw [selectBranches, if_neg hbegin, if_neg hother]
  cases selectBranches symbols proc turns rest log with
  | mk outcome left => cases outcome <;> simp

/-- An `{$except}` or an `{$endtry}` outside of a block is refused. -/
theorem selectBranches_stray {turns : ℕ} {line : Text} {rest log selected : List Text}
    (hline : marker line = some .tryExcept ∨ marker line = some .tryEnd) :
    (selectBranches symbols proc (turns + 1) (line :: rest) log).1 ≠ .ok selected := by
  have hnone : ¬marker line = none := by
    rcases hline with hline | hline <;> simp [hline]
  have hbegin : trim line ≠ "__TRY_BEGIN__".toList := by
    intro heq
    simp [marker, heq] at hline
  rw [marker_eq_none_iff, not_and_not_right] at hnone
  rw [selectBranches, if_neg hbegin, if_pos (hnone hbegin)]
  simp

theorem length_of_cut {rest body after guarded fallback : List Text}
    (hbody : cutBlock 1 rest = some (body, after))
    (hexcept : cutExcept 1 body = some (guarded, fallback)) :
    guarded.length < rest.length ∧ fallback.length < rest.length ∧ after.length < rest.length := by
  obtain ⟨last, -, rfl⟩ := eq_of_cutBlock hbody
  obtain ⟨middle, -, rfl⟩ := eq_of_cutExcept hexcept
  simp only [List.length_append, List.length_cons]
  omega

theorem length_chosenBranch {rest body after guarded fallback : List Text}
    (hbody : cutBlock 1 rest = some (body, after))
    (hexcept : cutExcept 1 body = some (guarded, fallback)) :
    (chosenBranch symbols proc guarded fallback).1.length < rest.length := by
  obtain ⟨hguarded, hfallback, -⟩ := length_of_cut hbody hexcept
  unfold chosenBranch
  split
  · exact hguarded
  · exact hfallback

/-- `selectTryExceptBranches` succeeds exactly when selecting can. -/
theorem selectBranches_ok_iff {turns : ℕ} {lines : List Text} (hturns : lines.length ≤ turns)
    (log : List Text) :
    (∃ selected, (selectBranches symbols proc turns lines log).1 = .ok selected) ↔
      Selectable symbols proc lines := by
  induction turns generalizing lines log with
  | zero =>
    obtain rfl := List.length_eq_zero_iff.mp (Nat.le_zero.mp hturns)
    exact ⟨fun _ ↦ .nil, fun _ ↦ ⟨[], rfl⟩⟩
  | succ turns ih =>
    cases lines with
    | nil => exact ⟨fun _ ↦ .nil, fun _ ↦ ⟨[], rfl⟩⟩
    | cons line rest =>
      have hrest : rest.length ≤ turns := Nat.succ_le_succ_iff.mp hturns
      constructor
      · rintro ⟨selected, h⟩
        cases hmarker : marker line with
        | none =>
          exact .line hmarker ((ih hrest log).mp
            ((selectBranches_line_ok rest log hmarker).mp ⟨selected, h⟩))
        | some m =>
          cases m with
          | tryBegin =>
            obtain ⟨body, after, guarded, fallback, hbody, hexcept⟩ :=
              selectBranches_unclosed hmarker h
            obtain ⟨-, -, hafter⟩ := length_of_cut hbody hexcept
            have hchosen := @length_chosenBranch symbols proc _ _ _ _ _ hbody hexcept
            obtain ⟨htaken, hmore⟩ :=
              (selectBranches_block_ok log hmarker hbody hexcept).mp ⟨selected, h⟩
            exact .block hmarker hbody hexcept ((ih (by omega) _).mp htaken)
              ((ih (by omega) _).mp hmore)
          | tryExcept => exact absurd h (selectBranches_stray (.inl hmarker))
          | tryEnd => exact absurd h (selectBranches_stray (.inr hmarker))
      · intro h
        cases h with
        | line hline hselect =>
          exact (selectBranches_line_ok rest log hline).mpr ((ih hrest log).mpr hselect)
        | block hline hbody hexcept hbranch hafter =>
          obtain ⟨-, -, hlength⟩ := length_of_cut hbody hexcept
          have hchosen := @length_chosenBranch symbols proc _ _ _ _ _ hbody hexcept
          exact (selectBranches_block_ok log hline hbody hexcept).mpr
            ⟨(ih (by omega) _).mpr hbranch, (ih (by omega) _).mpr hafter⟩

/-! ### Markers alone -/

/-- With every block entered by its guarded branch, only the markers decide. -/
theorem Selectable.skeleton {lines : List Text} (h : Selectable symbols none lines)
    (others : Symbols) : Selectable others none (AutoAsm.skeleton lines) := by
  induction h with
  | nil => exact .nil
  | line hline _ ih =>
    rw [skeleton_cons_of_none hline]
    exact ih
  | @block line rest body after guarded fallback hline hbody hexcept _ _ ihbranch ihafter =>
    rw [skeleton_cons_of_some hline]
    have hbodySkeleton := cutBlock_skeleton 1 rest
    have hexceptSkeleton := cutExcept_skeleton 1 body
    rw [hbody, Option.map_some] at hbodySkeleton
    rw [hexcept, Option.map_some] at hexceptSkeleton
    exact .block hline hbodySkeleton hexceptSkeleton ihbranch ihafter

theorem Selectable.of_skeleton {lines : List Text}
    (h : Selectable symbols none (AutoAsm.skeleton lines)) (others : Symbols) :
    Selectable others none lines := by
  induction hlength : lines.length using Nat.strong_induction_on generalizing lines with
  | _ length ih =>
    subst hlength
    cases lines with
    | nil => exact .nil
    | cons line rest =>
      cases hmarker : marker line with
      | none =>
        rw [skeleton_cons_of_none hmarker] at h
        exact .line hmarker (ih rest.length (by simp) h rfl)
      | some m =>
        rw [skeleton_cons_of_some hmarker] at h
        cases h with
        | line hline => simp [hmarker] at hline
        | block hline hbody hexcept hbranch hafter =>
          rw [cutBlock_skeleton] at hbody
          obtain ⟨⟨body, after⟩, hcut, heq⟩ := Option.map_eq_some_iff.mp hbody
          obtain ⟨rfl, rfl⟩ := Prod.mk.inj heq
          rw [cutExcept_skeleton] at hexcept
          obtain ⟨⟨guarded, fallback⟩, hparts, heq⟩ := Option.map_eq_some_iff.mp hexcept
          obtain ⟨rfl, rfl⟩ := Prod.mk.inj heq
          obtain ⟨hguarded, -, hlength⟩ := length_of_cut hcut hparts
          refine .block hline hcut hparts ?_ (ih after.length (by simp; omega) hafter rfl)
          exact ih guarded.length (by simp; omega) hbranch rfl

/-! ### Branches -/

/-- A block with its two branches. -/
structure Block where
  guarded : List Text
  fallback : List Text

/-- The blocks of a branch that are in no other block; no list when a marker has no partner. -/
inductive Level : List Text → List Block → Prop
  | nil : Level [] []
  | line {line : Text} {rest : List Text} {blocks : List Block} (hline : marker line = none)
      (hrest : Level rest blocks) : Level (line :: rest) blocks
  | block {line : Text} {rest body after guarded fallback : List Text} {blocks : List Block}
      (hline : marker line = some .tryBegin) (hbody : cutBlock 1 rest = some (body, after))
      (hexcept : cutExcept 1 body = some (guarded, fallback)) (hafter : Level after blocks) :
      Level (line :: rest) (⟨guarded, fallback⟩ :: blocks)

/-- Every marker of the branch that is in no block of the branch has its partners. -/
def Closed (branch : List Text) : Prop := ∃ blocks, Level branch blocks

/-- A block on the way into a branch, and whether the way goes through its guarded branch. -/
structure Choice where
  block : Block
  intoGuarded : Bool

/-- The branch of the choice. -/
def Choice.branch (c : Choice) : List Text :=
  if c.intoGuarded then c.block.guarded else c.block.fallback

/-- The branches inside of a list of lines, at any depth, each with the choices that lead to it. -/
inductive Reaches : List Text → List Choice → List Text → Prop
  | here (lines : List Text) : Reaches lines [] lines
  | into {lines : List Text} {blocks : List Block} {c : Choice} {choices : List Choice}
      {branch : List Text} (hlevel : Level lines blocks) (hblock : c.block ∈ blocks)
      (hrest : Reaches c.branch choices branch) : Reaches lines (c :: choices) branch

/-- The choice is the one that the guarded branch decides on. -/
def Choice.Taken (symbols : Symbols) (proc : Option Target) (c : Choice) : Prop :=
  c.intoGuarded = (tryBranchFails symbols proc c.block.guarded).isNone

theorem Choice.Taken.branch_eq {c : Choice} (h : c.Taken symbols proc) :
    c.branch = (chosenBranch symbols proc c.block.guarded c.block.fallback).1 := by
  rw [Choice.branch, h, chosenBranch]
  cases tryBranchFails symbols proc c.block.guarded <;> rfl

theorem Level.unique {lines : List Text} {blocks others : List Block} (h : Level lines blocks)
    (hothers : Level lines others) : blocks = others := by
  induction h generalizing others with
  | nil =>
    cases hothers
    rfl
  | line hline _ ih =>
    cases hothers with
    | line _ hrest => exact ih hrest
    | block hbegin => simp [hline] at hbegin
  | block hline hbody hexcept _ ih =>
    cases hothers with
    | line hnone => simp [hline] at hnone
    | block _ hbody' hexcept' hafter =>
      obtain ⟨rfl, rfl⟩ := Prod.mk.inj (Option.some.inj (hbody.symm.trans hbody'))
      obtain ⟨rfl, rfl⟩ := Prod.mk.inj (Option.some.inj (hexcept.symm.trans hexcept'))
      rw [ih hafter]

/-- A branch of a block is shorter than the lines around the block. -/
theorem Level.length_branch {lines : List Text} {blocks : List Block} (h : Level lines blocks)
    {c : Choice} (hc : c.block ∈ blocks) : c.branch.length < lines.length := by
  induction h with
  | nil => cases hc
  | line _ _ ih => exact (ih hc).trans (Nat.lt_succ_self _)
  | block _ hbody hexcept _ ih =>
    obtain ⟨hguarded, hfallback, hafter⟩ := length_of_cut hbody hexcept
    rcases List.mem_cons.mp hc with heq | hmem
    · rw [Choice.branch, heq, List.length_cons]
      split_ifs <;> dsimp only <;> omega
    · have := ih hmem
      rw [List.length_cons]
      omega

/-- The level of lines that can be selected, and the chosen branches of its blocks. -/
theorem Selectable.level {lines : List Text} (h : Selectable symbols proc lines) :
    ∃ blocks, Level lines blocks ∧
      ∀ b ∈ blocks, Selectable symbols proc (chosenBranch symbols proc b.guarded b.fallback).1 := by
  induction h with
  | nil => exact ⟨[], .nil, by simp⟩
  | line hline _ ih =>
    obtain ⟨blocks, hlevel, hblocks⟩ := ih
    exact ⟨blocks, .line hline hlevel, hblocks⟩
  | block hline hbody hexcept hbranch _ _ ih =>
    obtain ⟨blocks, hlevel, hblocks⟩ := ih
    refine ⟨_, .block hline hbody hexcept hlevel, fun b hb ↦ ?_⟩
    rcases List.mem_cons.mp hb with rfl | hmem
    · exact hbranch
    · exact hblocks b hmem

theorem Level.selectable {lines : List Text} {blocks : List Block} (h : Level lines blocks)
    (hblocks : ∀ b ∈ blocks,
      Selectable symbols proc (chosenBranch symbols proc b.guarded b.fallback).1) :
    Selectable symbols proc lines := by
  induction h with
  | nil => exact .nil
  | line hline _ ih => exact .line hline (ih hblocks)
  | block hline hbody hexcept _ ih =>
    exact .block hline hbody hexcept (hblocks _ List.mem_cons_self)
      (ih fun b hb ↦ hblocks b (List.mem_cons_of_mem _ hb))

/-- Selecting succeeds exactly when every branch that the decisions lead to is closed. -/
theorem selectable_iff {lines : List Text} :
    Selectable symbols proc lines ↔ ∀ choices branch, Reaches lines choices branch →
      (∀ c ∈ choices, c.Taken symbols proc) → Closed branch := by
  constructor
  · intro h choices branch hreaches htaken
    induction hreaches with
    | here lines =>
      obtain ⟨blocks, hlevel, -⟩ := h.level
      exact ⟨blocks, hlevel⟩
    | @into lines blocks c choices branch hlevel hblock _ ih =>
      obtain ⟨others, hothers, hbranches⟩ := h.level
      obtain rfl := hlevel.unique hothers
      refine ih ?_ fun d hd ↦ htaken d (List.mem_cons_of_mem _ hd)
      rw [(htaken c List.mem_cons_self).branch_eq]
      exact hbranches c.block hblock
  · intro h
    induction hlength : lines.length using Nat.strong_induction_on generalizing lines with
    | _ length ih =>
      subst hlength
      obtain ⟨blocks, hlevel⟩ := h [] lines (.here lines) (by simp)
      refine hlevel.selectable fun b hb ↦ ?_
      let c : Choice := ⟨b, (tryBranchFails symbols proc b.guarded).isNone⟩
      have hc : c.Taken symbols proc := rfl
      rw [← hc.branch_eq]
      refine ih c.branch.length (hlevel.length_branch hb) (fun choices branch hreaches htaken ↦ ?_)
        rfl
      refine h (c :: choices) branch (.into hlevel hb hreaches) fun d hd ↦ ?_
      rcases List.mem_cons.mp hd with rfl | hmem
      · exact hc
      · exact htaken d hmem

/-- When the markers of the lines can be selected without a target, only the ways through an
`{$except}` branch are left to look at. -/
theorem selectable_iff_of_checked {others : Symbols} {checked lines : List Text}
    (hchecked : Selectable others none checked)
    (hskeleton : AutoAsm.skeleton checked = AutoAsm.skeleton lines) :
    Selectable symbols proc lines ↔ ∀ choices branch, Reaches lines choices branch →
      (∃ c ∈ choices, c.intoGuarded = false) →
      (∀ c ∈ choices, c.Taken symbols proc) → Closed branch := by
  constructor
  · intro h choices branch hreaches _ htaken
    exact selectable_iff.mp h choices branch hreaches htaken
  · intro h
    have hguarded : Selectable others none lines :=
      .of_skeleton (hskeleton ▸ hchecked.skeleton others) others
    refine selectable_iff.mpr fun choices branch hreaches htaken ↦ ?_
    by_cases hfallback : ∃ c ∈ choices, c.intoGuarded = false
    · exact h choices branch hreaches hfallback htaken
    · refine selectable_iff.mp hguarded choices branch hreaches fun c hc ↦ ?_
      -- without a target every guarded branch is taken
      cases hinto : c.intoGuarded with
      | false => exact absurd ⟨c, hc, hinto⟩ hfallback
      | true => exact hinto

end Cecore.AutoAsm
