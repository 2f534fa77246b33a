import Mathlib.Data.Set.Finite.Lattice
import Mathlib.Order.Interval.Set.Nat

/-!
# Loops that may not end

A loop takes steps until one gives a result; `run` has fuel for a number of steps. Where a measure
decreases with every step the loop ends (`ends_of_measure`). Where it decreases with every step but
those that feed the loop, the loop ends exactly if it is fed finitely often (`ends_iff_finite`).
-/

set_option autoImplicit false
set_option relaxedAutoImplicit false

namespace Cecore.Library.Loops

variable {σ ρ : Type} (step : σ → σ ⊕ ρ)

/-- The result, if there is one within the given number of steps. -/
def run : (fuel : ℕ) → σ → Option ρ
  | 0, _ => none
  | fuel + 1, s =>
    match step s with
    | .inl s' => run fuel s'
    | .inr r => some r

/-- The state in front of a step, if the loop gets there. -/
def stateAt : (turn : ℕ) → σ → Option σ
  | 0, s => some s
  | turn + 1, s =>
    match step s with
    | .inl s' => stateAt turn s'
    | .inr _ => none

def Ends (s : σ) : Prop := ∃ fuel r, run step fuel s = some r

variable {step} {s s' : σ} {r : ρ}

theorem run_of_next (h : step s = .inl s') (fuel : ℕ) :
    run step (fuel + 1) s = run step fuel s' := by
  rw [run, h]

theorem run_of_result (h : step s = .inr r) (fuel : ℕ) : run step (fuel + 1) s = some r := by
  rw [run, h]

theorem run_mono {fuel more : ℕ} (hle : fuel ≤ more) (h : run step fuel s = some r) :
    run step more s = some r := by
  induction fuel generalizing s more with
  | zero => cases h
  | succ fuel ih =>
    obtain ⟨more, rfl⟩ : ∃ m, more = m + 1 := ⟨more - 1, by omega⟩
    cases hstep : step s with
    | inl s' =>
      rw [run_of_next hstep] at h ⊢
      exact ih (by omega) h
    | inr r' =>
      rw [run_of_result hstep] at h ⊢
      exact h

theorem run_unique {first second : ℕ} {r' : ρ} (h : run step first s = some r)
    (h' : run step second s = some r') : r = r' :=
  Option.some.inj ((run_mono (Nat.le_max_left first second) h).symm.trans
    (run_mono (Nat.le_max_right first second) h'))

theorem ends_of_next (h : step s = .inl s') : Ends step s ↔ Ends step s' := by
  constructor
  · rintro ⟨fuel, r, hrun⟩
    cases fuel with
    | zero => cases hrun
    | succ fuel => exact ⟨fuel, r, by rwa [run_of_next h] at hrun⟩
  · rintro ⟨fuel, r, hrun⟩
    exact ⟨fuel + 1, r, by rwa [run_of_next h]⟩

theorem ends_of_result (h : step s = .inr r) : Ends step s := ⟨1, r, run_of_result h 0⟩

/-- A measure that decreases with every step. -/
theorem ends_of_measure (μ : σ → ℕ) (hμ : ∀ s s', step s = .inl s' → μ s' < μ s) (s : σ) :
    Ends step s := by
  induction hm : μ s using Nat.strong_induction_on generalizing s with
  | _ m ih =>
    cases hstep : step s with
    | inl s' => exact (ends_of_next hstep).mpr (ih (μ s') (by rw [← hm]; exact hμ s s' hstep) s' rfl)
    | inr r => exact ends_of_result hstep

/-- A property of the states that all steps keep leads to a property of the result. -/
theorem of_run {P : σ → Prop} {Q : ρ → Prop} (hnext : ∀ s s', P s → step s = .inl s' → P s')
    (hresult : ∀ s r, P s → step s = .inr r → Q r) {fuel : ℕ} (hs : P s)
    (h : run step fuel s = some r) : Q r := by
  induction fuel generalizing s with
  | zero => cases h
  | succ fuel ih =>
    cases hstep : step s with
    | inl s' =>
      rw [run_of_next hstep] at h
      exact ih (hnext s s' hs hstep) h
    | inr r' =>
      rw [run_of_result hstep] at h
      cases h
      exact hresult s r hs hstep

/-- A loop in a state that all steps keep, and that has no result, does not end. -/
theorem not_ends {P : σ → Prop} (hnext : ∀ s, P s → ∃ s', step s = .inl s' ∧ P s') (hs : P s) :
    ¬Ends step s := by
  rintro ⟨fuel, r, h⟩
  induction fuel generalizing s with
  | zero => cases h
  | succ fuel ih =>
    obtain ⟨s', hstep, hs'⟩ := hnext s hs
    rw [run_of_next hstep] at h
    exact ih hs' h

/-! ### Steps that feed a loop -/

theorem stateAt_eq_none {fuel : ℕ} (h : run step fuel s = some r) {turn : ℕ} (hle : fuel ≤ turn) :
    stateAt step turn s = none := by
  induction fuel generalizing s turn with
  | zero => cases h
  | succ fuel ih =>
    obtain ⟨turn, rfl⟩ : ∃ m, turn = m + 1 := ⟨turn - 1, by omega⟩
    cases hstep : step s with
    | inl s' =>
      rw [run_of_next hstep] at h
      rw [stateAt, hstep]
      exact ih h (by omega)
    | inr r' => rw [stateAt, hstep]

/-- A loop that is not fed from some step on ends. -/
theorem ends_of_unfed {fed : σ → Prop} (μ : σ → ℕ)
    (hμ : ∀ s s', step s = .inl s' → ¬fed s → μ s' < μ s) {bound : ℕ}
    (hbound : ∀ turn ≥ bound, ∀ s', stateAt step turn s = some s' → ¬fed s') : Ends step s := by
  induction bound generalizing s with
  | zero =>
    -- Nothing feeds the loop any more, so the measure bounds it.
    induction hm : μ s using Nat.strong_induction_on generalizing s with
    | _ m ih =>
      cases hstep : step s with
      | inl s' =>
        have hless := hμ s s' hstep (hbound 0 (le_refl 0) s rfl)
        refine (ends_of_next hstep).mpr (ih (μ s') (by omega) (fun turn _ s'' h ↦ ?_) rfl)
        exact hbound (turn + 1) (Nat.zero_le _) s'' (by rw [stateAt, hstep]; exact h)
      | inr r => exact ends_of_result hstep
  | succ bound ih =>
    cases hstep : step s with
    | inl s' =>
      refine (ends_of_next hstep).mpr (ih fun turn hle s'' h ↦ ?_)
      exact hbound (turn + 1) (by omega) s'' (by rw [stateAt, hstep]; exact h)
    | inr r => exact ends_of_result hstep

/-- The loop ends exactly if it is fed finitely often. -/
theorem ends_iff_finite {fed : σ → Prop} (μ : σ → ℕ)
    (hμ : ∀ s s', step s = .inl s' → ¬fed s → μ s' < μ s) (s : σ) :
    Ends step s ↔ {turn | ∃ s', stateAt step turn s = some s' ∧ fed s'}.Finite := by
  constructor
  · rintro ⟨fuel, r, h⟩
    refine (Set.finite_Iio fuel).subset ?_
    rintro turn ⟨s', hs', -⟩
    by_contra hge
    rw [stateAt_eq_none h (Nat.not_lt.mp hge)] at hs'
    cases hs'
  · intro hfinite
    obtain ⟨bound, hbound⟩ := hfinite.bddAbove
    refine @ends_of_unfed _ _ _ _ fed μ hμ (bound + 1) fun turn hle s' hs' hfed ↦ ?_
    have := hbound ⟨s', hs', hfed⟩
    omega

end Cecore.Library.Loops
