import Mathlib.Data.List.Infix

/-!
# Call stacks

A thread of control that calls and returns, with the return addresses of the activations it is in.
`Advances.return_place` is the principle of well-nested control: where the stack first gets shorter
than it was, control is at the return address on top of what it was.
-/

set_option autoImplicit false
set_option relaxedAutoImplicit false

namespace Cecore.Library.CallStack

variable {α : Type}

/-- Where control is, and the return addresses of the open activations, innermost first. -/
structure Moment (α : Type) where
  place : α
  frames : List α

/-- One instruction; `returnAddress` is there for the places of calls. -/
inductive Advance (returnAddress : α → Option α) (m next : Moment α) : Prop
  | call (address : α) (hcall : returnAddress m.place = some address)
      (hframes : next.frames = address :: m.frames)
  | ret (hcall : returnAddress m.place = none) (hframes : m.frames = next.place :: next.frames)
  | plain (hcall : returnAddress m.place = none) (hframes : next.frames = m.frames)

/-- An execution. -/
def Advances (returnAddress : α → Option α) (flow : ℕ → Moment α) : Prop :=
  ∀ i, Advance returnAddress (flow i) (flow (i + 1))

/-- The activation of the start goes on at `finish`, after a call. -/
structure Returns (flow : ℕ → Moment α) (finish : ℕ) : Prop where
  later : 0 < finish
  back : (flow finish).frames = (flow 0).frames
  deeper : ∀ i, 0 < i → i < finish → (flow 0).frames.length < (flow i).frames.length

/-- The activation of the start ends at `finish`. -/
structure Leaves (flow : ℕ → Moment α) (finish : ℕ) : Prop where
  shorter : (flow finish).frames.length < (flow 0).frames.length
  within : ∀ i < finish, (flow 0).frames.length ≤ (flow i).frames.length

variable {returnAddress : α → Option α} {flow : ℕ → Moment α} {start finish : ℕ} {base : List α}

/-- As long as the stack does not get shorter, what it was stays below. -/
theorem Advances.suffix (h : Advances returnAddress flow) (hstart : base <:+ (flow start).frames)
    {n : ℕ} (hlength : ∀ i, start ≤ i → i ≤ start + n → base.length ≤ (flow i).frames.length) :
    base <:+ (flow (start + n)).frames := by
  induction n with
  | zero => exact hstart
  | succ n ih =>
    have hbelow := ih fun i hi hle ↦ hlength i hi (by omega)
    have hnext := hlength (start + (n + 1)) (by omega) le_rfl
    rw [← Nat.add_assoc] at hnext ⊢
    rcases h (start + n) with ⟨address, -, hframes⟩ | ⟨-, hframes⟩ | ⟨-, hframes⟩
    · rw [hframes]
      exact hbelow.trans (List.suffix_cons _ _)
    · rw [hframes] at hbelow
      rcases List.suffix_cons_iff.mp hbelow with hall | htail
      · have hlong := congrArg List.length hall
        rw [List.length_cons] at hlong
        omega
      · exact htail
    · rw [hframes]
      exact hbelow

/-- Where the stack first gets shorter, control is at the return address on top. -/
theorem Advances.return_place (h : Advances returnAddress flow)
    (hstart : base <:+ (flow start).frames) (hlater : start < finish)
    (hlength : ∀ i, start ≤ i → i < finish → base.length ≤ (flow i).frames.length)
    (hshort : (flow finish).frames.length < base.length) :
    base = (flow finish).place :: (flow finish).frames := by
  obtain ⟨n, rfl⟩ : ∃ n, finish = start + n + 1 := ⟨finish - start - 1, by omega⟩
  have hbelow := h.suffix hstart (n := n) fun i hi hle ↦ hlength i hi (by omega)
  have hlast := hlength (start + n) (by omega) (by omega)
  rcases h (start + n) with ⟨address, -, hframes⟩ | ⟨-, hframes⟩ | ⟨-, hframes⟩
  · rw [hframes, List.length_cons] at hshort
    omega
  · have hsame : base = (flow (start + n)).frames := by
      refine hbelow.eq_of_length ?_
      have hlong := congrArg List.length hframes
      rw [List.length_cons] at hlong
      omega
    rw [hsame, hframes]
  · rw [hframes] at hshort
    omega

/-- A call pushes its return address. -/
theorem Advances.frames_call (hflow : Advances returnAddress flow) {address : α}
    (hcall : returnAddress (flow start).place = some address) :
    (flow (start + 1)).frames = address :: (flow start).frames := by
  rcases hflow start with ⟨found, hfound, hframes⟩ | ⟨hnone, -⟩ | ⟨hnone, -⟩
  · rw [hcall] at hfound
    rw [hframes, Option.some.inj hfound]
  · rw [hcall] at hnone
    cases hnone
  · rw [hcall] at hnone
    cases hnone

/-- A call does not return at once. -/
theorem Returns.after_callee (hflow : Advances returnAddress flow) (h : Returns flow finish)
    {address : α} (hcall : returnAddress (flow 0).place = some address) : 1 < finish := by
  have hfirst := hflow.frames_call hcall
  rcases Nat.lt_or_ge 1 finish with hlt | hle
  · exact hlt
  · have hone : finish = 1 := Nat.le_antisymm hle h.later
    have hback := h.back
    rw [hone, hfirst] at hback
    exact absurd (congrArg List.length hback) (by simp)

/-- A call returns to its return address. -/
theorem Returns.place (hflow : Advances returnAddress flow) (h : Returns flow finish) {address : α}
    (hcall : returnAddress (flow 0).place = some address) : (flow finish).place = address := by
  have hfirst : (flow 1).frames = address :: (flow 0).frames := hflow.frames_call hcall
  have hplace := hflow.return_place (List.suffix_refl _) (h.after_callee hflow hcall)
    (fun i hi hlt ↦ by
      rw [hfirst, List.length_cons]
      exact h.deeper i (by omega) hlt)
    (by rw [hfirst, h.back, List.length_cons]; omega)
  rw [hfirst] at hplace
  exact (List.cons.inj hplace).1.symm

/-- An activation does not end where it starts. -/
theorem Leaves.later (h : Leaves flow finish) : 0 < finish := by
  rcases Nat.eq_zero_or_pos finish with hzero | hpos
  · have hshort := h.shorter
    rw [hzero] at hshort
    exact absurd hshort (lt_irrefl _)
  · exact hpos

/-- An activation ends at its return address. -/
theorem Leaves.place (hflow : Advances returnAddress flow) (h : Leaves flow finish) :
    (flow 0).frames = (flow finish).place :: (flow finish).frames :=
  hflow.return_place (List.suffix_refl _) h.later (fun i _ hlt ↦ h.within i hlt) h.shorter

end Cecore.Library.CallStack
