import Mathlib.Data.List.Basic

/-!
# Resources held along a log

Some events of a log take a resource and some give one back. A log is `Balanced` when from whatever
is held before, nothing is given back that is not held, and the same is held afterwards. Balanced
logs can be put together and put between taking a resource and giving it back, which is how the
exits of a function are seen to leave nothing behind.
-/

set_option autoImplicit false
set_option relaxedAutoImplicit false

namespace Cecore.Library

/-- Which events take a resource, and which give one back. -/
structure Holdings (ε ρ : Type) where
  takes : ε → Option ρ
  gives : ε → Option ρ

namespace Holdings

variable {ε ρ : Type} [DecidableEq ρ] (h : Holdings ε ρ)

/-- What is held behind a log; nothing, once a resource is given back that is not held. -/
def heldAfter : (held : List ρ) → List ε → Option (List ρ)
  | held, [] => some held
  | held, e :: log =>
    match h.takes e, h.gives e with
    | some r, _ => heldAfter (r :: held) log
    | none, some r => if r ∈ held then heldAfter (held.erase r) log else none
    | none, none => heldAfter held log

def Balanced (log : List ε) : Prop := ∀ held, h.heldAfter held log = some held

variable {h} {log added : List ε}

theorem heldAfter_append (held : List ρ) (log added : List ε) :
    h.heldAfter held (log ++ added) =
      (h.heldAfter held log).bind fun mid ↦ h.heldAfter mid added := by
  induction log generalizing held with
  | nil => rfl
  | cons e log ih =>
    rw [List.cons_append, heldAfter, heldAfter]
    split
    · exact ih _
    · split_ifs with hheld
      · exact ih _
      · rfl
    · exact ih _

theorem balanced_nil : h.Balanced [] := fun _ ↦ rfl

theorem Balanced.append (hlog : h.Balanced log) (hadded : h.Balanced added) :
    h.Balanced (log ++ added) := by
  intro held
  rw [heldAfter_append, hlog held]
  exact hadded held

/-- An event that has to do with no resource. -/
theorem Balanced.cons_quiet {e : ε} (htakes : h.takes e = none) (hgives : h.gives e = none)
    (hlog : h.Balanced log) : h.Balanced (e :: log) := by
  intro held
  rw [heldAfter, htakes, hgives]
  exact hlog held

/-- A resource that is taken in front of a log and given back behind it. -/
theorem Balanced.bracket {e e' : ε} {r : ρ} (htakes : h.takes e = some r)
    (hquiet : h.takes e' = none) (hgives : h.gives e' = some r) (hlog : h.Balanced log) :
    h.Balanced (e :: (log ++ [e'])) := by
  intro held
  have htaken : h.heldAfter held (e :: (log ++ [e'])) = h.heldAfter (r :: held) (log ++ [e']) := by
    rw [heldAfter, htakes]
  rw [htaken, heldAfter_append, hlog]
  simp [heldAfter, hquiet, hgives]

end Holdings

end Cecore.Library
