import Mathlib.Logic.Relation

/-!
# What a computation does to its state

A computation in `EStateM` may stop at an exception, and the state it stops in stays. `Along step x
s` says that whatever `x` does from `s`, with or without an exception, leads to its last state by
steps of `step`. The rules follow the operations of the monad, so the steps of a program are those
of its parts, and what one step preserves the whole computation preserves (`Along.preserves`).
-/

set_option autoImplicit false
set_option relaxedAutoImplicit false

namespace Cecore.Library.Effects

variable {ε σ α β : Type} {step : σ → σ → Prop} {s : σ}

/-- The state a computation ends in. -/
def finalState : EStateM.Result ε σ α → σ
  | .ok _ s => s
  | .error _ s => s

/-- From `s` the computation ends in a state that steps lead to. -/
def Along (step : σ → σ → Prop) (x : EStateM ε σ α) (s : σ) : Prop :=
  Relation.ReflTransGen step s (finalState (x s))

/-- One computation after another, from its result. -/
theorem bind_apply (x : EStateM ε σ α) (f : α → EStateM ε σ β) (s : σ) :
    (x >>= f) s =
      match x s with
      | .ok a s' => f a s'
      | .error e s' => .error e s' := rfl

/-- The state is read. -/
theorem get_apply (s : σ) : (get : EStateM ε σ σ) s = .ok s s := rfl

/-- A change of the state, with what it returns. -/
theorem modifyGet_apply (f : σ → α × σ) (s : σ) :
    (modifyGet f : EStateM ε σ α) s = .ok (f s).1 (f s).2 := rfl

theorem bind_eq_ok {x : EStateM ε σ α} {f : α → EStateM ε σ β} {b : β} {s' : σ}
    (h : (x >>= f) s = .ok b s') : ∃ a mid, x s = .ok a mid ∧ f a mid = .ok b s' := by
  rw [bind_apply] at h
  cases hresult : x s with
  | error e mid =>
    rw [hresult] at h
    cases h
  | ok a mid =>
    rw [hresult] at h
    exact ⟨a, mid, rfl, h⟩

theorem Along.ret (a : α) : Along step (pure a : EStateM ε σ α) s := Relation.ReflTransGen.refl

theorem Along.raise (e : ε) : Along step (throw e : EStateM ε σ α) s := Relation.ReflTransGen.refl

theorem Along.update {f : σ → σ} (h : step s (f s)) :
    Along step (modify f : EStateM ε σ PUnit) s :=
  Relation.ReflTransGen.single h

/-- One computation after another. -/
theorem Along.andThen {x : EStateM ε σ α} {f : α → EStateM ε σ β} (hx : Along step x s)
    (hf : ∀ a s', x s = .ok a s' → Along step (f a) s') : Along step (x >>= f) s := by
  unfold Along at hx ⊢
  change Relation.ReflTransGen step s (finalState (EStateM.bind x f s))
  unfold EStateM.bind
  cases hresult : x s with
  | error e s' =>
    rw [hresult] at hx
    exact hx
  | ok a s' =>
    rw [hresult] at hx
    exact hx.trans (hf a s' hresult)

/-- Reading the state changes nothing, and the rest goes on with the state that was read. -/
theorem Along.read {f : σ → EStateM ε σ β} (h : Along step (f s) s) :
    Along step ((get : EStateM ε σ σ) >>= f) s := h

theorem Along.updateThen {g : σ → σ} {f : PUnit → EStateM ε σ β} (hstep : step s (g s))
    (h : Along step (f ⟨⟩) (g s)) : Along step ((modify g : EStateM ε σ PUnit) >>= f) s :=
  Relation.ReflTransGen.head hstep h

theorem Along.updateGetThen {g : σ → α × σ} {f : α → EStateM ε σ β} (hstep : step s (g s).2)
    (h : Along step (f (g s).1) (g s).2) :
    Along step ((modifyGet g : EStateM ε σ α) >>= f) s :=
  Relation.ReflTransGen.head hstep h

/-- A weaker step relation holds along the same computations. -/
theorem Along.mono {other : σ → σ → Prop} {x : EStateM ε σ α} (h : Along step x s)
    (himp : ∀ s s', step s s' → other s s') : Along other x s :=
  h.lift id himp

/-- What each step preserves, a chain of steps preserves. -/
theorem preserves_of_chain {p : σ → Prop} (hstep : ∀ s s', step s s' → p s → p s') {s' : σ}
    (h : Relation.ReflTransGen step s s') (hs : p s) : p s' := by
  induction h with
  | refl => exact hs
  | tail _ hlast ih => exact hstep _ _ hlast ih

/-- What each step preserves holds in the last state. -/
theorem Along.preserves {x : EStateM ε σ α} {p : σ → Prop} (h : Along step x s)
    (hstep : ∀ s s', step s s' → p s → p s') (hs : p s) : p (finalState (x s)) :=
  preserves_of_chain hstep h hs

end Cecore.Library.Effects
