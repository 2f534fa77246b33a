import Mathlib.Data.List.Basic
import Mathlib.Data.Option.Basic

/-!
# Obligations along a log

Some events of a log oblige a party to something, and the next event that answers for that party
must give it: a client's request and its reply, an interrupted task and its resumption. A log is
`Kept` when no answer gives anything else than what is owed, and `Settled` when every obligation has
its answer as well. Settled logs can be put together (`Settled.append`), which is how a run that
settles every one of its steps is seen to keep its obligations.
-/

set_option autoImplicit false
set_option relaxedAutoImplicit false

namespace Cecore.Library

/-- Which events oblige a party to a value, and which answer for a party with a value. -/
structure Obligations (ε κ ν : Type) where
  opens : ε → Option (κ × ν)
  answers : ε → Option (κ × ν)

namespace Obligations

variable {ε κ ν : Type} [DecidableEq κ] (o : Obligations ε κ ν)

/-- What an event gives for a party. -/
def answerOf (party : κ) (e : ε) : Option ν :=
  ((o.answers e).filter fun answer ↦ decide (answer.1 = party)).map Prod.snd

/-- What the next answer for a party gives. -/
def firstAnswer (party : κ) (log : List ε) : Option ν := log.findSome? (o.answerOf party)

/-- An answer gives what is owed. -/
def Kept (log : List ε) : Prop :=
  ∀ before e after party owed, log = before ++ e :: after → o.opens e = some (party, owed) →
    ∀ given, o.firstAnswer party after = some given → given = owed

/-- Every obligation has been answered with what is owed. -/
def Settled (log : List ε) : Prop :=
  ∀ before e after party owed, log = before ++ e :: after → o.opens e = some (party, owed) →
    o.firstAnswer party after = some owed

variable {o} {log added : List ε}

theorem Settled.kept (h : o.Settled log) : o.Kept log := by
  intro before e after party owed hlog hopens given hgiven
  have hanswer := h before e after party owed hlog hopens
  rw [hgiven] at hanswer
  exact Option.some.inj hanswer

/-- A log without obligations is settled. -/
theorem settled_of_quiet (hquiet : ∀ e ∈ log, o.opens e = none) : o.Settled log := by
  intro before e after party owed hlog hopens
  have hnone := hquiet e (by rw [hlog]; simp)
  rw [hnone] at hopens
  cases hopens

theorem settled_nil : o.Settled ([] : List ε) := settled_of_quiet (by simp)

theorem firstAnswer_append (party : κ) (first second : List ε) :
    o.firstAnswer party (first ++ second) =
      (o.firstAnswer party first).or (o.firstAnswer party second) :=
  List.findSome?_append

/-- Settled logs one after the other are settled. -/
theorem Settled.append (h : o.Settled log) (hadded : o.Settled added) : o.Settled (log ++ added) := by
  intro before e after party owed hlog hopens
  rcases List.append_eq_append_iff.mp hlog with ⟨rest, -, hrest⟩ | ⟨rest, hbefore, hrest⟩
  · exact hadded rest e after party owed hrest hopens
  · cases rest with
    | nil => exact hadded [] e after party owed (by simpa using hrest.symm) hopens
    | cons other rest =>
      rw [List.cons_append, List.cons.injEq] at hrest
      obtain ⟨rfl, rfl⟩ := hrest
      rw [firstAnswer_append, h before e rest party owed hbefore hopens]
      rfl

/-- An obligation that is answered at once. -/
theorem settled_pair {e answer : ε} {party : κ} {owed : ν} (hopens : o.opens e = some (party, owed))
    (hquiet : o.opens answer = none) (hanswer : o.answers answer = some (party, owed)) :
    o.Settled [e, answer] := by
  have hgives : o.firstAnswer party [answer] = some owed := by
    simp [firstAnswer, answerOf, hanswer]
  intro before e' after party' owed' hlog hopens'
  rcases before with _ | ⟨first, before⟩
  · rw [List.nil_append, List.cons.injEq] at hlog
    obtain ⟨rfl, rfl⟩ := hlog
    rw [hopens] at hopens'
    cases hopens'
    exact hgives
  · rw [List.cons_append, List.cons.injEq] at hlog
    have hmem : e' ∈ [answer] := by
      rw [hlog.2]
      simp
    rw [List.mem_singleton.mp hmem, hquiet] at hopens'
    cases hopens'

end Obligations

end Cecore.Library
