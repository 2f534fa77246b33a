import Cecore.AutoAsm.Phases
import Cecore.Platform.Blocks

/-!
# Sequences of calls

A `Session` is the world of one `AutoAssembler` with the results whose `DisableInfo` was not used
yet. It goes on by calls of `execute` and of `disable`, which uses up a pending result, and between
them the target goes on by itself, without unmapping anything. The session starts with an assembler
that has made no call.
-/

set_option autoImplicit false
set_option relaxedAutoImplicit false

namespace Cecore.AutoAsm

open Platform Emit Library.Effects Library.Journal

structure Session where
  world : World
  pending : List AutoAsmResult := []

inductive Call
  | execute (fuel : ℕ) (script : Text)
  | disable (index : ℕ)
  | elapse

namespace Session

/-- A new assembler on a target. -/
def fresh (target : Target) (globalSymbols : Text → Option ℕ) : Session where
  world := ⟨{ target with events := [] }, { globalSymbols }⟩

/-- The blocks of the results that are still pending. -/
def held (session : Session) : List AllocEntry :=
  session.pending.flatMap fun result ↦ result.disableInfo.allocs

inductive Step (env : Environment) : Session → Call → Session → Prop
  | execute (s : Session) (fuel : ℕ) (script : Text) (w : World) (result : AutoAsmResult)
      (hcall : AutoAsm.execute env fuel s.world script = some (w, result)) :
      Step env s (.execute fuel script) ⟨w, s.pending ++ [result]⟩
  | disable (s : Session) (index : ℕ) (result : AutoAsmResult)
      (hpending : s.pending[index]? = some result) :
      Step env s (.disable index)
        ⟨(AutoAsm.disable env s.world result.disableInfo).1, s.pending.eraseIdx index⟩
  | elapse (s : Session) (t : Target) (hevents : t.events = s.world.target.events)
      (hmapped : ∀ x, (s.world.target.memory x).isSome → (t.memory x).isSome) :
      Step env s .elapse { s with world := { s.world with target := t } }

/-- Calls one after another, each of which meets `permits` in the session it is made in. -/
def Runs (env : Environment) (permits : Session → Call → Prop) : Session → Session → Prop :=
  Relation.ReflTransGen fun s s' ↦ ∃ call, permits s call ∧ Step env s call s'

/-- The session after a call; time that passes leaves it as it is. -/
def next (env : Environment) (s : Session) : Call → Option Session
  | .execute fuel script =>
    (AutoAsm.execute env fuel s.world script).map fun out ↦ ⟨out.1, s.pending ++ [out.2]⟩
  | .disable index =>
    s.pending[index]?.map fun result ↦
      ⟨(AutoAsm.disable env s.world result.disableInfo).1, s.pending.eraseIdx index⟩
  | .elapse => some s

def nextAll (env : Environment) : Session → List Call → Option Session
  | s, [] => some s
  | s, call :: rest => (s.next env call).bind fun s' ↦ nextAll env s' rest

theorem Step.of_next {env : Environment} {s s' : Session} {call : Call}
    (h : s.next env call = some s') : Step env s call s' := by
  cases call with
  | execute fuel script =>
    obtain ⟨⟨w, result⟩, hcall, hs'⟩ := Option.map_eq_some_iff.mp h
    rw [← hs']
    exact Step.execute s fuel script w result hcall
  | disable index =>
    obtain ⟨result, hpending, hs'⟩ := Option.map_eq_some_iff.mp h
    rw [← hs']
    exact Step.disable s index result hpending
  | elapse =>
    rw [← Option.some.inj h]
    exact Step.elapse s s.world.target rfl fun _ hx ↦ hx

theorem Runs.of_next {env : Environment} {permits : Session → Call → Prop} {s s' : Session}
    {call : Call} (h : s.next env call = some s') (hpermits : permits s call) :
    Runs env permits s s' :=
  Relation.ReflTransGen.single ⟨call, hpermits, Step.of_next h⟩

theorem Runs.of_nextAll {env : Environment} {s' : Session} (calls : List Call) {s : Session}
    (h : s.nextAll env calls = some s') : Runs env (fun _ _ ↦ True) s s' := by
  induction calls generalizing s with
  | nil =>
    rw [← Option.some.inj h]
    exact Relation.ReflTransGen.refl
  | cons call rest ih =>
    obtain ⟨mid, hmid, hrest⟩ := Option.bind_eq_some_iff.mp h
    exact (Runs.of_next hmid trivial).trans (ih hrest)

end Session

/-! ### An execution as a whole -/

/-- What the phases of an execution preserve holds of the run that `finish` looks at, with the
symbols registered when no phase failed. -/
theorem execute_induct {env : Environment} {fuel : ℕ} {w w' : World} {scriptText : Text}
    {result : AutoAsmResult} {P : Run → Prop}
    (hcall : execute env fuel w scriptText = some (w', result))
    (hstart : ∀ parsed, P (startRun (seeded env w) parsed))
    (halloc : ∀ s s', AllocStep env s s' → P s → P s')
    (hline : ∀ script rawLine run, ReachesLine env fuel w scriptText script rawLine run → P run →
      P (finalState (emitLine env script rawLine run)))
    (hquiet : ∀ s s', LineStep env (.ds []) s s' → P s → P s') :
    (∃ log error, w' = seeded env w ∧ result = ⟨false, error, {}, log⟩) ∨
      ∃ parsed outcome, Settled parsed P outcome ∧ (w', result) = finish env parsed.error outcome := by
  unfold execute at hcall
  dsimp only at hcall
  split at hcall
  · cases hcall
  · simp only [Option.some.injEq, Prod.mk.injEq] at hcall
    exact Or.inl ⟨_, _, hcall.1.symm, hcall.2.symm⟩
  · next parsed hparsed =>
    simp only [Option.some.injEq] at hcall
    refine Or.inr ⟨parsed, _, ?_, hcall.symm⟩
    exact executeParsed_induct (hstart parsed) halloc
      (fun script rawLine run hreach ↦ hline script rawLine run ⟨parsed, hparsed, hreach⟩) hquiet

end Cecore.AutoAsm
