import Mathlib.Data.Int.Notation
import Mathlib.Data.List.Basic

/-!
# Copying in chunks

A loop copies `size` bytes in turns. Each turn leaves a log, and either counts the bytes it copied,
and then goes on or ends the loop, or it fails. `run_split` takes a run apart into the turns that
were counted and at most one that failed. What is stored by turns that follow one another is
`consecutive`; it is `Sourced` when each stored piece was fetched before from the same offset.
-/

set_option autoImplicit false
set_option relaxedAutoImplicit false

namespace Cecore.Library.ChunkedCopy

variable {ε : Type}

/-! ### The loop -/

/-- How a turn ends. The loop goes on only behind a turn that copied something. -/
inductive Turn
  | next (copied : ℕ) (positive : 0 < copied)
  | last (copied : ℕ)
  | failed (ret : ℤ)

/-- The bytes that a turn counts. -/
def Turn.copied : Turn → ℕ
  | .next copied _ => copied
  | .last copied => copied
  | .failed _ => 0

structure Run (ε : Type) where
  log : List ε
  done : ℕ
  ret : ℤ

/-- `while (done < size)`; a turn is told its number and what is done. -/
def run {size : ℕ} (turn : (k done : ℕ) → done < size → List ε × Turn) (k done : ℕ) : Run ε :=
  if h : done < size then
    match turn k done h with
    | (log, .next copied _) =>
      let rest := run turn (k + 1) (done + copied)
      { rest with log := log ++ rest.log }
    | (log, .last copied) => ⟨log, done + copied, 0⟩
    | (log, .failed ret) => ⟨log, done, ret⟩
  else ⟨[], done, 0⟩
termination_by size - done

/-- What can be said of turns that follow one another: from `done` bytes a log leads to more. -/
structure Composes (R : ℕ → List ε → ℕ → Prop) : Prop where
  refl : ∀ done, R done [] done
  trans : ∀ {done mid last : ℕ} {log added : List ε}, R done log mid → R mid added last →
    R done (log ++ added) last

/-- The counted turns of a run, and the turn that failed if one did. -/
theorem run_split {R : ℕ → List ε → ℕ → Prop} (hR : Composes R) {size : ℕ}
    {turn : (k done : ℕ) → done < size → List ε × Turn}
    (hturn : ∀ k done h, (∀ ret, (turn k done h).2 ≠ .failed ret) →
      R done (turn k done h).1 (done + (turn k done h).2.copied)) (k done : ℕ) :
    ∃ counted tail, (run turn k done).log = counted ++ tail ∧
      R done counted (run turn k done).done ∧
      (tail = [] ∧ (run turn k done).ret = 0 ∨
        ∃ k' h, turn k' (run turn k done).done h = (tail, .failed (run turn k done).ret)) := by
  fun_induction run turn k done with
  | case1 k done hlt log copied positive hstep rest ih =>
    obtain ⟨counted, tail, hlog, hcounted, htail⟩ := ih
    have hfirst : R done log (done + copied) := by
      simpa [hstep, Turn.copied] using hturn k done hlt (by simp [hstep])
    refine ⟨log ++ counted, tail, ?_, hR.trans hfirst hcounted, htail⟩
    rw [List.append_assoc, ← hlog]
  | case2 k done hlt log copied hstep =>
    have hfirst : R done log (done + copied) := by
      simpa [hstep, Turn.copied] using hturn k done hlt (by simp [hstep])
    exact ⟨log, [], (List.append_nil _).symm, hfirst, .inl ⟨rfl, rfl⟩⟩
  | case3 k done hlt log ret hstep =>
    exact ⟨[], log, rfl, hR.refl done, .inr ⟨k, hlt, hstep⟩⟩
  | case4 k done hge => exact ⟨[], [], rfl, hR.refl done, .inl ⟨rfl, rfl⟩⟩

/-! ### Pieces -/

/-- Bytes that stand from an address on. -/
structure Piece where
  first : ℕ
  bytes : List UInt8
  deriving DecidableEq, Repr

/-- Pieces that follow one another from an address on. -/
def consecutive : (first : ℕ) → List (List UInt8) → List Piece
  | _, [] => []
  | first, part :: parts => ⟨first, part⟩ :: consecutive (first + part.length) parts

theorem consecutive_append (first : ℕ) (parts added : List (List UInt8)) :
    consecutive first (parts ++ added) =
      consecutive first parts ++ consecutive (first + parts.flatten.length) added := by
  induction parts generalizing first with
  | nil => simp [consecutive]
  | cons part parts ih =>
    rw [List.cons_append, consecutive, consecutive, ih, List.cons_append, List.flatten_cons,
      List.length_append, Nat.add_assoc]

/-- Each piece that is stored at an offset of `sinkBase` was fetched before, from the same offset of
`sourceBase`. -/
def Sourced (source sink : ε → Option Piece) (sourceBase sinkBase : ℕ) (log : List ε) : Prop :=
  ∀ before e after stored, log = before ++ e :: after → sink e = some stored →
    ∃ fetched ∈ before.filterMap source, fetched.first + sinkBase = stored.first + sourceBase ∧
      stored.bytes <+: fetched.bytes

variable {source sink : ε → Option Piece} {sourceBase sinkBase : ℕ} {log added : List ε}

theorem Sourced.append (h : Sourced source sink sourceBase sinkBase log)
    (hadded : Sourced source sink sourceBase sinkBase added) :
    Sourced source sink sourceBase sinkBase (log ++ added) := by
  intro before e after stored hlog hsink
  rcases List.append_eq_append_iff.mp hlog with ⟨rest, hbefore, hrest⟩ | ⟨rest, hrest, hafter⟩
  · obtain ⟨fetched, hmem, hfetched⟩ := hadded rest e after stored hrest hsink
    refine ⟨fetched, ?_, hfetched⟩
    rw [hbefore, List.filterMap_append]
    exact List.mem_append_right _ hmem
  · cases rest with
    | nil =>
      obtain ⟨fetched, hmem, hfetched⟩ :=
        hadded [] e after stored (by simpa using hafter.symm) hsink
      cases hmem
    | cons other rest =>
      rw [List.cons_append, List.cons.injEq] at hafter
      obtain ⟨rfl, rfl⟩ := hafter
      exact h before e rest stored hrest hsink

/-- A log without anything stored. -/
theorem sourced_of_quiet (hquiet : ∀ e ∈ log, sink e = none) :
    Sourced source sink sourceBase sinkBase log := by
  intro before e after stored hlog hsink
  have hnone := hquiet e (by rw [hlog]; simp)
  cases hnone.symm.trans hsink

/-- A log in which one piece is stored. -/
theorem sourced_of_one {front back : List ε} {e : ε} {stored : Piece}
    (hfront : ∀ e' ∈ front, sink e' = none) (hback : ∀ e' ∈ back, sink e' = none)
    (hsink : sink e = some stored)
    (hfetched : ∃ fetched ∈ front.filterMap source,
      fetched.first + sinkBase = stored.first + sourceBase ∧ stored.bytes <+: fetched.bytes) :
    Sourced source sink sourceBase sinkBase (front ++ e :: back) := by
  intro before e' after stored' hlog hsink'
  rcases List.append_eq_append_iff.mp hlog with ⟨rest, hbefore, hrest⟩ | ⟨rest, hrest, hafter⟩
  · cases rest with
    | nil =>
      rw [List.nil_append, List.cons.injEq] at hrest
      obtain ⟨rfl, -⟩ := hrest
      rw [List.append_nil] at hbefore
      cases hsink.symm.trans hsink'
      rwa [hbefore]
    | cons other rest =>
      rw [List.cons_append, List.cons.injEq] at hrest
      have hnone := hback e' (by rw [hrest.2]; simp)
      cases hnone.symm.trans hsink'
  · cases rest with
    | nil =>
      rw [List.nil_append, List.cons.injEq] at hafter
      obtain ⟨rfl, -⟩ := hafter
      rw [List.append_nil] at hrest
      cases hsink.symm.trans hsink'
      rwa [← hrest]
    | cons other rest =>
      rw [List.cons_append, List.cons.injEq] at hafter
      obtain ⟨rfl, -⟩ := hafter
      have hnone := hfront e' (by rw [hrest]; simp)
      cases hnone.symm.trans hsink'

end Cecore.Library.ChunkedCopy
