import Cecore.Debug.Turns

/-!
# Breakpoints are transparent

As long as the session is right about every stop, each traced thread is saved at the original
instruction it has still to execute. It is not right about a thread that runs into another
breakpoint than the one a step waits for, and leaves that thread one byte past it.
-/

set_option autoImplicit false
set_option relaxedAutoImplicit false

namespace Cecore.Debug

instance : DecidablePred Event.TakenRightly
  | .stop found => inferInstanceAs (Decidable (∀ regs ∈ found.result.regs,
      (found.takenForInt3 regs).getD regs.rip = found.result.next))
  | .resume _ _ => .isTrue trivial
  | .report _ => .isTrue trivial

namespace DebugSession

variable {k : Kernel} {original : ℕ → UInt8} {s : DebugSession}

/-- A turn keeps threads at their next instructions. -/
theorem aligned_step (h : Intact k original s) (input : Input)
    (hright : ∀ e ∈ (step k s input).log, e.TakenRightly) (haligned : s.Aligned) :
    (step k s input).Aligned := by
  by_cases hinput : ∃ w result, input = .poll w result
  · obtain ⟨w, result, rfl⟩ := hinput
    by_cases hpolled : (s.attached && !s.stopped) = true
    · obtain ⟨hlogs, -⟩ := @logs_step_poll k original s h w result hpolled
      obtain ⟨added, hadded, -⟩ := hlogs.log
      have hstop : Event.stop (stopOf .poll w result s) ∈ (step k s (.poll w result)).log := by
        rw [hadded, (polled_code w result s).1]
        simp
      exact hlogs.aligned hright (aligned_polled haligned (hright _ hstop))
    · rw [step, if_neg hpolled]
      exact haligned
  · have hlogs := (@logs_step k original s h input fun w result hpoll ↦ hinput ⟨w, result, hpoll⟩).1
    exact hlogs.aligned hright haligned

/-- In a run where every stop is taken for what it is, each traced thread is saved at the original
instruction it has still to execute. -/
theorem transparent_run (k : Kernel) (text : ℕ → UInt8) (inputs : List Input)
    (hright : ∀ e ∈ (run k (DebugSession.new text) inputs).log, e.TakenRightly) :
    ∀ tid ∈ (run k (DebugSession.new text) inputs).traced, ∀ regs,
      (run k (DebugSession.new text) inputs).regs tid = some regs →
        (run k (DebugSession.new text) inputs).next tid = some regs.rip := by
  have haligned := @run_induction k text (DebugSession.new text) Aligned Event.TakenRightly
    (fun s input hs hlog haligned ↦ aligned_step hs input hlog haligned)
    (intact_new k text) inputs hright (aligned_new text)
  intro tid _ regs hregs
  obtain ⟨next, hnext, hread⟩ := haligned tid
  rw [hnext, hread regs hregs]

/-- One thread, which every wait finds just past `hit` after an int3 there, but for the first. -/
def hitKernel (hit : ℕ) : Kernel where
  mapped := fun _ ↦ true
  grants := fun _ ↦ true
  waits := fun clock ↦ some <|
    if clock ≤ 2 then ⟨.stopped sigtrap 128, some ⟨0x1200, 0x7000⟩, none, 0x1200⟩
    else ⟨.stopped sigtrap 0, some ⟨hit + 1, 0x7000⟩, none, hit⟩
  threads := fun _ ↦ [1]
  eventMessage := fun _ ↦ 0
  readWord := fun _ _ ↦ 0
  callSize := fun _ _ ↦ none

/-- A breakpoint at `0x1500` and a run to the cursor at `0x2000`. -/
def cursorRun (hit : ℕ) : DebugSession :=
  run (hitKernel hit) (DebugSession.new fun _ ↦ 0x90)
    [.attach 1, .command (.setSoftBp 0x1500), .command (.step .runToCursor 0x2000)]

/-- The thread reaches the cursor. -/
theorem transparent_cursorRun : 1 ∈ (cursorRun 0x2000).traced ∧
    ∀ tid ∈ (cursorRun 0x2000).traced, ∀ regs, (cursorRun 0x2000).regs tid = some regs →
      (cursorRun 0x2000).next tid = some regs.rip :=
  ⟨by decide, transparent_run (hitKernel 0x2000) (fun _ ↦ 0x90) _ (by decide)⟩

/-- The thread runs into the breakpoint before it reaches the cursor, and stays one byte past it. -/
theorem cursorRun_past_breakpoint :
    (cursorRun 0x1500).attached = true ∧ (cursorRun 0x1500).stopped = true ∧
      1 ∈ (cursorRun 0x1500).traced ∧ (cursorRun 0x1500).regs 1 = some ⟨0x1501, 0x7000⟩ ∧
        (cursorRun 0x1500).next 1 = some 0x1500 := by
  decide

end DebugSession

end Cecore.Debug
