import Cecore.Debug.Activations

/-!
# Runs to a temporary breakpoint

Step Over at a call, Step Out and Run To Cursor let the thread continue to one address. A breakpoint
of the user that is armed there is left to stop it, and the one the thread sits on is lifted for the
run: where both are the same breakpoint nothing stops the thread. `run_until_armed_iff` is exactly
when the int3 is there as the thread continues.
-/

set_option autoImplicit false
set_option relaxedAutoImplicit false

namespace Cecore.Debug.DebugSession

variable {k : Kernel} {original : ℕ → UInt8} {s : DebugSession} {rip target : ℕ}

/-- The registers that a step reads. -/
def stepRegs (s : DebugSession) : Regs := (s.regs s.steppedThread).getD ⟨0, 0⟩

/-- Where a step lets the thread continue to, if it does. -/
def destination (k : Kernel) (mode : StepMode) (targetAddress : ℕ) (s : DebugSession) : Option ℕ :=
  match mode with
  | .into => none
  | .over => (k.callSize s.stepRegs.rip (codeBytes k s.stepRegs.rip s)).map fun size ↦
      (s.stepRegs.rip + size) % sizeModulus
  | .out => some (k.readWord s.clock s.stepRegs.rsp) |>.filter (· ≠ 0)
  | .runToCursor => some targetAddress |>.filter (· ≠ 0)

/-- The session when the thread continues. -/
def continued (k : Kernel) (rip target : ℕ) (s : DebugSession) : DebugSession :=
  resume s.steppedThread 0 (runToStart k rip target s)

/-- The rest of a run: what is left behind the continue, with the temporary breakpoint and whether
one was lifted. -/
def finishRun (k : Kernel) (tid rip target : ℕ) (temp : Temp) (lifted : Bool) (s : DebugSession) :
    DebugSession :=
  let (s, result) := waitpid k (.runTo target) tid s
  let s := rewindOverBreakpoint tid ((result.map WaitResult.status).getD .exited) target s
  let s := clearTemp k temp s
  if lifted then rearm k rip s else s

/-- A step with a destination continues once, and to there; one without does not continue. -/
theorem stepThread_eq (k : Kernel) (mode : StepMode) (targetAddress : ℕ) (s : DebugSession) :
    (∀ target, destination k mode targetAddress s = some target →
      stepThread k mode targetAddress s.steppedThread s =
        finishRun k s.steppedThread s.stepRegs.rip target
          (setTemp k target (liftCurrentBp k s.stepRegs.rip s).1).2 (liftCurrentBp k s.stepRegs.rip s).2
          (continued k s.stepRegs.rip target s)) ∧
      (destination k mode targetAddress s = none →
        stepThread k mode targetAddress s.steppedThread s = stepInstruction k s.steppedThread s ∨
          stepThread k mode targetAddress s.steppedThread s = s) := by
  have hrun : ∀ target, runTo k s.steppedThread s.stepRegs.rip target s =
      finishRun k s.steppedThread s.stepRegs.rip target
        (setTemp k target (liftCurrentBp k s.stepRegs.rip s).1).2 (liftCurrentBp k s.stepRegs.rip s).2
        (continued k s.stepRegs.rip target s) := fun _ ↦ rfl
  simp only [← hrun]
  unfold destination stepThread
  cases mode with
  | into => exact ⟨fun _ h ↦ (nomatch h), fun _ ↦ .inl rfl⟩
  | «over» =>
    dsimp only
    rw [show (s.regs s.steppedThread).getD ⟨0, 0⟩ = s.stepRegs from rfl]
    cases k.callSize s.stepRegs.rip (codeBytes k s.stepRegs.rip s) with
    | none => exact ⟨fun _ h ↦ (nomatch h), fun _ ↦ .inl rfl⟩
    | some size =>
      refine ⟨fun target h ↦ ?_, fun h ↦ (nomatch h)⟩
      rw [← Option.some.inj h]
  | out =>
    dsimp only
    rw [show (s.regs s.steppedThread).getD ⟨0, 0⟩ = s.stepRegs from rfl]
    by_cases hword : k.readWord s.clock s.stepRegs.rsp = 0
    · rw [if_neg (not_not.mpr hword), hword]
      exact ⟨fun _ h ↦ (nomatch h), fun _ ↦ .inr rfl⟩
    · rw [if_pos hword, Option.filter_some, if_pos (decide_eq_true hword)]
      exact ⟨fun _ h ↦ by rw [Option.some.inj h], fun h ↦ (nomatch h)⟩
  | runToCursor =>
    dsimp only
    by_cases htarget : targetAddress = 0
    · rw [if_neg (not_not.mpr htarget), htarget]
      exact ⟨fun _ h ↦ (nomatch h), fun _ ↦ .inr rfl⟩
    · rw [if_pos htarget, Option.filter_some, if_pos (decide_eq_true htarget)]
      exact ⟨fun _ h ↦ by rw [Option.some.inj h]; rfl, fun h ↦ (nomatch h)⟩

/-- An int3 is in the memory of the target. -/
def Int3At (k : Kernel) (s : DebugSession) (address : ℕ) : Prop :=
  k.mapped address = true ∧ s.text address = 0xCC

/-- Where a step lets the thread continue, there is an int3 at the destination as it does. -/
def StopArmed (k : Kernel) (mode : StepMode) (targetAddress : ℕ) (s : DebugSession) : Prop :=
  s.stopped = true → ∀ target, destination k mode targetAddress s = some target →
    Int3At k (continued k s.stepRegs.rip target s) target

/-- The destination can be written, and is not the armed breakpoint that the thread sits on. -/
theorem int3At_continued_iff (h : CodeBytes k original s) : Int3At k (continued k rip target s) target ↔
    k.mapped target = true ∧ (target = rip → (s.armedAt rip).isSome → original rip = 0xCC) := by
  have htext : (continued k rip target s).text = (runToStart k rip target s).text := rfl
  unfold Int3At
  rw [htext]
  refine and_congr_right fun hmapped ↦ ?_
  by_cases hsame : target = rip
  · subst hsame
    have hlifted := @text_liftCurrentBp k original s target h target
    rw [if_neg fun hboth ↦ hboth.2 rfl] at hlifted
    unfold runToStart setTemp
    rw [armedAt_liftCurrentBp]
    by_cases harmed : (s.armedAt target).isSome = true
    · rw [if_pos harmed, hlifted]
      exact ⟨fun hbyte _ _ ↦ hbyte, fun hbyte ↦ hbyte rfl harmed⟩
    · rw [if_neg harmed, pokeByte, if_pos hmapped]
      exact iff_of_true (Function.update_self _ _ _) fun _ harmed' ↦ absurd harmed' harmed
  · exact iff_of_true (text_runToStart_target h hmapped hsame) fun heq ↦ absurd heq hsame

/-- In every run of a session a step has its stop armed exactly if its destination is mapped, and is
not the instruction the thread is at with a breakpoint armed on it, unless that is an int3 of the
program. -/
theorem run_until_armed_iff (k : Kernel) (original : ℕ → UInt8) (inputs : List Input) (mode : StepMode)
    (targetAddress : ℕ) :
    let s := run k (DebugSession.new original) inputs
    StopArmed k mode targetAddress s ↔
      (s.stopped = true → ∀ target, destination k mode targetAddress s = some target →
        k.mapped target = true ∧
          (target = s.stepRegs.rip → (s.armedAt s.stepRegs.rip).isSome → original s.stepRegs.rip = 0xCC)) := by
  intro s
  have hcode : CodeBytes k original s := (intact_run (intact_new k original) inputs).toCodeBytes
  exact imp_congr_right fun _ ↦ forall₂_congr fun target _ ↦ int3At_continued_iff hcode

/-- Run To Cursor to the instruction with a breakpoint on it that the thread is at: the thread
continues with the original instruction there. -/
theorem run_to_current_not_armed :
    ¬ StopArmed (callKernel ⟨0x1000, 0x7000⟩) .runToCursor 0x1000 (atCall ⟨0x1000, 0x7000⟩ 0x1000) := by
  intro harmed
  have hbyte := (harmed (by decide) 0x1000 rfl).2
  exact absurd hbyte (by decide)

end Cecore.Debug.DebugSession
