import Cecore.Debug.Moves

/-!
# Threads in view

The part of a session that says which threads it traces, which of them it has stopped and what it
watches, with the log. Operations on the code and on saved registers leave it as it is, and a thread
that is made to run shows in the log only.
-/

set_option autoImplicit false
set_option relaxedAutoImplicit false

namespace Cecore.Debug

structure View where
  pid : ℕ
  activeTid : ℕ
  traced : List ℕ
  stoppedTids : List ℕ
  attached : Bool
  stopped : Bool
  hwBreakpoints : List HwBp
  debugRegs : ℕ → ℕ → Option Watch
  log : List Event

namespace DebugSession

def view (s : DebugSession) : View where
  pid := s.pid
  activeTid := s.activeTid
  traced := s.traced
  stoppedTids := s.stoppedTids
  attached := s.attached
  stopped := s.stopped
  hwBreakpoints := s.hwBreakpoints
  debugRegs := s.debugRegs
  log := s.log

variable {k : Kernel} {s s' s'' : DebugSession}

/-! ### Operations out of view -/

@[simp] theorem view_request (k : Kernel) (s : DebugSession) : (request k s).1.view = s.view := rfl

@[simp] theorem view_setRip (tid rip : ℕ) (s : DebugSession) : (setRip tid rip s).view = s.view := rfl

@[simp] theorem view_pokeByte (k : Kernel) (address : ℕ) (val : UInt8) (s : DebugSession) :
    (pokeByte k address val s).1.view = s.view := by
  unfold pokeByte
  split_ifs <;> rfl

@[simp] theorem view_captureRegs (tid : ℕ) (s : DebugSession) :
    (captureRegs tid s).view = s.view := by
  unfold captureRegs
  cases s.regs tid <;> rfl

@[simp] theorem view_backUpOverInt3 (tid : ℕ) (status : WaitStatus) (s : DebugSession) :
    (backUpOverInt3 tid status s).view = s.view := by
  unfold backUpOverInt3
  split_ifs
  · cases s.regs tid with
    | none => rfl
    | some regs =>
      dsimp only
      split_ifs <;> rfl
  · rfl

@[simp] theorem view_rearm (k : Kernel) (address : ℕ) (s : DebugSession) :
    (rearm k address s).view = s.view := by
  unfold rearm
  split_ifs
  · exact view_pokeByte k address 0xCC s
  · rfl

@[simp] theorem view_liftCurrentBp (k : Kernel) (rip : ℕ) (s : DebugSession) :
    (liftCurrentBp k rip s).1.view = s.view := by
  unfold liftCurrentBp
  cases s.armedAt rip with
  | none => rfl
  | some bp => exact view_pokeByte k rip bp.originalByte s

@[simp] theorem view_setTemp (k : Kernel) (addr : ℕ) (s : DebugSession) :
    (setTemp k addr s).1.view = s.view := by
  unfold setTemp
  have hpoke := view_pokeByte k addr 0xCC s
  split_ifs
  · rfl
  · rcases hpoked : pokeByte k addr 0xCC s with ⟨poked, _ | orig⟩ <;> rw [hpoked] at hpoke <;>
      exact hpoke

@[simp] theorem view_clearTemp (k : Kernel) (t : Temp) (s : DebugSession) :
    (clearTemp k t s).view = s.view := by
  unfold clearTemp
  split_ifs
  · exact view_pokeByte k t.addr t.orig s
  · rfl

@[simp] theorem view_rewindOverBreakpoint (tid : ℕ) (status : WaitStatus) (bpAddr : ℕ)
    (s : DebugSession) : (rewindOverBreakpoint tid status bpAddr s).view = s.view := by
  unfold rewindOverBreakpoint
  split
  · split_ifs <;> rfl
  · rfl

@[simp] theorem view_doSetSoftBp (k : Kernel) (address : ℕ) (s : DebugSession) :
    (doSetSoftBp k address s).1.view = s.view := by
  unfold doSetSoftBp
  have hpoke := view_pokeByte k address 0xCC s
  cases s.softBreakpoints.find? fun bp ↦ decide (bp.address = address) with
  | some bp => rfl
  | none =>
    rcases hpoked : pokeByte k address 0xCC s with ⟨poked, _ | orig⟩ <;> rw [hpoked] at hpoke <;>
      exact hpoke

@[simp] theorem view_restoreByte (k : Kernel) (s : DebugSession) (bp : SoftBp) :
    (restoreByte k s bp).view = s.view := by
  unfold restoreByte
  split_ifs
  · exact view_pokeByte k bp.address bp.originalByte s
  · rfl

@[simp] theorem view_doRemoveSoftBp (k : Kernel) (id : ℕ) (s : DebugSession) :
    (doRemoveSoftBp k id s).view = s.view := by
  unfold doRemoveSoftBp
  cases s.softBreakpoints.find? fun bp ↦ decide (bp.id = id) with
  | none => rfl
  | some bp => exact view_restoreByte k s bp

@[simp] theorem view_doSetRegs (regs : Regs) (s : DebugSession) :
    (doSetRegs regs s).1.view = s.view := by
  unfold doSetRegs
  split_ifs
  · rfl
  · cases s.regs s.activeTid with
    | none => rfl
    | some _ => exact view_captureRegs s.activeTid _

/-! ### Events -/

/-- Only the log changes. -/
def Appends (s s' : DebugSession) (added : List Event) : Prop :=
  s'.view = { s.view with log := s.log ++ added }

theorem Appends.of_view (h : s'.view = s.view) : Appends s s' [] := by
  rw [Appends, h, List.append_nil]
  rfl

theorem Appends.trans {first second : List Event} (h : Appends s s' first)
    (h' : Appends s' s'' second) : Appends s s'' (first ++ second) := by
  have hlog : s'.log = s.log ++ first := congrArg View.log h
  rw [Appends] at h'
  rw [Appends, h', h, hlog, List.append_assoc]

theorem Appends.view {added : List Event} (h : Appends s s' added) {s'' : DebugSession}
    (hview : s''.view = s'.view) : Appends s s'' added := by
  rw [Appends, hview]
  exact h

theorem appends_resume (tid signal : ℕ) (s : DebugSession) :
    Appends s (resume tid signal s) [.resume tid signal] := rfl

theorem appends_report (type : DebugEventType) (tid address signal : ℕ) (s : DebugSession) :
    Appends s (report type tid address signal s)
      [.report ⟨type, tid, address, signal, s.stopContext⟩] := rfl

theorem appends_recordStop (site : WaitSite) (tid : ℕ) (result : WaitResult) (s : DebugSession) :
    Appends s (recordStop site tid result s) [.stop (stopOf site tid result s)] := rfl

/-- What a wait adds to the log. -/
theorem appends_waitpid (k : Kernel) (site : WaitSite) (tid : ℕ) (s : DebugSession) :
    Appends s (waitpid k site tid s).1
      ((k.waits s.clock).map fun result ↦ Event.stop (stopOf site tid result s)).toList := by
  unfold waitpid
  cases k.waits s.clock with
  | none => exact Appends.of_view rfl
  | some result => exact appends_recordStop site tid result { s with clock := s.clock + 1 }

/-- What a step of a thread adds to the log: nothing, or its resumption and its next stop, unless
the wait fails. -/
inductive Ran (k : Kernel) (tid : ℕ) : List Event → Prop
  | stays : Ran k tid []
  | lost (clock : ℕ) (hwait : k.waits clock = none) : Ran k tid [.resume tid 0]
  | stops (found : Stop) (htid : found.tid = tid)
      (hsite : found.site = .singleStep ∨ ∃ target, found.site = .runTo target) :
      Ran k tid [.resume tid 0, .stop found]

theorem ran_waitpid (k : Kernel) {site : WaitSite}
    (hsite : site = .singleStep ∨ ∃ target, site = .runTo target) (tid : ℕ) (s : DebugSession) :
    ∃ added, Ran k tid added ∧ Appends s (waitpid k site tid (resume tid 0 s)).1 added := by
  have hwait := (appends_resume tid 0 s).trans (appends_waitpid k site tid (resume tid 0 s))
  refine ⟨_, ?_, hwait⟩
  cases hfound : k.waits (resume tid 0 s).clock with
  | none => exact Ran.lost _ hfound
  | some result => exact Ran.stops (stopOf site tid result (resume tid 0 s)) rfl hsite

theorem ran_singleStep (k : Kernel) (tid : ℕ) (s : DebugSession) :
    ∃ added, Ran k tid added ∧ Appends s (singleStep k tid s) added :=
  ran_waitpid k (Or.inl rfl) tid s

theorem ran_stepThreadOverBp (k : Kernel) (tid : ℕ) (s : DebugSession) :
    ∃ added, Ran k tid added ∧ Appends s (stepThreadOverBp k tid s).1 added := by
  have hstays : ∃ added, Ran k tid added ∧ Appends s s added :=
    ⟨[], Ran.stays, Appends.of_view rfl⟩
  unfold stepThreadOverBp
  cases s.regs tid with
  | none => exact hstays
  | some regs =>
    dsimp only
    cases s.armedAt regs.rip with
    | none => exact hstays
    | some bp =>
      obtain ⟨added, hran, hstep⟩ :=
        ran_singleStep k tid (pokeByte k regs.rip bp.originalByte s).1
      refine ⟨added, hran, ?_⟩
      have hlifted : Appends s (pokeByte k regs.rip bp.originalByte s).1 [] :=
        Appends.of_view (view_pokeByte _ _ _ _)
      exact (hlifted.trans hstep).view (view_rearm _ _ _)

theorem ran_stepInstruction (k : Kernel) (tid : ℕ) (s : DebugSession) :
    ∃ added, Ran k tid added ∧ Appends s (stepInstruction k tid s) added := by
  unfold stepInstruction
  have hover := ran_stepThreadOverBp k tid s
  rcases hstep : stepThreadOverBp k tid s with ⟨stepped, _ | _⟩
  · -- nothing was lifted, and the session is as it was
    have hsame : stepped = s := by
      unfold stepThreadOverBp at hstep
      cases hregs : s.regs tid with
      | none =>
        rw [hregs] at hstep
        exact (Prod.mk.inj hstep).1.symm
      | some regs =>
        rw [hregs] at hstep
        dsimp only at hstep
        cases harmed : s.armedAt regs.rip with
        | none =>
          rw [harmed] at hstep
          exact (Prod.mk.inj hstep).1.symm
        | some bp =>
          rw [harmed] at hstep
          cases (Prod.mk.inj hstep).2
    rw [hsame]
    exact ran_singleStep k tid s
  · rw [hstep] at hover
    exact hover

theorem ran_runTo (k : Kernel) (tid rip target : ℕ) (s : DebugSession) :
    ∃ added, Ran k tid added ∧ Appends s (runTo k tid rip target s) added := by
  unfold runTo
  dsimp only
  set lifted := liftCurrentBp k rip s with hlifted
  set planted := setTemp k target lifted.1 with hplanted
  obtain ⟨added, hran, hwait⟩ := ran_waitpid k (Or.inr ⟨target, rfl⟩) tid planted.1
  refine ⟨added, hran, ?_⟩
  have hready : Appends s planted.1 [] := Appends.of_view (by rw [hplanted, view_setTemp, hlifted,
    view_liftCurrentBp])
  refine (hready.trans hwait).view ?_
  split_ifs
  · rw [view_rearm, view_clearTemp, view_rewindOverBreakpoint]
  · rw [view_clearTemp, view_rewindOverBreakpoint]

/-- Whatever the step is, only its thread runs. -/
theorem ran_stepThread (k : Kernel) (mode : StepMode) (targetAddress tid : ℕ) (s : DebugSession) :
    ∃ added, Ran k tid added ∧ Appends s (stepThread k mode targetAddress tid s) added := by
  have hstays : ∃ added, Ran k tid added ∧ Appends s s added :=
    ⟨[], Ran.stays, Appends.of_view rfl⟩
  unfold stepThread
  cases mode with
  | into => exact ran_stepInstruction k tid s
  | «over» =>
    dsimp only
    split
    · exact ran_runTo k tid _ _ s
    · exact ran_stepInstruction k tid s
  | out =>
    dsimp only
    split_ifs
    · exact ran_runTo k tid _ _ s
    · exact hstays
  | runToCursor =>
    dsimp only
    split_ifs
    · exact ran_runTo k tid _ _ s
    · exact hstays

end DebugSession

end Cecore.Debug
