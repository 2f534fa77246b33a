import Cecore.Debug.Turns
import Cecore.Library.Obligations

/-!
# Signals that arrive while threads are waited for

A thread that is stopped to be delivered a signal is owed that signal at its next resumption. The
main loop passes it on; a stop that any other wait returns, and a stop at an exception breakpoint,
is resumed without it. In runs where neither happens no signal is lost.
-/

set_option autoImplicit false
set_option relaxedAutoImplicit false

namespace Cecore.Debug

open Library

/-- The signal a stop is about to deliver, unless it is SIGTRAP. -/
def Stop.delivery (found : Stop) : Option (ℕ × ℕ) :=
  match found.result.status with
  | .stopped signal 0 => if signal = sigtrap then none else some (found.tid, signal)
  | _ => none

/-- A thread stopped to be delivered a signal is resumed with it. -/
def signals : Obligations Event ℕ ℕ where
  opens := fun e ↦ match e with
    | .stop found => found.delivery
    | _ => none
  answers := fun e ↦ match e with
    | .resume tid signal => some (tid, signal)
    | _ => none

/-- A signal arrives at the main loop, and there is no exception breakpoint for it. -/
def Event.SignalHandled : Event → Prop
  | .stop found => ∀ owed ∈ found.delivery, found.site = .poll ∧ owed.2 ∉ found.exceptions
  | _ => True

instance : DecidablePred Event.SignalHandled
  | .stop found => inferInstanceAs
      (Decidable (∀ owed ∈ found.delivery, found.site = .poll ∧ owed.2 ∉ found.exceptions))
  | .resume _ _ => .isTrue trivial
  | .report _ => .isTrue trivial

namespace DebugSession

variable {k : Kernel} {original : ℕ → UInt8} {s s' : DebugSession}

/-- The session's own waits add no obligation when no signal arrives at them. -/
theorem quiet_of_inner {added : List Event} (hinner : ∀ e ∈ added, e.Inner)
    (hhandled : ∀ e ∈ added, e.SignalHandled) : ∀ e ∈ added, signals.opens e = none := by
  intro e he
  cases e with
  | stop found =>
    cases hdelivery : found.delivery with
    | none => exact hdelivery
    | some owed => exact absurd (hhandled _ he owed hdelivery).1 (hinner _ he)
  | resume tid signal => rfl
  | report event => rfl

theorem settled_of_logs (hlogs : Logs s s') (hhandled : ∀ e ∈ s'.log, e.SignalHandled)
    (h : signals.Settled s.log) : signals.Settled s'.log := by
  obtain ⟨added, hadded, hinner⟩ := hlogs.log
  rw [hadded] at hhandled ⊢
  refine h.append (Obligations.settled_of_quiet (quiet_of_inner hinner fun e he ↦ ?_))
  exact hhandled e (List.mem_append_right _ he)

/-- A signal that the main loop finds is passed on at once. -/
theorem handleStop_signal {w signal : ℕ} {result : WaitResult}
    (hstatus : result.status = .stopped signal 0) (hsignal : signal ≠ sigtrap)
    (hexception : signal ∉ s.exceptionBreakSignals) :
    handleStop k w result.status (recordStop .poll w result s) =
      resume w signal (recordStop .poll w result s) := by
  have hclone : isEventStop (.stopped signal 0) ptraceEventClone = false := by
    simp [isEventStop, ptraceEventClone]
  have hnone : signal ∉ (recordStop .poll w result s).exceptionBreakSignals := hexception
  rw [hstatus]
  unfold handleStop
  dsimp only
  rw [hclone, if_neg (by simp), if_neg hsignal, if_neg hnone]

/-- One turn settles what it opens. -/
theorem settled_step (h : Intact k original s) (input : Input)
    (hhandled : ∀ e ∈ (step k s input).log, e.SignalHandled) (hsettled : signals.Settled s.log) :
    signals.Settled (step k s input).log := by
  by_cases hinput : ∃ w result, input = .poll w result
  · obtain ⟨w, result, rfl⟩ := hinput
    by_cases hpolled : (s.attached && !s.stopped) = true
    · obtain ⟨hlogs, -⟩ := @logs_step_poll k original s h w result hpolled
      obtain ⟨hlog, -, -⟩ := polled_code w result s
      have hstop : Event.stop (stopOf .poll w result s) ∈ (step k s (.poll w result)).log := by
        obtain ⟨added, hadded, -⟩ := hlogs.log
        rw [hadded, hlog]
        simp
      cases hdelivery : (stopOf .poll w result s).delivery with
      | none =>
        have hquiet : signals.Settled (polled w result s).log := by
          rw [hlog]
          refine hsettled.append (Obligations.settled_of_quiet fun e he ↦ ?_)
          rw [List.mem_singleton.mp he]
          exact hdelivery
        exact settled_of_logs hlogs hhandled hquiet
      | some owed =>
        obtain ⟨-, hexception⟩ := hhandled _ hstop owed hdelivery
        obtain ⟨tid, signal⟩ := owed
        have hstatus : result.status = .stopped signal 0 ∧ signal ≠ sigtrap ∧ tid = w := by
          unfold Stop.delivery stopOf at hdelivery
          dsimp only at hdelivery
          split at hdelivery
          · split_ifs at hdelivery with htrap
            rename_i sig hstopped
            obtain ⟨rfl, rfl⟩ := Prod.mk.inj (Option.some.inj hdelivery)
            exact ⟨hstopped, htrap, rfl⟩
          · cases hdelivery
        obtain ⟨hstatus, hsignal, rfl⟩ := hstatus
        have hresumed := @handleStop_signal k s tid signal result hstatus hsignal hexception
        have hattached : s.attached = true := (Bool.and_eq_true_iff.mp hpolled).1
        have hstep : step k s (.poll tid result) =
            resume tid signal (recordStop .poll tid result s) := by
          rw [step, if_pos hpolled, hresumed, closeDetached, if_pos]
          exact hattached
        have hpair : (step k s (.poll tid result)).log = s.log ++
            [.stop (stopOf .poll tid result s), .resume tid signal] := by
          rw [hstep]
          exact List.append_assoc s.log [_] [_]
        rw [hpair]
        exact hsettled.append (Obligations.settled_pair hdelivery rfl rfl)
    · rw [step, if_neg hpolled]
      exact hsettled
  · have hlogs := (@logs_step k original s h input fun w result hpoll ↦ hinput ⟨w, result, hpoll⟩).1
    exact settled_of_logs hlogs hhandled hsettled

/-- In a run where signals arrive only at the main loop, and none that an exception breakpoint waits
for, every thread is resumed with the signal it was stopped for. -/
theorem signals_kept (k : Kernel) (text : ℕ → UInt8) (inputs : List Input)
    (hhandled : ∀ e ∈ (run k (DebugSession.new text) inputs).log, e.SignalHandled) :
    signals.Kept (run k (DebugSession.new text) inputs).log := by
  have hsettled := @run_induction k text (DebugSession.new text)
    (fun s ↦ signals.Settled s.log) Event.SignalHandled
    (fun s input hs hlog hsettled ↦ settled_step hs input hlog hsettled)
    (intact_new k text) inputs hhandled Obligations.settled_nil
  exact hsettled.kept

/-- Two threads; the wait at the time `alarm` finds a thread with SIGALRM. -/
def alarmKernel (alarm : ℕ) : Kernel where
  mapped := fun _ ↦ true
  grants := fun _ ↦ true
  waits := fun clock ↦ some
    ⟨.stopped (if clock = alarm then 14 else sigtrap) (if clock = alarm then 0 else 128),
      some ⟨0x2000, 0x7000⟩, none, 0x2000⟩
  threads := fun _ ↦ [1, 2]
  eventMessage := fun _ ↦ 0
  readWord := fun _ _ ↦ 0
  callSize := fun _ _ ↦ none

/-- The second thread gets a signal while both run. -/
theorem signals_kept_alarm : signals.Kept (run (alarmKernel 100) (DebugSession.new fun _ ↦ 0x90)
    [.attach 1, .command .continue,
      .poll 2 ⟨.stopped 14 0, some ⟨0x2004, 0x7000⟩, none, 0x2004⟩, .detach]).log :=
  signals_kept (alarmKernel 100) (fun _ ↦ 0x90) _ (by decide)

/-- The first thread hits a breakpoint while the second is about to be delivered SIGALRM. -/
def alarmLog : List Event :=
  (run (alarmKernel 7) (DebugSession.new fun _ ↦ 0x90)
    [.attach 1, .command (.setSoftBp 0x1000), .command .continue,
      .poll 1 ⟨.stopped sigtrap 0, some ⟨0x1001, 0x7000⟩, none, 0x1000⟩,
      .command .continue]).log

/-- The signal that the second thread is found with when it is stopped is gone when both continue.
-/
theorem alarmLog_not_kept : ¬signals.Kept alarmLog := by
  intro hkept
  have hlog : alarmLog = alarmLog.take 5 ++ .stop ⟨2, .stopOthers,
      ⟨.stopped 14 0, some ⟨0x2000, 0x7000⟩, none, 0x2000⟩, [0x1000], false, []⟩ ::
        alarmLog.drop 6 := by decide
  have hresumed : signals.firstAnswer 2 (alarmLog.drop 6) = some 0 := by decide
  have hzero := hkept _ _ _ 2 14 hlog rfl 0 hresumed
  cases hzero

end DebugSession

end Cecore.Debug
