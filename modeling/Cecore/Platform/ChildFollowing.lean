import Mathlib.Data.List.Nodup
import Mathlib.Data.List.Perm.Subperm
import Mathlib.Data.Nat.Notation
import Mathlib.Logic.Function.Basic
import Mathlib.Logic.Relation
import Mathlib.Tactic.SplitIfs

/-!
# Following the children of a target

`LinuxDebugger::attach` and `pollChildren` of `platform/linux/ptrace_wrapper.cpp`, among tracees that
fork, stop and take signals on their own. A stop has a cause, of which the debugger only sees the
status that `waitpid` returns. Each stop is one of the list of all stops, so it is known which were
handled, which children were reported, and which signals were delivered by continuing.
-/

set_option autoImplicit false
set_option relaxedAutoImplicit false

namespace Cecore.ChildFollowing

/-! ### Stops -/

def sigtrap : ℕ := 5
def sigstop : ℕ := 19

def ptraceEventFork : ℕ := 1
def ptraceEventVfork : ℕ := 2
def ptraceEventClone : ℕ := 3
def ptraceEventExec : ℕ := 4
def ptraceEventExit : ℕ := 6

inductive NewChild
  | fork
  | vfork
  | clone
  deriving DecidableEq, Repr

def NewChild.event : NewChild → ℕ
  | .fork => ptraceEventFork
  | .vfork => ptraceEventVfork
  | .clone => ptraceEventClone

/-- The other events that `attach` asks for. -/
inductive OtherEvent
  | exec
  | exit
  deriving DecidableEq, Repr

def OtherEvent.event : OtherEvent → ℕ
  | .exec => ptraceEventExec
  | .exit => ptraceEventExit

/-- The signals that stop a group: `SIGSTOP`, `SIGTSTP`, `SIGTTIN` and `SIGTTOU`. -/
inductive StopSignal
  | stop
  | tstp
  | ttin
  | ttou
  deriving DecidableEq, Repr

def StopSignal.number : StopSignal → ℕ
  | .stop => sigstop
  | .tstp => 20
  | .ttin => 21
  | .ttou => 22

/-- Why a tracee has stopped. -/
inductive Cause
  | newChild (kind : NewChild) (child : ℕ)
  | otherEvent (event : OtherEvent)
  /-- The `SIGSTOP` that ptrace sends to a process that it attaches to. -/
  | ptraceStop
  /-- A step or a breakpoint of the debugger. -/
  | trap
  | groupStop (signal : StopSignal)
  /-- A signal of the application. -/
  | signal (number : ℕ)
  deriving DecidableEq, Repr

/-- What `waitpid` tells of a stop. -/
structure Status where
  signal : ℕ
  event : ℕ
  deriving DecidableEq, Repr

def Cause.status : Cause → Status
  | .newChild kind _ => ⟨sigtrap, kind.event⟩
  | .otherEvent other => ⟨sigtrap, other.event⟩
  | .ptraceStop => ⟨sigstop, 0⟩
  | .trap => ⟨sigtrap, 0⟩
  | .groupStop stopping => ⟨stopping.number, 0⟩
  | .signal number => ⟨number, 0⟩

/-- `PTRACE_GETEVENTMSG`, which is read for new children only. -/
def Cause.eventMessage : Cause → ℕ
  | .newChild _ child => child
  | _ => 0

/-- A stop of the process `pid`, with the number it has among all stops. -/
structure Stop where
  serial : ℕ
  pid : ℕ
  cause : Cause
  deriving DecidableEq, Repr

/-! ### The debugger -/

/-- The child that `pollChildren` reports for a stop. -/
def reportedChild (status : Status) (message : ℕ) : Option ℕ :=
  if (status.event = ptraceEventFork ∨ status.event = ptraceEventVfork ∨
      status.event = ptraceEventClone) ∧ message ≠ 0 then some message
  else none

/-- The signal that `pollChildren` continues a stop with. -/
def contSig (status : Status) : ℕ :=
  if status.event = 0 ∧ status.signal ≠ sigtrap then status.signal else 0

def Stop.report (stop : Stop) : Option ℕ := reportedChild stop.cause.status stop.cause.eventMessage

/-- A signal that a tracee gets when it is continued from a stop. -/
structure Delivery where
  stop : Stop
  signal : ℕ
  deriving DecidableEq, Repr

/-- `PTRACE_CONT` injects a signal where a signal was being delivered. In a group stop this is up to
the kernel. -/
def Cause.takesSignal (injects : Bool) : Cause → Bool
  | .ptraceStop | .trap | .signal _ => true
  | .groupStop _ => injects
  | .newChild _ _ | .otherEvent _ => false

/-- What continuing a stop delivers. -/
def Stop.delivery (injects : Bool) (stop : Stop) : Option Delivery :=
  if contSig stop.cause.status ≠ 0 ∧ stop.cause.takesSignal injects then
    some ⟨stop, contSig stop.cause.status⟩
  else none

/-! ### The tracees -/

inductive Activity
  | running
  /-- Stopped, and already waited for by `attach`. -/
  | held
  /-- Stopped, for the next `waitpid` to find. -/
  | stopped (stop : Stop)
  | exited
  deriving DecidableEq, Repr

/-- A process or a thread that is traced; `owesStop` says that the `SIGSTOP` of ptrace is to come. -/
structure Tracee where
  activity : Activity
  owesStop : Bool
  deriving DecidableEq, Repr

/-- The tracees, all stops so far, and what the debugger has made of them. -/
structure World where
  tracee : ℕ → Option Tracee
  raised : List Stop := []
  handled : List Stop := []
  delivered : List Delivery := []
  /-- The children that the call of `pollChildren` under way has found. -/
  polling : Option (List ℕ) := none
  returned : List ℕ := []

namespace World

/-- What the calls of `pollChildren` have reported. -/
def reports (w : World) : List ℕ := w.returned ++ w.polling.getD []

/-- The children of tracees, in the order of the events that tell of them. -/
def born (w : World) : List ℕ := w.raised.filterMap Stop.report

/-- A tracee stops. -/
def halt (w : World) (pid : ℕ) (cause : Cause) (owesStop : Bool) : World :=
  { w with
    tracee :=
      Function.update w.tracee pid (some ⟨.stopped ⟨w.raised.length, pid, cause⟩, owesStop⟩)
    raised := w.raised ++ [⟨w.raised.length, pid, cause⟩] }

/-- A turn of the loop of `pollChildren`, which has found `kids`, with a stop. -/
def handle (injects : Bool) (w : World) (kids : List ℕ) (stop : Stop) (owesStop : Bool) : World :=
  { w with
    tracee := Function.update w.tracee stop.pid (some ⟨.running, owesStop⟩)
    handled := w.handled ++ [stop]
    delivered := w.delivered ++ (stop.delivery injects).toList
    polling := some (kids ++ stop.report.toList) }

end World

/-- The stops of a running tracee other than those that tell of a child, with what it owes before and
after. -/
inductive MayStop : Bool → Cause → Bool → Prop
  | ptraceStop : MayStop true .ptraceStop false
  | signal (owesStop : Bool) (number : ℕ) (h : 0 < number) :
    MayStop owesStop (.signal number) owesStop
  | groupStop (owesStop : Bool) (signal : StopSignal) :
    MayStop owesStop (.groupStop signal) owesStop
  | trap (owesStop : Bool) : MayStop owesStop .trap owesStop
  | otherEvent (owesStop : Bool) (event : OtherEvent) :
    MayStop owesStop (.otherEvent event) owesStop

/-- One step of a tracee or of the debugger. A child owes the `SIGSTOP` of ptrace from its birth on,
whether its parent's stop has been handled or not. What `attach` holds proceeds when its owner
continues it. -/
inductive Step (injects : Bool) : World → World → Prop
  | newChild (w : World) (pid child : ℕ) (kind : NewChild)
      (hparent : w.tracee pid = some ⟨.running, false⟩) (hchild : w.tracee child = none)
      (hfresh : child ∉ w.born) (hne : child ≠ 0) :
    Step injects w
      { w.halt pid (.newChild kind child) false with
        tracee := Function.update (w.halt pid (.newChild kind child) false).tracee child
          (some ⟨.running, true⟩) }
  | stop (w : World) (pid : ℕ) (cause : Cause) (owed owes : Bool)
      (hrunning : w.tracee pid = some ⟨.running, owed⟩) (hmay : MayStop owed cause owes) :
    Step injects w (w.halt pid cause owes)
  | exit (w : World) (pid : ℕ) (owes : Bool) (hrunning : w.tracee pid = some ⟨.running, owes⟩) :
    Step injects w { w with tracee := Function.update w.tracee pid (some ⟨.exited, owes⟩) }
  | proceed (w : World) (pid : ℕ) (owes : Bool) (hheld : w.tracee pid = some ⟨.held, owes⟩) :
    Step injects w { w with tracee := Function.update w.tracee pid (some ⟨.running, owes⟩) }
  | poll (w : World) (hidle : w.polling = none) : Step injects w { w with polling := some [] }
  | handle (w : World) (kids : List ℕ) (pid : ℕ) (stop : Stop) (owes : Bool)
      (hpolling : w.polling = some kids) (hstopped : w.tracee pid = some ⟨.stopped stop, owes⟩) :
    Step injects w (w.handle injects kids stop owes)
  | reap (w : World) (kids : List ℕ) (pid : ℕ) (owes : Bool) (hpolling : w.polling = some kids)
      (hexited : w.tracee pid = some ⟨.exited, owes⟩) :
    Step injects w { w with tracee := Function.update w.tracee pid none }
  | finish (w : World) (kids : List ℕ) (hpolling : w.polling = some kids)
      (hquiet : ∀ pid t, w.tracee pid = some t → t.activity = .running ∨ t.activity = .held) :
    Step injects w { w with polling := none, returned := w.returned ++ kids }

/-- `attach` waits for the first stop, be it the `SIGSTOP` of ptrace or a signal in front of it. -/
def attached (pid : ℕ) (first : Cause) : World where
  tracee := Function.update (fun _ ↦ none) pid (some ⟨.held, decide (first ≠ .ptraceStop)⟩)

def Reachable (injects : Bool) (w : World) : Prop :=
  ∃ pid first, Relation.ReflTransGen (Step injects) (attached pid first) w

/-! ### What is asked of the debugger -/

/-- Children are reported once each and go on from every stop that was handled, and the signals that
are delivered are those of the application, once each. -/
structure Followed (w : World) : Prop where
  reported_once : w.reports.Nodup
  reported_iff : ∀ child, child ∈ w.reports ↔
    ∃ stop ∈ w.handled, ∃ kind, stop.cause = .newChild kind child
  /-- A child that is not reported yet will be, by a stop that waits to be handled. -/
  reported_or_waits : ∀ child ∈ w.born, child ∈ w.reports ∨ ∃ stop owes kind,
    w.tracee stop.pid = some ⟨.stopped stop, owes⟩ ∧ stop.cause = .newChild kind child
  running : ∀ child ∈ w.born, ∀ activity owes, w.tracee child = some ⟨activity, owes⟩ →
    activity = .running ∨ activity = .exited ∨ ∃ stop, activity = .stopped stop ∧ stop ∉ w.handled
  delivered_once : w.delivered.Nodup
  delivered_iff : ∀ d, d ∈ w.delivered ↔ d.stop ∈ w.handled ∧ d.stop.cause = .signal d.signal

/-- A stop that `pollChildren` takes for what it is not: the `SIGSTOP` of ptrace and a group stop for
signals of the application, a `SIGTRAP` of the application for a trap. -/
def Misread (injects : Bool) : Cause → Prop
  | .ptraceStop => True
  | .groupStop _ => injects
  | .signal number => number = sigtrap
  | .newChild _ _ | .otherEvent _ | .trap => False

/-! ### Single stops -/

theorem report_eq_some {stop : Stop} {child : ℕ} (h : stop.report = some child) :
    ∃ kind, stop.cause = .newChild kind child := by
  obtain ⟨serial, pid, cause⟩ := stop
  unfold Stop.report reportedChild at h
  split_ifs at h with hevent
  cases cause with
  | newChild kind c =>
    cases h
    exact ⟨kind, rfl⟩
  | otherEvent other => exact absurd rfl hevent.2
  | ptraceStop => exact absurd rfl hevent.2
  | trap => exact absurd rfl hevent.2
  | groupStop stopping => exact absurd rfl hevent.2
  | signal number => exact absurd rfl hevent.2

theorem report_newChild {stop : Stop} {kind : NewChild} {child : ℕ} (hne : child ≠ 0)
    (h : stop.cause = .newChild kind child) : stop.report = some child := by
  rw [Stop.report, h, reportedChild, if_pos]
  · rfl
  · refine ⟨?_, hne⟩
    cases kind
    · exact .inl rfl
    · exact .inr (.inl rfl)
    · exact .inr (.inr rfl)

theorem stop_of_delivery {injects : Bool} {stop : Stop} {d : Delivery}
    (h : stop.delivery injects = some d) : d.stop = stop := by
  unfold Stop.delivery at h
  split_ifs at h
  cases h
  rfl

theorem delivery_signal {injects : Bool} {stop : Stop} {number : ℕ}
    (h : stop.cause = .signal number) (hpos : 0 < number) :
    stop.delivery injects = if number = sigtrap then none else some ⟨stop, number⟩ := by
  have hsig : contSig (Cause.signal number).status = if number = sigtrap then 0 else number := by
    by_cases htrap : number = sigtrap
    · rw [if_pos htrap]
      exact if_neg fun hne ↦ hne.2 htrap
    · rw [if_neg htrap]
      exact if_pos ⟨rfl, htrap⟩
  rw [Stop.delivery, h, hsig]
  by_cases htrap : number = sigtrap
  · simp [htrap]
  · rw [if_neg htrap, if_neg htrap, if_pos ⟨by omega, rfl⟩]

theorem delivery_groupStop {injects : Bool} {stop : Stop} {stopping : StopSignal}
    (h : stop.cause = .groupStop stopping) :
    stop.delivery injects = if injects then some ⟨stop, stopping.number⟩ else none := by
  rw [Stop.delivery, h]
  cases injects <;> cases stopping <;> rfl

/-- A stop is continued with the signal of the application, and with no other, unless it is misread. -/
theorem delivery_iff {injects : Bool} {stop : Stop}
    (hpositive : ∀ number, stop.cause = .signal number → 0 < number) :
    (∀ d, stop.delivery injects = some d ↔ d.stop = stop ∧ stop.cause = .signal d.signal) ↔
      ¬Misread injects stop.cause := by
  cases hcause : stop.cause with
  | newChild kind child =>
    have hnone : stop.delivery injects = none := by
      rw [Stop.delivery, hcause]
      cases kind <;> rfl
    simp [hnone, Misread]
  | otherEvent other =>
    have hnone : stop.delivery injects = none := by
      rw [Stop.delivery, hcause]
      cases other <;> rfl
    simp [hnone, Misread]
  | trap =>
    have hnone : stop.delivery injects = none := by
      rw [Stop.delivery, hcause]
      rfl
    simp [hnone, Misread]
  | ptraceStop =>
    have hsome : stop.delivery injects = some ⟨stop, sigstop⟩ := by
      rw [Stop.delivery, hcause]
      rfl
    refine iff_of_false (fun h ↦ ?_) fun h ↦ h trivial
    cases ((h _).mp hsome).2
  | groupStop stopping =>
    rw [delivery_groupStop hcause]
    cases injects with
    | true =>
      refine iff_of_false (fun h ↦ ?_) fun h ↦ h rfl
      cases ((h _).mp rfl).2
    | false => simp [Misread]
  | signal number =>
    rw [delivery_signal hcause (hpositive number hcause)]
    by_cases htrap : number = sigtrap
    · refine iff_of_false (fun h ↦ ?_) fun h ↦ h htrap
      have hmissing := (h ⟨stop, number⟩).mpr ⟨rfl, rfl⟩
      rw [if_pos htrap] at hmissing
      cases hmissing
    · refine iff_of_true (fun d ↦ ?_) htrap
      rw [if_neg htrap]
      constructor
      · intro h
        cases h
        exact ⟨rfl, rfl⟩
      · rintro ⟨hstop, hsignal⟩
        obtain ⟨stop', signal⟩ := d
        cases hsignal
        cases hstop
        rfl

/-! ### What every run keeps -/

theorem filterMap_concat {α β : Type*} (f : α → Option β) (l : List α) (a : α) :
    (l ++ [a]).filterMap f = l.filterMap f ++ (f a).toList := by
  rw [List.filterMap_append]
  cases h : f a with
  | none => rw [List.filterMap_cons_none h, Option.toList_none, List.filterMap_nil]
  | some b => rw [List.filterMap_cons_some h, Option.toList_some, List.filterMap_nil]

/-- The accounts of a run: each stop waits or is handled, and what was reported and delivered is what
the handled stops give. -/
structure Accounts (injects : Bool) (w : World) : Prop where
  serial : ∀ stop ∈ w.raised, stop.serial < w.raised.length
  waiting : ∀ pid stop owes, w.tracee pid = some ⟨.stopped stop, owes⟩ →
    stop.pid = pid ∧ stop ∈ w.raised ∧ stop ∉ w.handled
  handled_raised : ∀ stop ∈ w.handled, stop ∈ w.raised
  handled_nodup : w.handled.Nodup
  complete : ∀ stop ∈ w.raised, stop ∈ w.handled ∨
    ∃ owes, w.tracee stop.pid = some ⟨.stopped stop, owes⟩
  held : ∀ pid owes, w.tracee pid = some ⟨.held, owes⟩ → pid ∉ w.born
  born_nodup : w.born.Nodup
  child_ne : ∀ stop ∈ w.raised, ∀ kind child, stop.cause = .newChild kind child → child ≠ 0
  positive : ∀ stop ∈ w.raised, ∀ number, stop.cause = .signal number → 0 < number
  reports : w.reports = w.handled.filterMap Stop.report
  delivered : w.delivered = w.handled.filterMap (Stop.delivery injects)

variable {injects : Bool} {w w' : World}

theorem accounts_attached (pid : ℕ) (first : Cause) : Accounts injects (attached pid first) where
  serial := by simp [attached]
  waiting pid' stop owes h := by
    dsimp only [attached] at h
    by_cases hpid : pid' = pid
    · subst hpid
      rw [Function.update_self] at h
      cases h
    · rw [Function.update_of_ne hpid] at h
      cases h
  handled_raised := by simp [attached]
  handled_nodup := List.nodup_nil
  complete := by simp [attached]
  held _ _ _ := List.not_mem_nil
  born_nodup := List.nodup_nil
  child_ne := by simp [attached]
  positive := by simp [attached]
  reports := rfl
  delivered := rfl

/-- A tracee changes that does not wait with a stop, before or after. -/
theorem Accounts.update (h : Accounts injects w) (pid : ℕ) (t : Option Tracee)
    (hbefore : ∀ stop owes, w.tracee pid ≠ some ⟨.stopped stop, owes⟩)
    (hstopped : ∀ stop owes, t ≠ some ⟨.stopped stop, owes⟩)
    (hheld : ∀ owes, t ≠ some ⟨.held, owes⟩) :
    Accounts injects { w with tracee := Function.update w.tracee pid t } :=
  { h with
    waiting := by
      intro pid' stop owes hwaits
      dsimp only at hwaits
      by_cases hpid : pid' = pid
      · subst hpid
        rw [Function.update_self] at hwaits
        exact absurd hwaits (hstopped stop owes)
      · rw [Function.update_of_ne hpid] at hwaits
        exact h.waiting pid' stop owes hwaits
    complete := by
      intro stop hraised
      rcases h.complete stop hraised with hhandled | ⟨owes, hwaits⟩
      · exact .inl hhandled
      · refine .inr ⟨owes, ?_⟩
        dsimp only
        rw [Function.update_of_ne, hwaits]
        intro hpid
        exact hbefore stop owes (hpid ▸ hwaits)
    held := by
      intro pid' owes hholds
      dsimp only at hholds
      by_cases hpid : pid' = pid
      · subst hpid
        rw [Function.update_self] at hholds
        exact absurd hholds (hheld owes)
      · rw [Function.update_of_ne hpid] at hholds
        exact h.held pid' owes hholds }

theorem born_halt (w : World) (pid : ℕ) (cause : Cause) (owes : Bool) :
    (w.halt pid cause owes).born =
      w.born ++ (Stop.report ⟨w.raised.length, pid, cause⟩).toList := by
  exact filterMap_concat ..

/-- A running tracee stops. -/
theorem Accounts.halt (h : Accounts injects w) {pid : ℕ} {cause : Cause} {owed owes : Bool}
    (hrunning : w.tracee pid = some ⟨.running, owed⟩)
    (hchild : ∀ kind child, cause = .newChild kind child →
      child ≠ 0 ∧ w.tracee child = none ∧ child ∉ w.born)
    (hsignal : ∀ number, cause = .signal number → 0 < number) :
    Accounts injects (w.halt pid cause owes) := by
  have hnew : (⟨w.raised.length, pid, cause⟩ : Stop) ∉ w.raised := fun hmem ↦
    Nat.lt_irrefl _ (h.serial _ hmem)
  have hreport : ∀ child, Stop.report ⟨w.raised.length, pid, cause⟩ = some child →
      w.tracee child = none ∧ child ∉ w.born := fun child hsome ↦ by
    obtain ⟨kind, hcause⟩ := report_eq_some hsome
    exact (hchild kind child hcause).2
  have hraised : ∀ stop, stop ∈ (w.halt pid cause owes).raised ↔
      stop ∈ w.raised ∨ stop = ⟨w.raised.length, pid, cause⟩ := fun stop ↦ by
    simp [World.halt]
  have hself : (w.halt pid cause owes).tracee pid =
      some ⟨.stopped ⟨w.raised.length, pid, cause⟩, owes⟩ := Function.update_self ..
  have hother : ∀ pid', pid' ≠ pid → (w.halt pid cause owes).tracee pid' = w.tracee pid' :=
    fun pid' hpid ↦ Function.update_of_ne hpid ..
  exact
    { serial := by
        intro stop hstop
        have hlength : (w.halt pid cause owes).raised.length = w.raised.length + 1 :=
          List.length_append
        rw [hlength]
        rcases (hraised stop).mp hstop with hold | rfl
        · exact Nat.lt_succ_of_lt (h.serial stop hold)
        · exact Nat.lt_succ_self _
      waiting := by
        intro pid' stop owes' hwaits
        by_cases hpid : pid' = pid
        · subst hpid
          rw [hself] at hwaits
          cases hwaits
          exact ⟨rfl, (hraised _).mpr (.inr rfl), fun hhandled ↦ hnew (h.handled_raised _ hhandled)⟩
        · rw [hother pid' hpid] at hwaits
          obtain ⟨hown, hold, hunhandled⟩ := h.waiting pid' stop owes' hwaits
          exact ⟨hown, (hraised stop).mpr (.inl hold), hunhandled⟩
      handled_raised := fun stop hhandled ↦
        (hraised stop).mpr (.inl (h.handled_raised stop hhandled))
      handled_nodup := h.handled_nodup
      complete := by
        intro stop hstop
        rcases (hraised stop).mp hstop with hold | rfl
        · rcases h.complete stop hold with hhandled | ⟨owes', hwaits⟩
          · exact .inl hhandled
          · refine .inr ⟨owes', ?_⟩
            rw [hother, hwaits]
            intro hpid
            rw [hpid, hrunning] at hwaits
            cases hwaits
        · exact .inr ⟨owes, hself⟩
      held := by
        intro pid' owes' hholds
        have hold : w.tracee pid' = some ⟨.held, owes'⟩ := by
          rw [← hother pid', hholds]
          rintro rfl
          rw [hself] at hholds
          cases hholds
        rw [born_halt, List.mem_append, Option.mem_toList]
        rintro (hborn | hnewborn)
        · exact h.held pid' owes' hold hborn
        · rw [(hreport pid' hnewborn).1] at hold
          cases hold
      born_nodup := by
        rw [born_halt]
        refine List.nodup_append.mpr ⟨h.born_nodup, Option.toList_nodup _, ?_⟩
        rintro child hborn child' hnewborn rfl
        exact (hreport child (Option.mem_toList.mp hnewborn)).2 hborn
      child_ne := by
        intro stop hstop kind child hcause
        rcases (hraised stop).mp hstop with hold | rfl
        · exact h.child_ne stop hold kind child hcause
        · exact (hchild kind child hcause).1
      positive := by
        intro stop hstop number hcause
        rcases (hraised stop).mp hstop with hold | rfl
        · exact h.positive stop hold number hcause
        · exact hsignal number hcause
      reports := h.reports
      delivered := h.delivered }

/-- `pollChildren` handles a stop that waits. -/
theorem Accounts.handle (h : Accounts injects w) {kids : List ℕ} {pid : ℕ} {stop : Stop}
    {owes : Bool} (hpolling : w.polling = some kids)
    (hstopped : w.tracee pid = some ⟨.stopped stop, owes⟩) :
    Accounts injects (w.handle injects kids stop owes) := by
  obtain ⟨rfl, hraised, hunhandled⟩ := h.waiting pid stop owes hstopped
  have hhandled : ∀ stop', stop' ∈ (w.handle injects kids stop owes).handled ↔
      stop' ∈ w.handled ∨ stop' = stop := fun stop' ↦ by
    simp [World.handle]
  have hself : (w.handle injects kids stop owes).tracee stop.pid = some ⟨.running, owes⟩ :=
    Function.update_self ..
  have hother : ∀ pid', pid' ≠ stop.pid →
      (w.handle injects kids stop owes).tracee pid' = w.tracee pid' :=
    fun pid' hpid ↦ Function.update_of_ne hpid ..
  exact
    { serial := h.serial
      waiting := by
        intro pid' stop' owes' hwaits
        have hpid : pid' ≠ stop.pid := by
          rintro rfl
          rw [hself] at hwaits
          cases hwaits
        rw [hother pid' hpid] at hwaits
        obtain ⟨hown, hold, hunhandled'⟩ := h.waiting pid' stop' owes' hwaits
        refine ⟨hown, hold, fun hmem ↦ ?_⟩
        rcases (hhandled stop').mp hmem with hbefore | rfl
        · exact hunhandled' hbefore
        · exact hpid hown.symm
      handled_raised := by
        intro stop' hmem
        rcases (hhandled stop').mp hmem with hbefore | hlast
        · exact h.handled_raised stop' hbefore
        · exact hlast ▸ hraised
      handled_nodup := by
        refine List.nodup_append.mpr ⟨h.handled_nodup, List.nodup_singleton stop, ?_⟩
        rintro stop' hbefore stop'' hmem rfl
        exact hunhandled (List.mem_singleton.mp hmem ▸ hbefore)
      complete := by
        intro stop' hraised'
        rcases h.complete stop' hraised' with hbefore | ⟨owes', hwaits⟩
        · exact .inl ((hhandled stop').mpr (.inl hbefore))
        · by_cases hpid : stop'.pid = stop.pid
          · rw [hpid, hstopped] at hwaits
            cases hwaits
            exact .inl ((hhandled stop).mpr (.inr rfl))
          · exact .inr ⟨owes', (hother _ hpid).trans hwaits⟩
      held := by
        intro pid' owes' hholds
        refine h.held pid' owes' ?_
        rw [← hother pid', hholds]
        rintro rfl
        rw [hself] at hholds
        cases hholds
      born_nodup := h.born_nodup
      child_ne := h.child_ne
      positive := h.positive
      reports := by
        have hbefore := h.reports
        rw [World.reports, hpolling] at hbefore
        refine Eq.trans ?_ (filterMap_concat Stop.report w.handled stop).symm
        rw [← hbefore, List.append_assoc]
        rfl
      delivered := by
        refine Eq.trans ?_ (filterMap_concat (Stop.delivery injects) w.handled stop).symm
        rw [← h.delivered]
        rfl }

theorem Accounts.step (h : Accounts injects w) (hstep : Step injects w w') :
    Accounts injects w' := by
  cases hstep with
  | newChild pid child kind hparent hchild hfresh hne =>
    have hother : child ≠ pid := by
      rintro rfl
      rw [hparent] at hchild
      cases hchild
    have hhalted : (w.halt pid (.newChild kind child) false).tracee child = none :=
      (Function.update_of_ne hother ..).trans hchild
    refine (h.halt hparent ?_ ?_).update child _ ?_ ?_ ?_
    · rintro kind' child' ⟨⟩
      exact ⟨hne, hchild, hfresh⟩
    · rintro number ⟨⟩
    · intro stop owes hwaits
      rw [hhalted] at hwaits
      cases hwaits
    · rintro stop owes ⟨⟩
    · rintro owes ⟨⟩
  | stop pid cause owed owes hrunning hmay =>
    refine h.halt hrunning ?_ ?_
    · rintro kind child rfl
      cases hmay
    · rintro number rfl
      cases hmay with
      | signal owesStop number hpos => exact hpos
  | exit pid owes hrunning =>
    refine h.update pid _ ?_ ?_ ?_
    · intro stop owes' hwaits
      rw [hrunning] at hwaits
      cases hwaits
    · rintro stop owes' ⟨⟩
    · rintro owes' ⟨⟩
  | proceed pid owes hheld =>
    refine h.update pid _ ?_ ?_ ?_
    · intro stop owes' hwaits
      rw [hheld] at hwaits
      cases hwaits
    · rintro stop owes' ⟨⟩
    · rintro owes' ⟨⟩
  | poll hidle =>
    have hreports := h.reports
    rw [World.reports, hidle] at hreports
    exact { h with reports := hreports }
  | handle kids pid stop owes hpolling hstopped => exact h.handle hpolling hstopped
  | reap kids pid owes hpolling hexited =>
    refine h.update pid _ ?_ ?_ ?_
    · intro stop owes' hwaits
      rw [hexited] at hwaits
      cases hwaits
    · rintro stop owes' ⟨⟩
    · rintro owes' ⟨⟩
  | finish kids hpolling hquiet =>
    have hreports := h.reports
    rw [World.reports, hpolling] at hreports
    exact { h with reports := (List.append_nil _).trans hreports }

theorem accounts_of_reachable (h : Reachable injects w) : Accounts injects w := by
  obtain ⟨pid, first, hrun⟩ := h
  induction hrun with
  | refl => exact accounts_attached pid first
  | tail hprefix hstep ih => exact ih.step hstep

/-! ### Followed children -/

theorem Accounts.mem_reports (h : Accounts injects w) {child : ℕ} :
    child ∈ w.reports ↔ ∃ stop ∈ w.handled, ∃ kind, stop.cause = .newChild kind child := by
  rw [h.reports, List.mem_filterMap]
  constructor
  · rintro ⟨stop, hstop, hreport⟩
    exact ⟨stop, hstop, report_eq_some hreport⟩
  · rintro ⟨stop, hstop, kind, hcause⟩
    have hne : child ≠ 0 := h.child_ne stop (h.handled_raised stop hstop) kind child hcause
    exact ⟨stop, hstop, report_newChild hne hcause⟩

/-- The handled stops are distinct and among all stops, whose children are distinct. -/
theorem Accounts.reports_nodup (h : Accounts injects w) : w.reports.Nodup := by
  obtain ⟨stops, hperm, hsublist⟩ := List.subperm_of_subset h.handled_nodup h.handled_raised
  have hnodup : (stops.filterMap Stop.report).Nodup := h.born_nodup.sublist (hsublist.filterMap _)
  rw [h.reports]
  exact (hperm.filterMap Stop.report).nodup_iff.mp hnodup

theorem Accounts.reported_or_waits (h : Accounts injects w) {child : ℕ} (hborn : child ∈ w.born) :
    child ∈ w.reports ∨ ∃ stop owes kind,
      w.tracee stop.pid = some ⟨.stopped stop, owes⟩ ∧ stop.cause = .newChild kind child := by
  obtain ⟨stop, hraised, hreport⟩ := List.mem_filterMap.mp hborn
  obtain ⟨kind, hcause⟩ := report_eq_some hreport
  rcases h.complete stop hraised with hhandled | ⟨owes, hwaits⟩
  · exact .inl (h.mem_reports.mpr ⟨stop, hhandled, kind, hcause⟩)
  · exact .inr ⟨stop, owes, kind, hwaits, hcause⟩

theorem Accounts.running (h : Accounts injects w) {child : ℕ} (hborn : child ∈ w.born)
    {activity : Activity} {owes : Bool} (htracee : w.tracee child = some ⟨activity, owes⟩) :
    activity = .running ∨ activity = .exited ∨
      ∃ stop, activity = .stopped stop ∧ stop ∉ w.handled := by
  cases activity with
  | running => exact .inl rfl
  | held => exact absurd hborn (h.held child owes htracee)
  | stopped stop => exact .inr (.inr ⟨stop, rfl, (h.waiting child stop owes htracee).2.2⟩)
  | exited => exact .inr (.inl rfl)

theorem Accounts.mem_delivered (h : Accounts injects w) {d : Delivery} :
    d ∈ w.delivered ↔ d.stop ∈ w.handled ∧ d.stop.delivery injects = some d := by
  rw [h.delivered, List.mem_filterMap]
  constructor
  · rintro ⟨stop, hstop, hdelivery⟩
    obtain rfl := stop_of_delivery hdelivery
    exact ⟨hstop, hdelivery⟩
  · rintro ⟨hstop, hdelivery⟩
    exact ⟨d.stop, hstop, hdelivery⟩

theorem Accounts.delivered_nodup (h : Accounts injects w) : w.delivered.Nodup := by
  rw [h.delivered]
  refine h.handled_nodup.filterMap fun stop stop' d hstop hstop' ↦ ?_
  rw [← stop_of_delivery hstop, ← stop_of_delivery hstop']

/-- In every run, whatever its order: children are followed and signals delivered as they should be if
and only if no stop that was handled is misread. -/
theorem followed_iff (h : Reachable injects w) :
    Followed w ↔ ∀ stop ∈ w.handled, ¬Misread injects stop.cause := by
  have haccounts := accounts_of_reachable h
  have hpositive : ∀ stop ∈ w.handled, ∀ number, stop.cause = .signal number → 0 < number :=
    fun stop hstop ↦ haccounts.positive stop (haccounts.handled_raised stop hstop)
  constructor
  · intro hfollowed stop hstop
    refine (delivery_iff (hpositive stop hstop)).mp fun d ↦ ?_
    constructor
    · intro hdelivery
      obtain rfl := stop_of_delivery hdelivery
      have hmem : d ∈ w.delivered := haccounts.mem_delivered.mpr ⟨hstop, hdelivery⟩
      exact ⟨rfl, ((hfollowed.delivered_iff d).mp hmem).2⟩
    · rintro ⟨rfl, hcause⟩
      exact (haccounts.mem_delivered.mp ((hfollowed.delivered_iff d).mpr ⟨hstop, hcause⟩)).2
  · intro hread
    refine
      { reported_once := haccounts.reports_nodup
        reported_iff := fun child ↦ haccounts.mem_reports
        reported_or_waits := fun child ↦ haccounts.reported_or_waits
        running := fun child hborn activity owes ↦ haccounts.running hborn
        delivered_once := haccounts.delivered_nodup
        delivered_iff := fun d ↦ ?_ }
    rw [haccounts.mem_delivered]
    refine and_congr_right fun hstop ↦ ?_
    rw [(delivery_iff (hpositive d.stop hstop)).mpr (hread d.stop hstop) d]
    exact and_iff_right rfl

/-- A target that forks, and gets a signal once the fork has been handled. -/
theorem followed_forkAndSignal : ∃ w, Reachable false w ∧ w.reports = [101] ∧
    w.delivered = [⟨⟨1, 100, .signal 11⟩, 11⟩] ∧ Followed w := by
  let target := attached 100 .ptraceStop
  have hrun := Relation.ReflTransGen.refl (r := Step false) (a := target)
  replace hrun := hrun.tail (.proceed _ 100 false rfl)
  replace hrun := hrun.tail (.newChild _ 100 101 .fork rfl rfl (by decide) (by decide))
  replace hrun := hrun.tail (.poll _ rfl)
  replace hrun := hrun.tail (.handle _ [] 100 ⟨0, 100, .newChild .fork 101⟩ false rfl rfl)
  replace hrun := hrun.tail (.stop _ 100 (.signal 11) false false rfl (.signal false 11 (by decide)))
  replace hrun := hrun.tail (.handle _ [101] 100 ⟨1, 100, .signal 11⟩ false rfl rfl)
  have hreachable : Reachable false _ := ⟨100, .ptraceStop, hrun⟩
  refine ⟨_, hreachable, rfl, rfl, (followed_iff hreachable).mpr ?_⟩
  rintro stop hstop hmisread
  rcases List.mem_cons.mp hstop with rfl | hstop
  · exact hmisread
  · obtain rfl := List.mem_singleton.mp hstop
    cases hmisread

/-- The child of a fork is stopped by ptrace, and continued with the signal that stopped it. -/
theorem attachStop_delivered : ∃ w, Reachable false w ∧
    w.delivered = [⟨⟨1, 101, .ptraceStop⟩, sigstop⟩] ∧ ¬Followed w := by
  let target := attached 100 .ptraceStop
  have hrun := Relation.ReflTransGen.refl (r := Step false) (a := target)
  replace hrun := hrun.tail (.proceed _ 100 false rfl)
  replace hrun := hrun.tail (.newChild _ 100 101 .fork rfl rfl (by decide) (by decide))
  replace hrun := hrun.tail (.stop _ 101 .ptraceStop true false rfl .ptraceStop)
  replace hrun := hrun.tail (.poll _ rfl)
  replace hrun := hrun.tail (.handle _ [] 101 ⟨1, 101, .ptraceStop⟩ false rfl rfl)
  refine ⟨_, ⟨100, .ptraceStop, hrun⟩, rfl, fun hfollowed ↦ ?_⟩
  cases ((hfollowed.delivered_iff ⟨⟨1, 101, .ptraceStop⟩, sigstop⟩).mp (.head _)).2

end Cecore.ChildFollowing
