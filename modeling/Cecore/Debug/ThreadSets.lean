import Cecore.Debug.Turns
import Cecore.Debug.Watchpoints
import Mathlib.Data.Finset.Option

/-!
# Thread sets

What a session knows of its threads, against a census of the threads that the kernel has attached to
it. The census goes by what the waits of the session return: a clone event anywhere is a new thread,
an exit anywhere is the end of one. The session takes notice of both in its main loop only.
-/

set_option autoImplicit false
set_option relaxedAutoImplicit false

namespace Cecore.Debug

/-! ### The census -/

/-- The threads that the kernel has attached and that live, and those of them that are stopped,
after so many events. -/
structure Census where
  position : ℕ
  live : Finset ℕ
  halted : Finset ℕ
  deriving DecidableEq

namespace Census

/-- One more event. `born` is the new thread that the clone event at a place of the log tells of; it
is attached and stopped from the start. -/
def observe (born : ℕ → Option ℕ) (c : Census) : Event → Census
  | .resume tid _ => ⟨c.position + 1, c.live, c.halted.erase tid⟩
  | .report _ => ⟨c.position + 1, c.live, c.halted⟩
  | .stop found =>
    match found.result.status with
    | .exited | .signaled => ⟨c.position + 1, c.live.erase found.tid, c.halted.erase found.tid⟩
    | .continued => ⟨c.position + 1, c.live, c.halted⟩
    | .stopped _ _ =>
      let created := if isEventStop found.result.status ptraceEventClone then
        (born c.position).toFinset else ∅
      ⟨c.position + 1, insert found.tid (created ∪ c.live), insert found.tid (created ∪ c.halted)⟩

def after (born : ℕ → Option ℕ) (c : Census) (events : List Event) : Census :=
  events.foldl (observe born) c

end Census

/-- A wait for one thread finds it stopped, and not because of a clone. -/
def Stop.Expected (found : Stop) : Prop :=
  found.site ≠ .poll → found.site ≠ .cleanup →
    found.result.status.stopSignal? ≠ none ∧
      isEventStop found.result.status ptraceEventClone = false

def Event.Expected : Event → Prop
  | .stop found => found.Expected
  | _ => True

namespace Census

variable {born : ℕ → Option ℕ} {c : Census}

theorem after_append (first second : List Event) :
    c.after born (first ++ second) = (c.after born first).after born second :=
  List.foldl_append

/-- The threads that a stop adds to both sets. -/
theorem observe_stopped {found : Stop} {signal event : ℕ}
    (hstatus : found.result.status = .stopped signal event) : c.observe born (.stop found) =
      let created := if isEventStop (.stopped signal event) ptraceEventClone then
        (born c.position).toFinset else ∅
      ⟨c.position + 1, insert found.tid (created ∪ c.live),
        insert found.tid (created ∪ c.halted)⟩ := by
  simp only [observe, hstatus]

theorem observe_plain {found : Stop} {signal event : ℕ}
    (hstatus : found.result.status = .stopped signal event)
    (hclone : isEventStop found.result.status ptraceEventClone = false) :
    c.observe born (.stop found) =
      ⟨c.position + 1, insert found.tid c.live, insert found.tid c.halted⟩ := by
  rw [hstatus] at hclone
  rw [observe_stopped hstatus, hclone]
  simp

/-- A clone event adds the new thread too. -/
theorem observe_clone {found : Stop}
    (hclone : isEventStop found.result.status ptraceEventClone = true) :
    c.observe born (.stop found) =
      ⟨c.position + 1, insert found.tid ((born c.position).toFinset ∪ c.live),
        insert found.tid ((born c.position).toFinset ∪ c.halted)⟩ := by
  have hstatus : found.result.status = .stopped sigtrap ptraceEventClone :=
    of_decide_eq_true hclone
  rw [hstatus] at hclone
  rw [observe_stopped hstatus]
  dsimp only
  rw [if_pos hclone]

theorem observe_expected {found : Stop} (hexpected : found.Expected) (hpoll : found.site ≠ .poll)
    (hcleanup : found.site ≠ .cleanup) : c.observe born (.stop found) =
      ⟨c.position + 1, insert found.tid c.live, insert found.tid c.halted⟩ := by
  obtain ⟨hstopped, hclone⟩ := hexpected hpoll hcleanup
  cases hstatus : found.result.status with
  | stopped signal event => exact observe_plain hstatus hclone
  | exited => rw [hstatus] at hstopped; exact absurd rfl hstopped
  | signaled => rw [hstatus] at hstopped; exact absurd rfl hstopped
  | continued => rw [hstatus] at hstopped; exact absurd rfl hstopped

end Census

namespace DebugSession

/-- The thread a step is for. -/
def steppedThread (s : DebugSession) : ℕ := if s.activeTid ≠ 0 then s.activeTid else s.pid

/-- The threads `seizeAllThreads` goes through. -/
def threadsToSeize (k : Kernel) (s : DebugSession) : List ℕ :=
  if k.threads s.clock = [] then [s.pid] else k.threads s.clock

/-- The threads for which `PTRACE_SEIZE` is granted. -/
def seizedThreads (k : Kernel) : DebugSession → List ℕ → Finset ℕ
  | _, [] => ∅
  | s, tid :: rest =>
    let others := seizedThreads k (seizeThread k s tid) rest
    if k.grants s.clock then insert tid others else others

/-- The session as `seizeAllThreads` finds it. -/
def unattached (pid : ℕ) (s : DebugSession) : DebugSession :=
  { s with pid := pid, traced := [], stoppedTids := [] }

/-- The threads that are attached by an input to a session that is not attached. -/
def attachedBy (k : Kernel) (s : DebugSession) : Input → Finset ℕ
  | .attach pid => seizedThreads k (unattached pid s) (threadsToSeize k (unattached pid s))
  | _ => ∅

/-- One turn of the session, with the census since it was attached. -/
def follow (k : Kernel) (born : ℕ → Option ℕ) (p : DebugSession × Census) (input : Input) :
    DebugSession × Census :=
  let next := step k p.1 input
  let start : Census := if p.1.attached then p.2 else ⟨p.1.log.length, attachedBy k p.1 input, ∅⟩
  (next, start.after born (next.log.drop p.1.log.length))

/-- A new session and its census after some inputs. -/
def followed (k : Kernel) (born : ℕ → Option ℕ) (text : ℕ → UInt8) (inputs : List Input) :
    DebugSession × Census :=
  inputs.foldl (follow k born) (DebugSession.new text, ⟨0, ∅, ∅⟩)

/-- A thread that is seized can be interrupted. -/
def InterruptsSeized (k : Kernel) : DebugSession → List ℕ → Prop
  | _, [] => True
  | s, tid :: rest => (k.grants s.clock = true → k.grants (s.clock + 1) = true) ∧
      InterruptsSeized k (seizeThread k s tid) rest

/-- The new thread of a clone event by its `PTRACE_GETEVENTMSG`. -/
def announced (message : ℕ) : Option ℕ := if message = 0 then none else some message

/-- The turn is one that the session can account for: threads that are seized are interrupted, a
step is for a thread that is stopped, a stop is one of a traced thread, and the new thread of a
clone event is the one `PTRACE_GETEVENTMSG` tells of. -/
def Accountable (k : Kernel) (born : ℕ → Option ℕ) (s : DebugSession) : Input → Prop
  | .attach pid => s.attached = false →
      InterruptsSeized k (unattached pid s) (threadsToSeize k (unattached pid s))
  | .command (.step _ _) => s.attached = true → s.stopped = true → s.steppedThread ∈ s.stoppedTids
  | .poll w result => s.attached = true → s.stopped = false →
      (result.status.stopSignal? ≠ none → w ∈ s.traced) ∧
        (isEventStop result.status ptraceEventClone = true →
          born s.log.length = announced (k.eventMessage s.clock))
  | _ => True

/-! ### Sessions and their census -/

/-- The session traces the threads that live. -/
structure Tracks (s : DebugSession) (c : Census) : Prop where
  position : c.position = s.log.length
  live : s.traced.toFinset = c.live
  within : c.halted ⊆ c.live
  nodup : s.traced.Nodup

/-- The session also knows which of them are stopped. -/
structure Accounts (s : DebugSession) (c : Census) : Prop extends Tracks s c where
  halted : s.stoppedTids.toFinset = c.halted

variable {k : Kernel} {born : ℕ → Option ℕ} {s s' s'' : DebugSession} {c : Census}
  {P : DebugSession → Census → Prop}

theorem Tracks.of_view (h : Tracks s c) (hview : s'.view = s.view) : Tracks s' c := by
  have htraced : s'.traced = s.traced := congrArg View.traced hview
  have hlog : s'.log = s.log := congrArg View.log hview
  exact ⟨by rw [hlog, h.position], by rw [htraced, h.live], h.within, by rw [htraced]; exact h.nodup⟩

theorem Accounts.of_view (h : Accounts s c) (hview : s'.view = s.view) : Accounts s' c := by
  have hstopped : s'.stoppedTids = s.stoppedTids := congrArg View.stoppedTids hview
  exact ⟨h.toTracks.of_view hview, by rw [hstopped, h.halted]⟩

/-- What is added to the log accounts for what changes. -/
def Tallies (P : DebugSession → Census → Prop) (born : ℕ → Option ℕ) (s s' : DebugSession) : Prop :=
  ∃ added, s'.log = s.log ++ added ∧
    ((∀ e ∈ added, e.Expected) → ∀ c, P s c → P s' (c.after born added))

theorem Tallies.trans (h : Tallies P born s s') (h' : Tallies P born s' s'') :
    Tallies P born s s'' := by
  obtain ⟨first, hfirst, hcount⟩ := h
  obtain ⟨second, hsecond, hcount'⟩ := h'
  refine ⟨first ++ second, by rw [hsecond, hfirst, List.append_assoc], fun hexpected c hc ↦ ?_⟩
  rw [Census.after_append]
  exact hcount' (fun e he ↦ hexpected e (List.mem_append_right _ he)) _
    (hcount (fun e he ↦ hexpected e (List.mem_append_left _ he)) c hc)

/-- Nothing is added to the log. -/
theorem tallies_of_same (hlog : s'.log = s.log) (hsame : ∀ c, P s c → P s' c) :
    Tallies P born s s' :=
  ⟨[], by rw [hlog, List.append_nil], fun _ c hc ↦ hsame c hc⟩

theorem tallies_accounts_of_view (hview : s'.view = s.view) : Tallies Accounts born s s' :=
  tallies_of_same (congrArg View.log hview) fun _ hc ↦ hc.of_view hview

theorem tallies_report (type : DebugEventType) (tid address signal : ℕ) (s : DebugSession) :
    Tallies Accounts born s (report type tid address signal s) := by
  refine ⟨_, rfl, fun _ c hc ↦ ⟨⟨?_, hc.live, hc.within, hc.nodup⟩, hc.halted⟩⟩
  change c.position + 1 = (s.log ++ _).length
  rw [List.length_append, hc.position]
  rfl

/-- The loop is over members of a list, on which the invariant `Q` of the states may depend. -/
theorem tallies_foldl {f : DebugSession → ℕ → DebugSession} {Q : DebugSession → Prop}
    (hkeeps : ∀ s tid, Q s → Q (f s tid)) (tids : List ℕ)
    (hf : ∀ s, ∀ tid ∈ tids, Q s → Tallies P born s (f s tid)) (s : DebugSession) (hstart : Q s) :
    Tallies P born s (tids.foldl f s) := by
  induction tids generalizing s with
  | nil => exact tallies_of_same rfl fun _ hc ↦ hc
  | cons tid rest ih =>
    have hfirst := hf s tid List.mem_cons_self hstart
    exact hfirst.trans (ih (fun s other hother ↦ hf s other (List.mem_cons_of_mem _ hother)) _
      (hkeeps s tid hstart))

theorem toFinset_insertTid (tid : ℕ) (tids : List ℕ) :
    (insertTid tid tids).toFinset = insert tid tids.toFinset := by
  ext other
  rw [List.mem_toFinset, Finset.mem_insert, List.mem_toFinset, mem_insertTid]

theorem nodup_insertTid {tid : ℕ} {tids : List ℕ} (h : tids.Nodup) : (insertTid tid tids).Nodup := by
  unfold insertTid
  split_ifs with hmem
  · exact h
  · exact (List.perm_orderedInsert _ _ _).nodup_iff.mpr (List.nodup_cons.mpr ⟨hmem, h⟩)

/-! ### Freezing -/

/-- A thread of the session is found stopped. -/
theorem accounts_found {site : WaitSite} {tid : ℕ} {result : WaitResult} (hc : Accounts s c)
    (htraced : tid ∈ s.traced) (hcount : c.observe born (.stop (stopOf site tid result s)) =
      ⟨c.position + 1, insert tid c.live, insert tid c.halted⟩) :
    Accounts { recordStop site tid result s with stoppedTids := insertTid tid s.stoppedTids }
      (c.observe born (.stop (stopOf site tid result s))) := by
  have hlive : tid ∈ c.live := hc.live ▸ List.mem_toFinset.mpr htraced
  rw [hcount]
  refine ⟨⟨?_, ?_, ?_, hc.nodup⟩, ?_⟩
  · change c.position + 1 = (s.log ++ _).length
    rw [List.length_append, hc.position]
    rfl
  · change s.traced.toFinset = insert tid c.live
    rw [Finset.insert_eq_of_mem hlive, hc.live]
  · exact Finset.insert_subset_insert tid hc.within
  · change (insertTid tid s.stoppedTids).toFinset = insert tid c.halted
    rw [toFinset_insertTid, hc.halted]

theorem tallies_stopOtherThread (k : Kernel) (active : ℕ) {tids : List ℕ}
    (htraced : s.traced = tids) {tid : ℕ} (htid : tid ∈ tids) :
    Tallies Accounts born s (stopOtherThread k active s tid) := by
  unfold stopOtherThread
  have hrequest : Tallies Accounts born s (request k s).1 := tallies_accounts_of_view rfl
  split_ifs
  · exact tallies_of_same rfl fun _ hc ↦ hc
  · dsimp only
    split_ifs
    · exact hrequest
    · refine hrequest.trans ?_
      unfold waitpid
      cases k.waits (request k s).1.clock with
      | none => exact tallies_accounts_of_view rfl
      | some result =>
        dsimp only
        set timed : DebugSession := { (request k s).1 with clock := (request k s).1.clock + 1 }
        have hfound : Tallies Accounts born (request k s).1 { recordStop .stopOthers tid result timed
            with stoppedTids := insertTid tid timed.stoppedTids } := by
          refine ⟨[.stop (stopOf .stopOthers tid result timed)], rfl, fun hexpected c hc ↦ ?_⟩
          have hstop := hexpected _ List.mem_cons_self
          have hc' : Accounts timed c := hc.of_view rfl
          exact accounts_found hc' (by rw [← htraced] at htid; exact htid)
            (Census.observe_expected hstop WaitSite.noConfusion WaitSite.noConfusion)
        exact hfound.trans (tallies_accounts_of_view (view_backUpOverInt3 _ _ _))

theorem tallies_stopOtherThreads (k : Kernel) (active : ℕ) (s : DebugSession) :
    Tallies Accounts born s (stopOtherThreads k active s) := by
  have hloop : Tallies Accounts born s (s.traced.foldl (stopOtherThread k active) s) :=
    tallies_foldl (Q := fun other ↦ other.traced = s.traced)
      (fun other tid hother ↦ ((steady_stopOtherThread k active other tid).traced).trans hother)
      s.traced (fun other tid htid hother ↦ tallies_stopOtherThread k active hother htid) s rfl
  exact hloop.trans (tallies_of_same rfl fun _ hc ↦ ⟨⟨hc.position, hc.live, hc.within, hc.nodup⟩,
    hc.halted⟩)

/-- A stop that is reported freezes the other threads. -/
theorem tallies_breakAt (k : Kernel) (type : DebugEventType) (w address signal : ℕ)
    (s : DebugSession) : Tallies Accounts born { s with stoppedTids := insertTid w s.stoppedTids }
      (breakAt k type w address signal s) := by
  unfold breakAt
  dsimp only
  set active : DebugSession := { s with activeTid := w, stoppedTids := insertTid w s.stoppedTids }
  have hactive : Tallies Accounts born { s with stoppedTids := insertTid w s.stoppedTids } active :=
    tallies_of_same rfl fun _ hc ↦ ⟨⟨hc.position, hc.live, hc.within, hc.nodup⟩, hc.halted⟩
  set frozen := stopOtherThreads k w active
  set stopped : DebugSession := { frozen with stopped := true }
  have hstopped : Tallies Accounts born frozen stopped :=
    tallies_of_same rfl fun _ hc ↦ ⟨⟨hc.position, hc.live, hc.within, hc.nodup⟩, hc.halted⟩
  set captured := captureRegs w stopped
  have hreported : Tallies Accounts born captured (report type w address signal captured) :=
    tallies_report ..
  exact (((hactive.trans (tallies_stopOtherThreads k w active)).trans hstopped).trans
    (tallies_accounts_of_view (view_captureRegs w stopped))).trans hreported

/-! ### Running -/

/-- A step of one thread in the census. -/
theorem after_ran (hwaits : ∀ clock, (k.waits clock).isSome = true) {tid : ℕ} {added : List Event}
    (hran : Ran k tid added) (hexpected : ∀ e ∈ added, e.Expected) (hlive : tid ∈ c.live) :
    ∃ halted, c.after born added = ⟨c.position + added.length, c.live, halted⟩ ∧
      halted ⊆ insert tid c.halted ∧ (tid ∈ c.halted → halted = c.halted) := by
  cases hran with
  | stays => exact ⟨c.halted, rfl, Finset.subset_insert _ _, fun _ ↦ rfl⟩
  | lost clock hwait =>
    have hsome := hwaits clock
    rw [hwait] at hsome
    cases hsome
  | stops found htid hsite =>
    have hfound : found.Expected := hexpected (.stop found) (by simp)
    have hpoll : found.site ≠ .poll := by
      rcases hsite with h | ⟨target, h⟩ <;> rw [h] <;> exact WaitSite.noConfusion
    have hcleanup : found.site ≠ .cleanup := by
      rcases hsite with h | ⟨target, h⟩ <;> rw [h] <;> exact WaitSite.noConfusion
    refine ⟨insert tid (c.halted.erase tid), ?_,
      Finset.insert_subset_insert _ (Finset.erase_subset _ _),
      Finset.insert_erase⟩
    change (c.observe born (.resume tid 0)).observe born (.stop found) = _
    rw [Census.observe_expected hfound hpoll hcleanup, htid]
    change Census.mk _ (insert tid c.live) _ = _
    rw [Finset.insert_eq_of_mem hlive]
    rfl

theorem tallies_tracks_ran (hwaits : ∀ clock, (k.waits clock).isSome = true) {tid : ℕ}
    {added : List Event} (hran : Ran k tid added) (happends : Appends s s' added)
    (htraced : tid ∈ s.traced) : Tallies Tracks born s s' := by
  refine ⟨added, congrArg View.log happends, fun hexpected c hc ↦ ?_⟩
  have hkept : s'.traced = s.traced := congrArg View.traced happends
  have hlog : s'.log = s.log ++ added := congrArg View.log happends
  have hlive : tid ∈ c.live := hc.live ▸ List.mem_toFinset.mpr htraced
  obtain ⟨halted, hafter, hwithin, -⟩ := @after_ran k born c hwaits tid added hran hexpected hlive
  rw [hafter]
  refine ⟨?_, by rw [hkept]; exact hc.live, ?_, by rw [hkept]; exact hc.nodup⟩
  · rw [hlog, List.length_append, ← hc.position]
  · exact hwithin.trans (Finset.insert_subset hlive hc.within)

/-- A stopped thread that makes a step is stopped again. -/
theorem tallies_ran (hwaits : ∀ clock, (k.waits clock).isSome = true) {tid : ℕ}
    {added : List Event} (hran : Ran k tid added) (happends : Appends s s' added)
    (hstopped : tid ∈ s.stoppedTids) : Tallies Accounts born s s' := by
  refine ⟨added, congrArg View.log happends, fun hexpected c hc ↦ ?_⟩
  have hkept : s'.traced = s.traced := congrArg View.traced happends
  have hstill : s'.stoppedTids = s.stoppedTids := congrArg View.stoppedTids happends
  have hlog : s'.log = s.log ++ added := congrArg View.log happends
  have hhalted : tid ∈ c.halted := hc.halted ▸ List.mem_toFinset.mpr hstopped
  obtain ⟨halted, hafter, -, hsame⟩ :=
    @after_ran k born c hwaits tid added hran hexpected (hc.within hhalted)
  rw [hafter, hsame hhalted]
  refine ⟨⟨?_, by rw [hkept]; exact hc.live, hc.within, by rw [hkept]; exact hc.nodup⟩,
    by rw [hstill]; exact hc.halted⟩
  rw [hlog, List.length_append, ← hc.position]

/-- Resuming a list of threads. -/
theorem after_resumed (tids : List ℕ) (s : DebugSession) :
    ∃ added, (tids.foldl (fun s tid ↦ resume tid 0 s) s).log = s.log ++ added ∧
      ∀ c : Census, c.after born added =
        ⟨c.position + added.length, c.live, c.halted \ tids.toFinset⟩ := by
  induction tids generalizing s with
  | nil => exact ⟨[], (List.append_nil _).symm, fun c ↦ by simp [Census.after]⟩
  | cons tid rest ih =>
    obtain ⟨added, hlog, hafter⟩ := ih (resume tid 0 s)
    refine ⟨.resume tid 0 :: added, ?_, fun c ↦ ?_⟩
    · rw [List.foldl_cons, hlog]
      exact (List.append_cons _ _ _).symm
    · change (c.observe born (.resume tid 0)).after born added = _
      rw [hafter]
      change Census.mk (c.position + 1 + added.length) c.live (c.halted.erase tid \ _) = _
      rw [List.toFinset_cons, Finset.sdiff_insert, Finset.erase_sdiff_comm, List.length_cons,
        Nat.add_assoc, Nat.add_comm 1]

/-- When all threads are resumed, none is stopped. -/
theorem tallies_resumeAllThreads (hwaits : ∀ clock, (k.waits clock).isSome = true)
    (s : DebugSession) : Tallies Accounts born s (resumeAllThreads k s) := by
  unfold resumeAllThreads
  dsimp only
  have hsteps : Tallies Tracks born s (s.traced.foldl (fun s tid ↦ (stepThreadOverBp k tid s).1) s) :=
    tallies_foldl (Q := fun other ↦ other.traced = s.traced)
      (fun other tid hother ↦ by
        obtain ⟨added, -, happends⟩ := ran_stepThreadOverBp k tid other
        exact happends.steady.traced.trans hother)
      s.traced (fun other tid htid hother ↦ by
        obtain ⟨added, hran, happends⟩ := ran_stepThreadOverBp k tid other
        rw [← hother] at htid
        exact tallies_tracks_ran hwaits hran happends htid) s rfl
  set stepped := s.traced.foldl (fun s tid ↦ (stepThreadOverBp k tid s).1) s
  obtain ⟨first, hfirst, hcount⟩ := hsteps
  obtain ⟨second, hsecond, hafter⟩ := @after_resumed born stepped.traced stepped
  have hsteady := steady_foldl (f := fun s tid ↦ resume tid 0 s)
    (fun s tid ↦ (appends_resume tid 0 s).steady) stepped.traced stepped
  set resumed := stepped.traced.foldl (fun s tid ↦ resume tid 0 s) stepped
  refine ⟨first ++ second, by rw [← List.append_assoc, ← hfirst]; exact hsecond,
    fun hexpected c hc ↦ ?_⟩
  have htracks := hcount (fun e he ↦ hexpected e (List.mem_append_left _ he)) c hc.toTracks
  have hnone : (c.after born first).halted \ stepped.traced.toFinset = ∅ := by
    rw [htracks.live]
    exact Finset.sdiff_eq_empty_iff_subset.mpr htracks.within
  rw [Census.after_append, hafter, hnone]
  refine ⟨⟨?_, ?_, Finset.empty_subset _, ?_⟩, rfl⟩
  · change _ = resumed.log.length
    rw [hsecond, List.length_append, ← htracks.position]
  · change resumed.traced.toFinset = _
    rw [hsteady.traced, htracks.live]
  · change resumed.traced.Nodup
    rw [hsteady.traced]
    exact htracks.nodup

theorem tallies_doStep (hwaits : ∀ clock, (k.waits clock).isSome = true) (mode : StepMode)
    (targetAddress : ℕ) (hstopped : s.stopped = true → s.steppedThread ∈ s.stoppedTids) :
    Tallies Accounts born s (doStep k mode targetAddress s) := by
  unfold doStep
  split
  · exact tallies_of_same rfl fun _ hc ↦ hc
  · rename_i hrunning
    have hmem := hstopped (by simpa using hrunning)
    dsimp only
    change Tallies Accounts born s (report .singleStep s.steppedThread _ 0 (captureRegs s.steppedThread
      { stepThread k mode targetAddress s.steppedThread s with stopped := true }))
    obtain ⟨added, hran, happends⟩ := ran_stepThread k mode targetAddress s.steppedThread s
    have hstep : Tallies Accounts born s (stepThread k mode targetAddress s.steppedThread s) :=
      tallies_ran hwaits hran happends hmem
    set stepped := stepThread k mode targetAddress s.steppedThread s
    have hmarked : Tallies Accounts born stepped { stepped with stopped := true } :=
      tallies_of_same rfl fun _ hc ↦ ⟨⟨hc.position, hc.live, hc.within, hc.nodup⟩, hc.halted⟩
    exact ((hstep.trans hmarked).trans (tallies_accounts_of_view (view_captureRegs _ _))).trans
      (tallies_report ..)

/-! ### Polled stops -/

/-- While the session runs, it knows all live threads and that none of them is stopped. -/
structure Running (s : DebugSession) (c : Census) : Prop extends Accounts s c where
  running : s.stoppedTids = []

theorem Running.halted_eq (h : Running s c) : c.halted = ∅ := by
  rw [← h.halted, h.running]
  rfl

/-- What a poll of a thread leaves: the session has ended, is stopped or is running, and accounts
for its threads. -/
def Settles (born : ℕ → Option ℕ) (s : DebugSession) (c : Census) (s' : DebugSession) : Prop :=
  ∃ added, s'.log = s.log ++ added ∧
    ((∀ e ∈ added, e.Expected) → s'.attached = true → Accounts s' (c.after born added) ∧
      (s'.stopped = false → s'.stoppedTids = []))

/-- The thread goes on. -/
theorem settles_resumed (h : Running s c) {w : ℕ} {result : WaitResult} (signal : ℕ)
    (hw : w ∈ s.traced) (hcount : c.observe born (.stop (stopOf .poll w result s)) =
      ⟨c.position + 1, insert w c.live, insert w c.halted⟩) :
    Settles born (recordStop .poll w result s) (c.observe born (.stop (stopOf .poll w result s)))
      (resume w signal (recordStop .poll w result s)) := by
  have hlive : w ∈ c.live := h.live ▸ List.mem_toFinset.mpr hw
  refine ⟨[.resume w signal], rfl, fun _ _ ↦ ⟨?_, fun _ ↦ h.running⟩⟩
  rw [hcount, h.halted_eq]
  refine ⟨⟨?_, ?_, ?_, h.nodup⟩, ?_⟩
  · change c.position + 1 + 1 = ((s.log ++ _) ++ _).length
    rw [List.length_append, List.length_append, h.position]
    rfl
  · change s.traced.toFinset = insert w c.live
    rw [Finset.insert_eq_of_mem hlive, h.live]
  · change (insert w (∅ : Finset ℕ)).erase w ⊆ _
    simp
  · change s.stoppedTids.toFinset = (insert w (∅ : Finset ℕ)).erase w
    rw [h.running]
    simp

theorem stopped_breakAt (k : Kernel) (type : DebugEventType) (w address signal : ℕ)
    (s : DebugSession) : (breakAt k type w address signal s).stopped = true :=
  congrArg View.stopped (view_captureRegs w _)

/-- The thread is stopped, and so are the others. -/
theorem settles_breakAt (k : Kernel) (h : Running s c) {w : ℕ} {result : WaitResult}
    (hw : w ∈ s.traced) (hcount : c.observe born (.stop (stopOf .poll w result s)) =
      ⟨c.position + 1, insert w c.live, insert w c.halted⟩) (type : DebugEventType)
    (address signal : ℕ) {found : DebugSession}
    (hfound : found.view = (recordStop .poll w result s).view) :
    Settles born (recordStop .poll w result s) (c.observe born (.stop (stopOf .poll w result s)))
      (breakAt k type w address signal found) := by
  obtain ⟨added, hlog, htally⟩ := @tallies_breakAt born k type w address signal found
  have hbase : found.log = (recordStop .poll w result s).log := congrArg View.log hfound
  refine ⟨added, by rw [hlog, ← hbase], fun hexpected _ ↦ ⟨htally hexpected _ ?_, fun hstopped ↦ ?_⟩⟩
  · have hc := accounts_found h.toAccounts hw hcount
    refine hc.of_view ?_
    exact congrArg (fun v : View ↦ { v with stoppedTids := insertTid w v.stoppedTids }) hfound
  · rw [stopped_breakAt] at hstopped
    cases hstopped

theorem settles_handleTrap (k : Kernel) (h : Running s c) {w : ℕ} {result : WaitResult}
    (hw : w ∈ s.traced) (hcount : c.observe born (.stop (stopOf .poll w result s)) =
      ⟨c.position + 1, insert w c.live, insert w c.halted⟩) :
    Settles born (recordStop .poll w result s) (c.observe born (.stop (stopOf .poll w result s)))
      (handleTrap k w (recordStop .poll w result s)) := by
  unfold handleTrap
  cases (recordStop .poll w result s).regs w with
  | none => exact settles_resumed h 0 hw hcount
  | some regs =>
    dsimp only
    split
    · exact settles_breakAt k h hw hcount _ _ _ rfl
    · split_ifs
      · exact settles_breakAt k h hw hcount _ _ _ (view_setRip _ _ _)
      · exact settles_resumed h 0 hw hcount

/-- A thread that ended is no longer traced. -/
theorem settles_handleExit (h : Running s c) {w : ℕ} {result : WaitResult}
    (hstatus : result.status = .exited ∨ result.status = .signaled) :
    Settles born (recordStop .poll w result s) (c.observe born (.stop (stopOf .poll w result s)))
      (handleExit w (recordStop .poll w result s)) := by
  unfold handleExit
  dsimp only
  split_ifs
  · exact ⟨_, rfl, fun _ hattached ↦ absurd hattached Bool.false_ne_true⟩
  · have hcount : c.observe born (.stop (stopOf .poll w result s)) =
        ⟨c.position + 1, c.live.erase w, c.halted.erase w⟩ := by
      have hresult : (stopOf .poll w result s).result.status = result.status := rfl
      rcases hstatus with hstatus | hstatus <;> rw [hstatus] at hresult <;>
        simp only [Census.observe, hresult] <;> rfl
    refine ⟨[], (List.append_nil _).symm, fun _ _ ↦ ⟨?_, fun _ ↦ ?_⟩⟩
    · change Accounts _ (c.observe born (.stop (stopOf .poll w result s)))
      rw [hcount, h.halted_eq]
      refine ⟨⟨?_, ?_, by simp, h.nodup.erase w⟩, ?_⟩
      · change c.position + 1 = (s.log ++ _).length
        rw [List.length_append, h.position]
        rfl
      · change (s.traced.erase w).toFinset = c.live.erase w
        rw [← h.live]
        ext tid
        rw [List.mem_toFinset, h.nodup.mem_erase_iff, Finset.mem_erase, List.mem_toFinset]
      · change (s.stoppedTids.erase w).toFinset = _
        rw [h.running]
        simp
    · change s.stoppedTids.erase w = []
      rw [h.running]
      rfl

/-- Without a new thread, a clone event only stops its thread for a moment. -/
theorem settles_cloneAlone (h : Running s c) {w : ℕ} {result : WaitResult} (hw : w ∈ s.traced)
    (hclone : isEventStop result.status ptraceEventClone = true) (hnone : born s.log.length = none)
    (hzero : k.eventMessage s.clock = 0) :
    Settles born (recordStop .poll w result s) (c.observe born (.stop (stopOf .poll w result s)))
      (handleClone k w (recordStop .poll w result s)) := by
  have hlive : w ∈ c.live := h.live ▸ List.mem_toFinset.mpr hw
  have hcount := @Census.observe_clone born c (stopOf .poll w result s) hclone
  rw [h.position, hnone, Option.toFinset_none, Finset.empty_union, Finset.empty_union] at hcount
  have hhandled : handleClone k w (recordStop .poll w result s) =
      resume w 0 { recordStop .poll w result s with clock := s.clock + 1 } := by
    unfold handleClone
    exact congrArg (resume w 0) (if_pos hzero)
  rw [hhandled]
  refine ⟨[.resume w 0], rfl, fun _ _ ↦ ⟨?_, fun _ ↦ h.running⟩⟩
  rw [hcount, h.halted_eq]
  refine ⟨⟨?_, ?_, ?_, h.nodup⟩, ?_⟩
  · change s.log.length + 1 + 1 = ((s.log ++ _) ++ _).length
    rw [List.length_append, List.length_append]
    rfl
  · change s.traced.toFinset = insert w c.live
    rw [Finset.insert_eq_of_mem hlive, h.live]
  · change (insert w (∅ : Finset ℕ)).erase w ⊆ _
    simp
  · change s.stoppedTids.toFinset = (insert w (∅ : Finset ℕ)).erase w
    rw [h.running]
    simp

/-- A clone event adds the thread that it tells of, and both go on. -/
theorem settles_cloneNew (hwaits : ∀ clock, (k.waits clock).isSome = true) (h : Running s c)
    {w new : ℕ} {result : WaitResult} (hw : w ∈ s.traced)
    (hclone : isEventStop result.status ptraceEventClone = true)
    (hborn : born s.log.length = some new) (hnew : k.eventMessage s.clock = new) (hne : new ≠ 0) :
    Settles born (recordStop .poll w result s) (c.observe born (.stop (stopOf .poll w result s)))
      (handleClone k w (recordStop .poll w result s)) := by
  have hlive : w ∈ c.live := h.live ▸ List.mem_toFinset.mpr hw
  have hcount := @Census.observe_clone born c (stopOf .poll w result s) hclone
  rw [h.position, hborn, Option.toFinset_some, Finset.singleton_union, Finset.singleton_union] at hcount
  set timed : DebugSession := { recordStop .poll w result s with clock := s.clock + 1 }
  obtain ⟨found, hfound⟩ := Option.isSome_iff_exists.mp (hwaits timed.clock)
  set waited : DebugSession := recordStop .newThread new found { timed with clock := timed.clock + 1 }
  have hwait : (waitpid k .newThread new timed).1 = waited := by
    unfold waitpid
    rw [hfound]
  have hhandled : handleClone k w (recordStop .poll w result s) =
      resume w 0 (resume new 0 { waited with
        traced := insertTid new waited.traced
        debugRegs := Function.update waited.debugRegs new fun _ ↦ none }) := by
    rw [← hwait, ← hnew]
    unfold handleClone
    exact congrArg (resume w 0) (if_neg (hnew.trans_ne hne))
  rw [hhandled]
  set stop := stopOf .newThread new found { timed with clock := timed.clock + 1 }
  refine ⟨[.stop stop, .resume new 0, .resume w 0], ?_, fun hexpected _ ↦ ⟨?_, fun _ ↦ h.running⟩⟩
  · change ((timed.log ++ [_]) ++ [_]) ++ [_] = timed.log ++ _
    rw [List.append_assoc, List.append_assoc]
    rfl
  · have hstop : stop.Expected := hexpected (.stop stop) (by simp)
    change Accounts _ ((((c.observe born _).observe born (.stop stop)).observe born
      (.resume new 0)).observe born (.resume w 0))
    rw [Census.observe_expected hstop WaitSite.noConfusion WaitSite.noConfusion, hcount, h.halted_eq]
    have hnone : ((insert new (insert w (insert new (∅ : Finset ℕ)))).erase new).erase w = ∅ := by
      ext tid
      simp
      tauto
    refine ⟨⟨?_, ?_, ?_, nodup_insertTid h.nodup⟩, ?_⟩
    · change s.log.length + 1 + 1 + 1 + 1 = ((((s.log ++ _) ++ _) ++ _) ++ _).length
      rw [List.length_append, List.length_append, List.length_append, List.length_append]
      rfl
    · change (insertTid new s.traced).toFinset = insert new (insert w (insert new c.live))
      rw [toFinset_insertTid, h.live, Finset.insert_eq_of_mem (Finset.mem_insert_of_mem hlive),
        Finset.insert_idem]
    · exact hnone.le.trans (Finset.empty_subset _)
    · change s.stoppedTids.toFinset = _
      rw [h.running]
      exact hnone.symm

theorem settles_handleStop (hwaits : ∀ clock, (k.waits clock).isSome = true) (h : Running s c)
    (hattached : s.attached = true) (hstopped : s.stopped = false) {w : ℕ} {result : WaitResult}
    (haccountable : Accountable k born s (.poll w result)) :
    Settles born (recordStop .poll w result s) (c.observe born (.stop (stopOf .poll w result s)))
      (handleStop k w result.status (recordStop .poll w result s)) := by
  obtain ⟨htraced, hborn⟩ := haccountable hattached hstopped
  unfold handleStop
  cases hstatus : result.status with
  | exited => exact settles_handleExit h (Or.inl hstatus)
  | signaled => exact settles_handleExit h (Or.inr hstatus)
  | continued =>
    refine ⟨[], (List.append_nil _).symm, fun _ _ ↦ ⟨?_, fun _ ↦ h.running⟩⟩
    have hresult : (stopOf .poll w result s).result.status = .continued := hstatus
    have hcount : c.observe born (.stop (stopOf .poll w result s)) =
        ⟨c.position + 1, c.live, c.halted⟩ := by
      simp only [Census.observe, hresult]
    change Accounts _ (c.observe born (.stop (stopOf .poll w result s)))
    rw [hcount]
    refine ⟨⟨?_, h.live, h.within, h.nodup⟩, h.halted⟩
    change c.position + 1 = (s.log ++ _).length
    rw [List.length_append, h.position]
    rfl
  | stopped signal event =>
    have hw : w ∈ s.traced := htraced (by rw [hstatus]; exact Option.some_ne_none signal)
    dsimp only
    by_cases hclone : isEventStop result.status ptraceEventClone = true
    · rw [if_pos (by rwa [hstatus] at hclone)]
      have hannounced := hborn hclone
      by_cases hzero : k.eventMessage s.clock = 0
      · rw [announced, if_pos hzero] at hannounced
        exact settles_cloneAlone h hw hclone hannounced hzero
      · rw [announced, if_neg hzero] at hannounced
        exact settles_cloneNew hwaits h hw hclone hannounced rfl hzero
    · rw [if_neg (by rwa [hstatus] at hclone)]
      have hcount := @Census.observe_plain born c (stopOf .poll w result s) signal event hstatus
        (Bool.not_eq_true _ ▸ hclone)
      split_ifs
      · exact settles_handleTrap k h hw hcount
      · exact settles_breakAt k h hw hcount _ _ _ rfl
      · exact settles_resumed h signal hw hcount

/-! ### Turns -/

/-- What holds of a session with its census: while it is attached it accounts for its threads, and
none is stopped while it runs. -/
structure Counted (s : DebugSession) (c : Census) : Prop where
  accounts : s.attached = true → Accounts s c
  running : s.attached = true → s.stopped = false → s.stoppedTids = []

theorem counted_of_detached (h : s.attached = false) : Counted s c where
  accounts := fun hattached ↦ absurd (hattached.symm.trans h) Bool.noConfusion
  running := fun hattached ↦ absurd (hattached.symm.trans h) Bool.noConfusion

/-- The cleanup leaves a session as detached as it was. -/
theorem attached_tracerCleanup (k : Kernel) (s : DebugSession) :
    (tracerCleanup k s).attached = s.attached := by
  have hinterrupt : ∀ s tid, Steady s (interruptThread k s tid) := by
    intro s tid
    unfold interruptThread
    split_ifs
    · exact ⟨rfl, rfl, rfl, rfl⟩
    · dsimp only
      split_ifs
      · exact ⟨rfl, rfl, rfl, rfl⟩
      · have hrequest : Steady s (request k s).1 := ⟨rfl, rfl, rfl, rfl⟩
        exact hrequest.trans (steady_waitpid k .cleanup tid (request k s).1)
  have hdisarm : ∀ (bps : List HwBp) (s : DebugSession), (bps.foldl (fun s bp ↦
      s.traced.foldl (disarmHwBpReg k bp.reg) s) s).attached = s.attached := by
    intro bps
    induction bps with
    | nil => exact fun _ ↦ rfl
    | cons bp rest ih =>
      intro s
      rw [List.foldl_cons, ih, disarmHwBpReg_eq]
      exact congrArg View.attached (oneRegister_foldl k bp.reg none s.traced s).view
  unfold tracerCleanup
  dsimp only
  set frozen := s.traced.foldl (interruptThread k) s with hfrozen
  have hkept : frozen.attached = s.attached := (steady_foldl hinterrupt s.traced s).attached
  have hbytes := (steady_foldl (f := restoreByte k)
    (fun s bp ↦ steady_of_view (view_restoreByte k s bp)) frozen.softBreakpoints frozen).attached
  set restored : DebugSession :=
    { frozen.softBreakpoints.foldl (restoreByte k) frozen with softBreakpoints := [] } with hrestored
  have hdisarmed : (disarmAllHwBreakpoints k restored).attached = restored.attached :=
    hdisarm restored.hwBreakpoints restored
  have hdetached := (steady_foldl (f := fun s tid ↦ resume tid 0 s)
    (fun s tid ↦ (appends_resume tid 0 s).steady) (disarmAllHwBreakpoints k restored).traced
    (disarmAllHwBreakpoints k restored)).attached
  exact hdetached.trans (hdisarmed.trans (hbytes.trans hkept))

/-! ### Attaching -/

/-- Seizing is done with some threads; those that are still to seize are attached already as far as
the census goes. -/
structure Seizing (k : Kernel) (s : DebugSession) (tids : List ℕ) (c : Census) : Prop where
  position : c.position = s.log.length
  live : s.traced.toFinset ∪ seizedThreads k s tids = c.live
  halted : s.stoppedTids.toFinset = c.halted
  stopped : s.stoppedTids = s.traced
  nodup : s.traced.Nodup

theorem Seizing.accounts (h : Seizing k s [] c) : Accounts s c where
  position := h.position
  live := by
    rw [← h.live]
    exact (Finset.union_empty _).symm
  within := by
    rw [← h.halted, ← h.live, h.stopped]
    exact Finset.subset_union_left
  nodup := h.nodup
  halted := h.halted

/-- A thread that is seized is stopped too. -/
theorem seizing_seizeThread (hwaits : ∀ clock, (k.waits clock).isSome = true) {tid : ℕ}
    {rest : List ℕ} (hinterrupts : k.grants s.clock = true → k.grants (s.clock + 1) = true) :
    ∃ added, (seizeThread k s tid).log = s.log ++ added ∧ ((∀ e ∈ added, e.Expected) → ∀ c,
      Seizing k s (tid :: rest) c → Seizing k (seizeThread k s tid) rest (c.after born added)) := by
  by_cases hgrant : k.grants s.clock = true
  · set timed : DebugSession := { s with clock := s.clock + 2 }
    obtain ⟨result, hresult⟩ := Option.isSome_iff_exists.mp (hwaits timed.clock)
    set found := stopOf .seize tid result timed
    have hseized : seizeThread k s tid =
        { recordStop .seize tid result { timed with clock := timed.clock + 1 } with
          traced := insertTid tid s.traced, stoppedTids := insertTid tid s.stoppedTids } := by
      have hwait : waitpid k .seize tid { s with clock := s.clock + 1 + 1 } =
          (recordStop .seize tid result { timed with clock := timed.clock + 1 }, some result) := by
        unfold waitpid
        rw [show k.waits (s.clock + 1 + 1) = some result from hresult]
      unfold seizeThread request
      dsimp only
      rw [hgrant, hinterrupts hgrant]
      simp only [Bool.not_true, Bool.false_eq_true, if_false, hwait]
      rfl
    refine ⟨[.stop found], by rw [hseized]; rfl, fun hexpected c hc ↦ ?_⟩
    have hlive : insert tid (s.traced.toFinset ∪ seizedThreads k (seizeThread k s tid) rest) =
        c.live := by
      rw [← hc.live, seizedThreads, if_pos hgrant, Finset.union_insert]
    have hcount : c.after born [.stop found] =
        ⟨c.position + 1, insert tid c.live, insert tid c.halted⟩ :=
      Census.observe_expected (hexpected _ List.mem_cons_self) WaitSite.noConfusion
        WaitSite.noConfusion
    rw [hcount]
    refine ⟨?_, ?_, ?_, ?_, ?_⟩
    · change c.position + 1 = (seizeThread k s tid).log.length
      rw [hseized, hc.position]
      exact (@List.length_append _ s.log [.stop found]).symm
    · change (seizeThread k s tid).traced.toFinset ∪ _ = insert tid c.live
      rw [← hlive, Finset.insert_idem, show (seizeThread k s tid).traced = insertTid tid s.traced by
        rw [hseized], toFinset_insertTid, Finset.insert_union]
    · rw [show (seizeThread k s tid).stoppedTids = insertTid tid s.stoppedTids by rw [hseized],
        toFinset_insertTid, hc.halted]
    · rw [hseized]
      exact congrArg (insertTid tid) hc.stopped
    · rw [hseized]
      exact nodup_insertTid hc.nodup
  · have hfalse : k.grants s.clock = false := Bool.eq_false_iff.mpr hgrant
    have hrefused : seizeThread k s tid = { s with clock := s.clock + 1 } := by
      unfold seizeThread request
      dsimp only
      rw [hfalse]
      rfl
    refine ⟨[], by rw [hrefused, List.append_nil], fun _ c hc ↦ ?_⟩
    have hlive : s.traced.toFinset ∪ seizedThreads k (seizeThread k s tid) rest = c.live := by
      rw [← hc.live, seizedThreads, if_neg hgrant]
    change Seizing k (seizeThread k s tid) rest c
    refine ⟨?_, ?_, ?_, ?_, ?_⟩
    · rw [hrefused]
      exact hc.position
    · rw [← hlive, hrefused]
    · rw [hrefused]
      exact hc.halted
    · rw [hrefused]
      exact hc.stopped
    · rw [hrefused]
      exact hc.nodup

theorem accounts_seized (hwaits : ∀ clock, (k.waits clock).isSome = true) (tids : List ℕ)
    (s : DebugSession) (hinterrupts : InterruptsSeized k s tids) :
    ∃ added, (tids.foldl (seizeThread k) s).log = s.log ++ added ∧ ((∀ e ∈ added, e.Expected) →
      ∀ c, Seizing k s tids c → Accounts (tids.foldl (seizeThread k) s) (c.after born added)) := by
  induction tids generalizing s with
  | nil => exact ⟨[], (List.append_nil _).symm, fun _ c hc ↦ hc.accounts⟩
  | cons tid rest ih =>
    obtain ⟨hfirst, hrest⟩ := hinterrupts
    obtain ⟨first, hlog, hone⟩ := @seizing_seizeThread k born s hwaits tid rest hfirst
    obtain ⟨second, hlog', hall⟩ := ih (seizeThread k s tid) hrest
    refine ⟨first ++ second, ?_, fun hexpected c hc ↦ ?_⟩
    · rw [List.foldl_cons, hlog', hlog, List.append_assoc]
    · rw [Census.after_append]
      exact hall (fun e he ↦ hexpected e (List.mem_append_right _ he)) _
        (hone (fun e he ↦ hexpected e (List.mem_append_left _ he)) c hc)

theorem counted_attach (hwaits : ∀ clock, (k.waits clock).isSome = true) (pid : ℕ)
    (hdetached : s.attached = false)
    (hinterrupts : InterruptsSeized k (unattached pid s) (threadsToSeize k (unattached pid s))) :
    ∃ added, (attach k pid s).log = s.log ++ added ∧ ((∀ e ∈ added, e.Expected) →
      Counted (attach k pid s)
        (Census.after born ⟨s.log.length, attachedBy k s (.attach pid), ∅⟩ added)) := by
  obtain ⟨added, hlog, haccounts⟩ := @accounts_seized k born hwaits
    (threadsToSeize k (unattached pid s)) (unattached pid s) hinterrupts
  have hstart : Seizing k (unattached pid s) (threadsToSeize k (unattached pid s))
      ⟨s.log.length, attachedBy k s (.attach pid), ∅⟩ :=
    ⟨rfl, Finset.empty_union _, rfl, rfl, List.nodup_nil⟩
  have hsteady : ∀ (tids : List ℕ) (s : DebugSession),
      (tids.foldl (seizeThread k) s).attached = s.attached := by
    intro tids
    induction tids with
    | nil => exact fun _ ↦ rfl
    | cons tid rest ih => exact fun s ↦ (ih _).trans (seizeThread_kept k s tid).2
  set seized := (threadsToSeize k (unattached pid s)).foldl (seizeThread k) (unattached pid s)
  have hseized : seized.attached = false := (hsteady _ _).trans hdetached
  have hattach : attach k pid s = if seized.traced ≠ [] then
      captureRegs pid { seized with attached := true, stopped := true, activeTid := pid }
      else seized := by
    unfold attach
    dsimp only
    rw [show seizeAllThreads k { s with pid := pid } = (seized, decide (seized.traced ≠ [])) from rfl]
    exact if_congr decide_eq_true_iff rfl rfl
  rw [hattach]
  split_ifs
  · refine ⟨added, (congrArg View.log (view_captureRegs pid _)).trans hlog, fun hexpected ↦ ?_⟩
    have hc := haccounts hexpected _ hstart
    refine ⟨fun _ ↦ ?_, fun _ hrunning ↦ ?_⟩
    · have hnamed : Accounts { seized with attached := true, stopped := true, activeTid := pid }
          (Census.after born ⟨s.log.length, attachedBy k s (.attach pid), ∅⟩ added) :=
        ⟨⟨hc.position, hc.live, hc.within, hc.nodup⟩, hc.halted⟩
      exact hnamed.of_view (view_captureRegs pid _)
    · have hstopped := congrArg View.stopped (view_captureRegs pid
        { seized with attached := true, stopped := true, activeTid := pid })
      exact absurd (hrunning.symm.trans hstopped) Bool.noConfusion
  · exact ⟨added, hlog, fun _ ↦ counted_of_detached hseized⟩

/-! ### Commands and runs -/

/-- A command that leaves the threads alone. -/
structure SameThreads (s s' : DebugSession) : Prop where
  traced : s'.traced = s.traced
  stoppedTids : s'.stoppedTids = s.stoppedTids
  stopped : s'.stopped = s.stopped
  log : s'.log = s.log

theorem sameThreads_of_view (h : s'.view = s.view) : SameThreads s s' :=
  ⟨congrArg View.traced h, congrArg View.stoppedTids h, congrArg View.stopped h,
    congrArg View.log h⟩

theorem SameThreads.tallies (h : SameThreads s s') : Tallies Accounts born s s' :=
  tallies_of_same h.log fun c hc ↦ ⟨⟨by rw [h.log, hc.position], by rw [h.traced, hc.live], hc.within,
    by rw [h.traced]; exact hc.nodup⟩, by rw [h.stoppedTids, hc.halted]⟩

theorem sameThreads_doSelectThread (tid : ℕ) (s : DebugSession) :
    SameThreads s (doSelectThread tid s).1 := by
  unfold doSelectThread
  by_cases hstopped : tid ∈ s.stoppedTids
  · rw [if_neg (not_not.mpr hstopped)]
    have hcaptured := sameThreads_of_view (view_captureRegs tid { s with activeTid := tid })
    exact ⟨hcaptured.traced, hcaptured.stoppedTids, hcaptured.stopped, hcaptured.log⟩
  · rw [if_pos hstopped]
    exact ⟨rfl, rfl, rfl, rfl⟩

theorem sameThreads_pokes (k : Kernel) (reg : ℕ) (watch : Option Watch) (s : DebugSession) :
    SameThreads s (s.traced.foldl (pokeDebugReg k reg watch) s) := by
  have hview := (oneRegister_foldl k reg watch s.traced s).view
  exact ⟨congrArg View.traced hview, congrArg View.stoppedTids hview,
    congrArg View.stopped hview, congrArg View.log hview⟩

theorem sameThreads_doSetHwBp (k : Kernel) (address type size : ℕ) (s : DebugSession) :
    SameThreads s (doSetHwBp k address type size s).1 := by
  unfold doSetHwBp
  cases (List.range 4).find? fun reg ↦ decide (reg ∉ s.hwBreakpoints.map HwBp.reg) with
  | none => exact ⟨rfl, rfl, rfl, rfl⟩
  | some reg =>
    have hpokes := sameThreads_pokes k reg (some ⟨address, if type = 1 then 1 else 3,
      if size = 1 then 0 else if size = 2 then 1 else if size = 8 then 2 else 3⟩) s
    exact ⟨hpokes.traced, hpokes.stoppedTids, hpokes.stopped, hpokes.log⟩

theorem sameThreads_doRemoveHwBp (k : Kernel) (id : ℕ) (s : DebugSession) :
    SameThreads s (doRemoveHwBp k id s) := by
  unfold doRemoveHwBp
  cases s.hwBreakpoints.find? fun bp ↦ decide (bp.id = id) with
  | none => exact ⟨rfl, rfl, rfl, rfl⟩
  | some bp =>
    have hpokes := sameThreads_pokes k bp.reg none s
    exact ⟨hpokes.traced, hpokes.stoppedTids, hpokes.stopped, hpokes.log⟩

/-- A turn keeps the session accounted for, from the census at its start. -/
def Recounts (born : ℕ → Option ℕ) (s : DebugSession) (start : Census) (s' : DebugSession) : Prop :=
  ∃ added, s'.log = s.log ++ added ∧
    ((∀ e ∈ added, e.Expected) → Counted s' (start.after born added))

theorem Tallies.recounts (h : Tallies Accounts born s s') (hc : Accounts s c)
    (hrunning : s'.stopped = false → s'.stoppedTids = []) : Recounts born s c s' := by
  obtain ⟨added, hlog, htally⟩ := h
  exact ⟨added, hlog, fun hexpected ↦ ⟨fun _ ↦ htally hexpected c hc, fun _ ↦ hrunning⟩⟩

theorem stopped_doStep (k : Kernel) (mode : StepMode) (targetAddress : ℕ)
    (hstopped : s.stopped = true) : (doStep k mode targetAddress s).stopped = true := by
  unfold doStep
  rw [hstopped]
  exact congrArg View.stopped (view_captureRegs _ _)

theorem recounts_performCommand (hwaits : ∀ clock, (k.waits clock).isSome = true)
    (h : Counted s c) (hattached : s.attached = true) (cmd : Command)
    (haccountable : Accountable k born s (.command cmd)) :
    Recounts born s c (performCommand k cmd s).1 := by
  have hc := h.accounts hattached
  have hsame : ∀ {s'}, SameThreads s s' → Recounts born s c s' := by
    intro s' hsame
    refine hsame.tallies.recounts hc fun hrunning ↦ ?_
    rw [hsame.stoppedTids]
    exact h.running hattached (hsame.stopped.symm.trans hrunning)
  cases cmd with
  | «continue» =>
    change Recounts born s c (doContinue k s)
    by_cases hstopped : s.stopped = true
    · have hcontinue : doContinue k s = { resumeAllThreads k s with stopped := false } := by
        unfold doContinue
        rw [hstopped]
        rfl
      have hresumed : Tallies Accounts born (resumeAllThreads k s) (doContinue k s) := by
        rw [hcontinue]
        exact tallies_of_same rfl fun _ hc ↦ ⟨⟨hc.position, hc.live, hc.within, hc.nodup⟩, hc.halted⟩
      refine ((tallies_resumeAllThreads hwaits s).trans hresumed).recounts hc fun _ ↦ ?_
      rw [hcontinue]
      rfl
    · have hidle : doContinue k s = s := by
        unfold doContinue
        rw [Bool.eq_false_iff.mpr hstopped]
        rfl
      rw [hidle]
      exact hsame ⟨rfl, rfl, rfl, rfl⟩
  | step mode addr =>
    change Recounts born s c (doStep k mode addr s)
    by_cases hstopped : s.stopped = true
    · refine (tallies_doStep hwaits mode addr (haccountable hattached)).recounts hc fun hrunning ↦ ?_
      exact absurd (hrunning.symm.trans (stopped_doStep k mode addr hstopped)) Bool.noConfusion
    · have hidle : doStep k mode addr s = s := by
        unfold doStep
        rw [Bool.eq_false_iff.mpr hstopped]
        rfl
      rw [hidle]
      exact hsame ⟨rfl, rfl, rfl, rfl⟩
  | setSoftBp addr => exact hsame (sameThreads_of_view (view_doSetSoftBp k addr s))
  | removeSoftBp id => exact hsame (sameThreads_of_view (view_doRemoveSoftBp k id s))
  | setRegs regs => exact hsame (sameThreads_of_view (view_doSetRegs regs s))
  | selectThread tid => exact hsame (sameThreads_doSelectThread tid s)
  | setHwBp addr type size => exact hsame (sameThreads_doSetHwBp k addr type size s)
  | removeHwBp id => exact hsame (sameThreads_doRemoveHwBp k id s)

/-- A session that a turn ends has nothing to account for. -/
theorem recounts_of_closed {text : ℕ → UInt8} (hintact : Intact k text s) {input : Input}
    (hdetached : (step k s input).attached = false) : Recounts born s c (step k s input) := by
  obtain ⟨added, hlog⟩ := log_step hintact input
  exact ⟨added, hlog, fun _ ↦ counted_of_detached hdetached⟩

theorem attached_closeDetached (h : s.attached = false) : (closeDetached k s).attached = false := by
  rw [closeDetached, h]
  exact (attached_tracerCleanup k s).trans h

/-- One turn, with the census that `follow` starts from. -/
theorem recounts_step (hwaits : ∀ clock, (k.waits clock).isSome = true) {text : ℕ → UInt8}
    (hintact : Intact k text s) (h : Counted s c) (input : Input)
    (haccountable : Accountable k born s input) :
    Recounts born s (if s.attached then c else ⟨s.log.length, attachedBy k s input, ∅⟩)
      (step k s input) := by
  cases hattached : s.attached with
  | false =>
    rw [if_neg Bool.false_ne_true]
    by_cases hpid : ∃ pid, input = .attach pid
    · obtain ⟨pid, rfl⟩ := hpid
      have hstep : step k s (.attach pid) = attach k pid s := by rw [step, hattached]; rfl
      rw [hstep]
      exact counted_attach hwaits pid hattached (haccountable hattached)
    · refine recounts_of_closed hintact ?_
      cases input with
      | attach pid => exact absurd ⟨pid, rfl⟩ hpid
      | command cmd => rw [step, hattached]; exact hattached
      | poll w result => rw [step, hattached]; exact hattached
      | gone => rw [step, hattached]; exact hattached
      | addExceptionBreakpoint signal => exact hattached
      | removeExceptionBreakpoint signal => exact hattached
      | detach => rw [step, hattached]; exact hattached
  | true =>
    rw [if_pos rfl]
    have hc := h.accounts hattached
    have hsame : Recounts born s c s := (tallies_of_same rfl fun _ hc ↦ hc).recounts hc
      (h.running hattached)
    cases input with
    | attach pid =>
      have hstep : step k s (.attach pid) = s := by rw [step, hattached]; rfl
      rw [hstep]
      exact hsame
    | command cmd =>
      have hstep : step k s (.command cmd) = (performCommand k cmd s).1 := by
        rw [step, hattached]
        rfl
      rw [hstep]
      exact recounts_performCommand hwaits h hattached cmd haccountable
    | poll w result =>
      cases hstopped : s.stopped with
      | true =>
        have hstep : step k s (.poll w result) = s := by rw [step, hattached, hstopped]; rfl
        rw [hstep]
        exact hsame
      | false =>
        have hstep : step k s (.poll w result) =
            closeDetached k (handleStop k w result.status (recordStop .poll w result s)) := by
          rw [step, hattached, hstopped]
          rfl
        obtain ⟨added, hlog, hsettles⟩ := settles_handleStop hwaits
          ⟨hc, h.running hattached hstopped⟩ hattached hstopped haccountable
        by_cases hends : (handleStop k w result.status (recordStop .poll w result s)).attached = true
        · rw [hstep, closeDetached, if_pos hends]
          refine ⟨.stop (stopOf .poll w result s) :: added, ?_, fun hexpected ↦ ?_⟩
          · rw [hlog]
            exact (List.append_cons _ _ _).symm
          · obtain ⟨haccounts, hrunning⟩ :=
              hsettles (fun e he ↦ hexpected e (List.mem_cons_of_mem _ he)) hends
            exact ⟨fun _ ↦ haccounts, fun _ ↦ hrunning⟩
        · refine recounts_of_closed hintact ?_
          rw [hstep]
          exact attached_closeDetached (Bool.eq_false_iff.mpr hends)
    | gone =>
      cases hstopped : s.stopped with
      | true =>
        have hstep : step k s .gone = s := by rw [step, hattached, hstopped]; rfl
        rw [hstep]
        exact hsame
      | false =>
        refine recounts_of_closed hintact ?_
        rw [step, hattached, hstopped]
        exact @attached_closeDetached k
          { report .processExited s.pid 0 0 s with attached := false, stopped := false } rfl
    | addExceptionBreakpoint signal =>
      have hkept : SameThreads s (step k s (.addExceptionBreakpoint signal)) := ⟨rfl, rfl, rfl, rfl⟩
      exact hkept.tallies.recounts hc (h.running hattached)
    | removeExceptionBreakpoint signal =>
      have hkept : SameThreads s (step k s (.removeExceptionBreakpoint signal)) :=
        ⟨rfl, rfl, rfl, rfl⟩
      exact hkept.tallies.recounts hc (h.running hattached)
    | detach =>
      refine recounts_of_closed hintact ?_
      rw [step, hattached]
      exact @attached_closeDetached k { s with attached := false } rfl

theorem log_run {text : ℕ → UInt8} (hintact : Intact k text s) (inputs : List Input) :
    ∃ added, (run k s inputs).log = s.log ++ added := by
  induction inputs generalizing s with
  | nil => exact ⟨[], (List.append_nil _).symm⟩
  | cons input rest ih =>
    obtain ⟨first, hfirst⟩ := log_step hintact input
    obtain ⟨second, hsecond⟩ := ih (intact_step hintact input)
    refine ⟨first ++ second, ?_⟩
    change (run k (step k s input) rest).log = _
    rw [hsecond, hfirst, List.append_assoc]

theorem counted_followed (hwaits : ∀ clock, (k.waits clock).isSome = true) {text : ℕ → UInt8}
    (hintact : Intact k text s) (h : Counted s c) (inputs : List Input)
    (hexpected : ∀ e ∈ (run k s inputs).log, e.Expected)
    (haccountable : ∀ i (hi : i < inputs.length),
      Accountable k born (run k s (inputs.take i)) inputs[i]) :
    Counted (run k s inputs) (inputs.foldl (follow k born) (s, c)).2 := by
  induction inputs generalizing s c with
  | nil => exact h
  | cons input rest ih =>
    have hnext := intact_step hintact input
    obtain ⟨later, hlater⟩ := log_run hnext rest
    obtain ⟨added, hadded, hcounted⟩ := recounts_step hwaits hintact h input
      (haccountable 0 (Nat.zero_lt_succ _))
    have hfollow : follow k born (s, c) input = (step k s input,
        Census.after born (if s.attached then c else ⟨s.log.length, attachedBy k s input, ∅⟩)
          added) := by
      unfold follow
      dsimp only
      rw [hadded, List.drop_left]
    rw [List.foldl_cons, hfollow]
    refine ih hnext (hcounted fun e he ↦ hexpected e ?_) hexpected fun i hi ↦
      haccountable (i + 1) (Nat.succ_lt_succ hi)
    change e ∈ (run k (step k s input) rest).log
    rw [hlater, hadded]
    exact List.mem_append_left _ (List.mem_append_right _ he)

/-- In a run where the waits for one thread find it stopped and every turn is accountable, the
session traces exactly the threads that live, and knows exactly those of them that are stopped. -/
theorem thread_sets_run (k : Kernel) (born : ℕ → Option ℕ) (text : ℕ → UInt8) (inputs : List Input)
    (hwaits : ∀ clock, (k.waits clock).isSome = true)
    (hexpected : ∀ e ∈ (run k (DebugSession.new text) inputs).log, e.Expected)
    (haccountable : ∀ i (hi : i < inputs.length),
      Accountable k born (run k (DebugSession.new text) (inputs.take i)) inputs[i])
    (hattached : (run k (DebugSession.new text) inputs).attached = true) :
    (run k (DebugSession.new text) inputs).traced.toFinset = (followed k born text inputs).2.live ∧
      (run k (DebugSession.new text) inputs).stoppedTids.toFinset =
        (followed k born text inputs).2.halted := by
  have hstart : Counted (DebugSession.new text) ⟨0, ∅, ∅⟩ := counted_of_detached rfl
  have hcounted := counted_followed hwaits (intact_new k text) hstart inputs hexpected haccountable
  exact ⟨(hcounted.accounts hattached).live, (hcounted.accounts hattached).halted⟩

instance : DecidablePred Event.Expected
  | .stop found => inferInstanceAs (Decidable (found.site ≠ .poll → found.site ≠ .cleanup → _))
  | .resume _ _ => .isTrue trivial
  | .report _ => .isTrue trivial

instance (k : Kernel) : ∀ s tids, Decidable (InterruptsSeized k s tids)
  | _, [] => .isTrue trivial
  | s, tid :: rest =>
    have := instDecidableInterruptsSeized k (seizeThread k s tid) rest
    inferInstanceAs (Decidable (_ ∧ _))

instance (k : Kernel) (born : ℕ → Option ℕ) (s : DebugSession) : DecidablePred (Accountable k born s)
  | .attach _ => inferInstanceAs (Decidable (_ → InterruptsSeized _ _ _))
  | .poll _ _ => inferInstanceAs (Decidable (_ → _ → (_ → _) ∧ (_ → _)))
  | .command (.step _ _) => inferInstanceAs (Decidable (_ → _ → _))
  | .gone | .addExceptionBreakpoint _ | .removeExceptionBreakpoint _ | .detach
  | .command .continue | .command (.setHwBp _ _ _) | .command (.setSoftBp _)
  | .command (.removeSoftBp _) | .command (.setRegs _) | .command (.selectThread _)
  | .command (.removeHwBp _) => .isTrue trivial

/-- Thread 1 runs into a breakpoint. -/
def int3Stop : WaitResult := ⟨.stopped sigtrap 0, some ⟨0x2001, 0x7000⟩, none, 0x2000⟩

/-- The new thread is known when a breakpoint stops the session. -/
theorem thread_sets_run_created :
    (run cloningKernel (DebugSession.new fun _ ↦ 0x90) [.attach 1, .command (.setSoftBp 0x2000),
      .command .continue, .poll 1 cloneEvent, .poll 1 int3Stop]).traced.toFinset = {1, 2, 3} ∧
    (followed cloningKernel (fun _ ↦ some 3) (fun _ ↦ 0x90) [.attach 1, .command (.setSoftBp 0x2000),
      .command .continue, .poll 1 cloneEvent, .poll 1 int3Stop]).2.live = {1, 2, 3} := by
  have hsets := thread_sets_run cloningKernel (fun _ ↦ some 3) (fun _ ↦ 0x90)
    [.attach 1, .command (.setSoftBp 0x2000), .command .continue, .poll 1 cloneEvent,
      .poll 1 int3Stop] (fun _ ↦ rfl) (by decide) (by decide) (by decide)
  exact ⟨by decide, hsets.1.symm.trans (by decide)⟩

/-- Thread 2 is found stopped for the thread it created while the session freezes it. -/
def frozenCloneKernel : Kernel :=
  { cloningKernel with
    waits := fun clock ↦ if clock = 7 then some cloneEvent else cloningKernel.waits clock }

/-- The new thread lives, and the session does not know it. -/
theorem created_thread_untracked :
    (run frozenCloneKernel (DebugSession.new fun _ ↦ 0x90) [.attach 1,
      .command (.setSoftBp 0x2000), .command .continue, .poll 1 int3Stop]).attached = true ∧
    (run frozenCloneKernel (DebugSession.new fun _ ↦ 0x90) [.attach 1,
      .command (.setSoftBp 0x2000), .command .continue, .poll 1 int3Stop]).stopped = true ∧
    (run frozenCloneKernel (DebugSession.new fun _ ↦ 0x90) [.attach 1,
      .command (.setSoftBp 0x2000), .command .continue, .poll 1 int3Stop]).traced.toFinset ≠
    (followed frozenCloneKernel (fun _ ↦ some 3) (fun _ ↦ 0x90) [.attach 1,
      .command (.setSoftBp 0x2000), .command .continue, .poll 1 int3Stop]).2.live := by
  decide

end DebugSession

end Cecore.Debug
