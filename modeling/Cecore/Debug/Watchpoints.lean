import Cecore.Debug.ThreadView

/-!
# Watchpoints on every thread

A watchpoint is armed thread by thread when it is set. `Watchful` says that every traced thread has
every watchpoint of the session in its debug registers; all turns keep it but two: setting a
watchpoint while a thread refuses it, and tracing a new thread, whose registers start out cleared,
while there are watchpoints.
-/

set_option autoImplicit false
set_option relaxedAutoImplicit false

namespace Cecore.Debug

/-- The debug register of a watchpoint as it should be. -/
def HwBp.watch (bp : HwBp) : Watch := ⟨bp.address, bp.type, bp.len⟩

namespace DebugSession

/-- Every traced thread has every watchpoint armed. -/
def Covered (s : DebugSession) : Prop :=
  ∀ tid ∈ s.traced, ∀ bp ∈ s.hwBreakpoints, s.debugRegs tid bp.reg = some bp.watch

/-- A watchpoint that finds a free register is armed on every thread, and no thread is new while
there are watchpoints. -/
def KeepsCover (k : Kernel) (s : DebugSession) : Input → Prop
  | .command (.setHwBp _ _ _) => s.attached = true →
      (∃ reg < 4, reg ∉ s.hwBreakpoints.map HwBp.reg) →
        ∀ i < s.traced.length, k.grants (s.clock + i) = true
  | .poll _ result => s.attached = true → s.stopped = false →
      isEventStop result.status ptraceEventClone = true → k.eventMessage s.clock ≠ 0 →
        s.hwBreakpoints = []
  | _ => True

structure Watchful (s : DebugSession) : Prop where
  covered : s.Covered
  nodup : (s.hwBreakpoints.map HwBp.reg).Nodup
  detached : s.attached = false → s.hwBreakpoints = []

variable {k : Kernel} {s s' s'' : DebugSession}

theorem watchful_of_none (hnone : s.hwBreakpoints = []) : s.Watchful where
  covered := by
    intro tid _ bp hbp
    rw [hnone] at hbp
    cases hbp
  nodup := by
    rw [hnone]
    exact List.nodup_nil
  detached := fun _ ↦ hnone

/-! ### Threads and watchpoints that stay -/

/-- The traced threads and the watchpoints are the same. -/
structure Steady (s s' : DebugSession) : Prop where
  traced : s'.traced = s.traced
  hwBreakpoints : s'.hwBreakpoints = s.hwBreakpoints
  debugRegs : s'.debugRegs = s.debugRegs
  attached : s'.attached = s.attached

theorem Steady.trans (h : Steady s s') (h' : Steady s' s'') : Steady s s'' :=
  ⟨h'.traced.trans h.traced, h'.hwBreakpoints.trans h.hwBreakpoints,
    h'.debugRegs.trans h.debugRegs, h'.attached.trans h.attached⟩

theorem Appends.steady {added : List Event} (h : Appends s s' added) : Steady s s' :=
  ⟨congrArg View.traced h, congrArg View.hwBreakpoints h, congrArg View.debugRegs h,
    congrArg View.attached h⟩

theorem steady_of_view (h : s'.view = s.view) : Steady s s' := (Appends.of_view h).steady

theorem steady_foldl {α : Type} {f : DebugSession → α → DebugSession}
    (hf : ∀ s a, Steady s (f s a)) (l : List α) (s : DebugSession) : Steady s (l.foldl f s) := by
  induction l generalizing s with
  | nil => exact ⟨rfl, rfl, rfl, rfl⟩
  | cons a rest ih => exact (hf s a).trans (ih (f s a))

theorem Watchful.steady (h : s.Watchful) (hsteady : Steady s s') : s'.Watchful where
  covered := by
    unfold Covered
    rw [hsteady.traced, hsteady.hwBreakpoints, hsteady.debugRegs]
    exact h.covered
  nodup := by
    rw [hsteady.hwBreakpoints]
    exact h.nodup
  detached := by
    rw [hsteady.hwBreakpoints, hsteady.attached]
    exact h.detached

theorem steady_waitpid (k : Kernel) (site : WaitSite) (tid : ℕ) (s : DebugSession) :
    Steady s (waitpid k site tid s).1 :=
  (appends_waitpid k site tid s).steady

theorem steady_stopOtherThread (k : Kernel) (active : ℕ) (s : DebugSession) (tid : ℕ) :
    Steady s (stopOtherThread k active s tid) := by
  unfold stopOtherThread
  have hrequest : Steady s (request k s).1 := steady_of_view (view_request k s)
  have hwait := hrequest.trans (steady_waitpid k .stopOthers tid (request k s).1)
  split_ifs
  · exact ⟨rfl, rfl, rfl, rfl⟩
  · dsimp only
    split_ifs
    · exact hrequest
    · rcases hfound : waitpid k .stopOthers tid (request k s).1 with ⟨waited, _ | result⟩
      · rw [hfound] at hwait
        exact hwait
      · rw [hfound] at hwait
        have hstopped : Steady waited { waited with stoppedTids := insertTid tid waited.stoppedTids } :=
          ⟨rfl, rfl, rfl, rfl⟩
        exact (hwait.trans hstopped).trans (steady_of_view (view_backUpOverInt3 _ _ _))

theorem steady_stopOtherThreads (k : Kernel) (active : ℕ) (s : DebugSession) :
    Steady s (stopOtherThreads k active s) :=
  (steady_foldl (steady_stopOtherThread k active) s.traced s).trans ⟨rfl, rfl, rfl, rfl⟩

theorem steady_breakAt (k : Kernel) (type : DebugEventType) (w address signal : ℕ)
    (s : DebugSession) : Steady s (breakAt k type w address signal s) := by
  unfold breakAt
  dsimp only
  set active : DebugSession := { s with activeTid := w, stoppedTids := insertTid w s.stoppedTids }
  have hactive : Steady s active := ⟨rfl, rfl, rfl, rfl⟩
  have hfrozen := hactive.trans (steady_stopOtherThreads k w active)
  have hstopped : Steady (stopOtherThreads k w active)
      { stopOtherThreads k w active with stopped := true } := ⟨rfl, rfl, rfl, rfl⟩
  exact ((hfrozen.trans hstopped).trans (steady_of_view (view_captureRegs w _))).trans
    (appends_report type w address signal _).steady

theorem steady_handleTrap (k : Kernel) (w : ℕ) (s : DebugSession) : Steady s (handleTrap k w s) := by
  unfold handleTrap
  cases s.regs w with
  | none => exact (appends_resume w 0 s).steady
  | some regs =>
    dsimp only
    split
    · exact steady_breakAt k _ w _ _ s
    · split_ifs
      · exact (steady_of_view (view_setRip w _ s)).trans (steady_breakAt k _ w _ _ _)
      · exact (appends_resume w 0 s).steady

theorem steady_resumeAllThreads (k : Kernel) (s : DebugSession) :
    Steady s (resumeAllThreads k s) := by
  unfold resumeAllThreads
  dsimp only
  have hstepped := steady_foldl (f := fun s tid ↦ (stepThreadOverBp k tid s).1) (fun s tid ↦ by
    obtain ⟨added, -, hran⟩ := ran_stepThreadOverBp k tid s
    exact hran.steady) s.traced s
  set stepped := s.traced.foldl (fun s tid ↦ (stepThreadOverBp k tid s).1) s
  have hresumed := steady_foldl (f := fun s tid ↦ resume tid 0 s)
    (fun s tid ↦ (appends_resume tid 0 s).steady) stepped.traced stepped
  exact (hstepped.trans hresumed).trans ⟨rfl, rfl, rfl, rfl⟩

theorem steady_doContinue (k : Kernel) (s : DebugSession) : Steady s (doContinue k s) := by
  unfold doContinue
  split_ifs
  · exact ⟨rfl, rfl, rfl, rfl⟩
  · exact (steady_resumeAllThreads k s).trans ⟨rfl, rfl, rfl, rfl⟩

theorem steady_doStep (k : Kernel) (mode : StepMode) (targetAddress : ℕ) (s : DebugSession) :
    Steady s (doStep k mode targetAddress s) := by
  unfold doStep
  split
  · exact ⟨rfl, rfl, rfl, rfl⟩
  · dsimp only
    set tid := if s.activeTid ≠ 0 then s.activeTid else s.pid
    obtain ⟨added, -, hran⟩ := ran_stepThread k mode targetAddress tid s
    set stepped := stepThread k mode targetAddress tid s
    have hstopped : Steady stepped { stepped with stopped := true } := ⟨rfl, rfl, rfl, rfl⟩
    exact ((hran.steady.trans hstopped).trans (steady_of_view (view_captureRegs tid _))).trans
      (appends_report _ tid _ _ _).steady

theorem steady_doSelectThread (tid : ℕ) (s : DebugSession) :
    Steady s (doSelectThread tid s).1 := by
  unfold doSelectThread
  by_cases hstopped : tid ∈ s.stoppedTids
  · rw [if_neg (not_not.mpr hstopped)]
    have hselected : Steady s { s with activeTid := tid } := ⟨rfl, rfl, rfl, rfl⟩
    exact hselected.trans (steady_of_view (view_captureRegs tid _))
  · rw [if_pos hstopped]
    exact ⟨rfl, rfl, rfl, rfl⟩

/-! ### Arming and disarming -/

/-- Arming a thread and disarming it. -/
def pokeDebugReg (k : Kernel) (reg : ℕ) (watch : Option Watch) (s : DebugSession) (tid : ℕ) :
    DebugSession :=
  if (request k s).2 then setDebugReg tid reg watch (request k s).1 else (request k s).1

theorem armHwBp_eq (k : Kernel) (reg : ℕ) (watch : Watch) :
    armHwBp k reg watch = pokeDebugReg k reg (some watch) := rfl

theorem disarmHwBpReg_eq (k : Kernel) (reg : ℕ) : disarmHwBpReg k reg = pokeDebugReg k reg none := rfl

/-- Other debug registers, and everything else in view, stay as they are. -/
structure OneRegister (reg : ℕ) (s s' : DebugSession) : Prop where
  view : s'.view = { s.view with debugRegs := s'.debugRegs }
  others : ∀ tid other, other ≠ reg → s'.debugRegs tid other = s.debugRegs tid other

theorem oneRegister_pokeDebugReg (k : Kernel) (reg : ℕ) (watch : Option Watch) (s : DebugSession)
    (tid : ℕ) : OneRegister reg s (pokeDebugReg k reg watch s tid) := by
  unfold pokeDebugReg
  split_ifs
  · refine ⟨rfl, fun other register hregister ↦ ?_⟩
    unfold setDebugReg
    change Function.update s.debugRegs tid _ other register = s.debugRegs other register
    by_cases hsame : other = tid
    · subst hsame
      rw [Function.update_self, Function.update_of_ne hregister]
      rfl
    · rw [Function.update_of_ne hsame]
  · exact ⟨rfl, fun _ _ _ ↦ rfl⟩

theorem oneRegister_foldl (k : Kernel) (reg : ℕ) (watch : Option Watch) (tids : List ℕ)
    (s : DebugSession) : OneRegister reg s (tids.foldl (pokeDebugReg k reg watch) s) := by
  induction tids generalizing s with
  | nil => exact ⟨rfl, fun _ _ _ ↦ rfl⟩
  | cons first rest ih =>
    have hfirst := oneRegister_pokeDebugReg k reg watch s first
    have hrest := ih (pokeDebugReg k reg watch s first)
    refine ⟨?_, fun tid other hother ↦
      (hrest.others tid other hother).trans (hfirst.others tid other hother)⟩
    rw [List.foldl_cons, hrest.view, hfirst.view]

/-- Threads that grant it have the register armed. -/
theorem debugRegs_foldl_of_granted {reg : ℕ} {watch : Option Watch} {tids : List ℕ}
    {s : DebugSession} (hgrants : ∀ i < tids.length, k.grants (s.clock + i) = true) {tid : ℕ}
    (htid : tid ∈ tids ∨ s.debugRegs tid reg = watch) :
    (tids.foldl (pokeDebugReg k reg watch) s).debugRegs tid reg = watch := by
  induction tids generalizing s with
  | nil => exact htid.resolve_left List.not_mem_nil
  | cons first rest ih =>
    have hfirst : pokeDebugReg k reg watch s first =
        setDebugReg first reg watch { s with clock := s.clock + 1 } :=
      if_pos (hgrants 0 (Nat.zero_lt_succ _))
    rw [List.foldl_cons, hfirst]
    refine ih (fun i hi ↦ ?_) ?_
    · have hgrant := hgrants (i + 1) (Nat.succ_lt_succ hi)
      rwa [show s.clock + (i + 1) = s.clock + 1 + i by omega] at hgrant
    · by_cases hsame : tid = first
      · subst hsame
        refine Or.inr ?_
        change Function.update s.debugRegs tid _ tid reg = watch
        rw [Function.update_self, Function.update_self]
      · refine htid.imp (fun hmem ↦ (List.mem_cons.mp hmem).resolve_left hsame) fun harmed ↦ ?_
        change Function.update s.debugRegs first _ tid reg = watch
        rw [Function.update_of_ne hsame]
        exact harmed

/-! ### Turns that change threads or watchpoints -/

/-- A new watchpoint gets a register that no other one has. -/
theorem Watchful.doSetHwBp (h : s.Watchful) (hattached : s.attached = true) (address type size : ℕ)
    (hgrants : (∃ reg < 4, reg ∉ s.hwBreakpoints.map HwBp.reg) →
      ∀ i < s.traced.length, k.grants (s.clock + i) = true) :
    (doSetHwBp k address type size s).1.Watchful := by
  unfold DebugSession.doSetHwBp
  cases hfind : (List.range 4).find? fun reg ↦ decide (reg ∉ s.hwBreakpoints.map HwBp.reg) with
  | none => exact h
  | some reg =>
    have hrange := List.mem_range.mp (List.mem_of_find?_eq_some hfind)
    have hfree : reg ∉ s.hwBreakpoints.map HwBp.reg := by simpa using List.find?_some hfind
    dsimp only
    set watch : Watch := ⟨address, if type = 1 then 1 else 3,
      if size = 1 then 0 else if size = 2 then 1 else if size = 8 then 2 else 3⟩ with hwatch
    rw [armHwBp_eq]
    set armed := s.traced.foldl (pokeDebugReg k reg (some watch)) s with harmed
    have hone : OneRegister reg s armed := oneRegister_foldl k reg (some watch) s.traced s
    have htraced : armed.traced = s.traced := congrArg View.traced hone.view
    have hlist : armed.hwBreakpoints = s.hwBreakpoints := congrArg View.hwBreakpoints hone.view
    refine ⟨?_, ?_, fun hdetached ↦ ?_⟩
    · intro tid htid bp hbp
      change tid ∈ armed.traced at htid
      rw [htraced] at htid
      rcases List.mem_append.mp hbp with hbp | hbp
      · rw [hlist] at hbp
        have hne : bp.reg ≠ reg := fun hsame ↦ hfree (hsame ▸ List.mem_map_of_mem hbp)
        exact (hone.others tid bp.reg hne).trans (h.covered tid htid bp hbp)
      · rw [List.mem_singleton.mp hbp]
        exact debugRegs_foldl_of_granted (hgrants ⟨reg, hrange, hfree⟩) (Or.inl htid)
    · dsimp only
      rw [hlist, List.map_append, List.map_singleton, List.nodup_append]
      refine ⟨h.nodup, List.nodup_singleton _, fun first hfirst second hsecond hsame ↦ hfree ?_⟩
      have hreg : second = reg := List.mem_singleton.mp hsecond
      rw [← hreg, ← hsame]
      exact hfirst
    · have hkept : armed.attached = s.attached := congrArg View.attached hone.view
      change armed.attached = false at hdetached
      rw [hkept, hattached] at hdetached
      cases hdetached

/-- Without one watchpoint the others stay armed. -/
theorem Watchful.doRemoveHwBp (h : s.Watchful) (id : ℕ) : (doRemoveHwBp k id s).Watchful := by
  unfold DebugSession.doRemoveHwBp
  cases hfind : s.hwBreakpoints.find? fun bp ↦ decide (bp.id = id) with
  | none => exact h
  | some bp =>
    have hbp := List.mem_of_find?_eq_some hfind
    dsimp only
    rw [disarmHwBpReg_eq]
    set disarmed := s.traced.foldl (pokeDebugReg k bp.reg none) s with hdisarmed
    have hone : OneRegister bp.reg s disarmed := oneRegister_foldl k bp.reg none s.traced s
    have htraced : disarmed.traced = s.traced := congrArg View.traced hone.view
    have hlist : disarmed.hwBreakpoints = s.hwBreakpoints :=
      congrArg View.hwBreakpoints hone.view
    refine ⟨?_, ?_, fun hdetached ↦ ?_⟩
    · intro tid htid other hother
      change tid ∈ disarmed.traced at htid
      change other ∈ disarmed.hwBreakpoints.erase bp at hother
      rw [htraced] at htid
      rw [hlist] at hother
      have hmem := List.mem_of_mem_erase hother
      have hne : other.reg ≠ bp.reg := by
        intro hsame
        have heq := List.inj_on_of_nodup_map h.nodup hmem hbp hsame
        rw [heq] at hother
        exact (List.Nodup.of_map HwBp.reg h.nodup).not_mem_erase hother
      exact (hone.others tid other.reg hne).trans (h.covered tid htid other hmem)
    · dsimp only
      rw [hlist]
      exact h.nodup.sublist (List.erase_sublist.map HwBp.reg)
    · have hkept : disarmed.attached = s.attached := congrArg View.attached hone.view
      change disarmed.attached = false at hdetached
      dsimp only
      rw [hlist, h.detached (hkept.symm.trans hdetached)]
      rfl

/-- A thread that is gone needs no watchpoint. -/
theorem Watchful.handleExit (h : s.Watchful) (w : ℕ)
    (hattached : (handleExit w s).attached = true) : (handleExit w s).Watchful := by
  unfold DebugSession.handleExit at hattached ⊢
  dsimp only at hattached ⊢
  split_ifs at hattached ⊢
  exact ⟨fun tid htid ↦ h.covered tid (List.mem_of_mem_erase htid), h.nodup, h.detached⟩

/-- A clone event is a stop of the parent alone, unless it tells of a new thread. -/
theorem Watchful.handleClone (h : s.Watchful) (w : ℕ)
    (hnew : k.eventMessage s.clock ≠ 0 → s.hwBreakpoints = []) : (handleClone k w s).Watchful := by
  unfold DebugSession.handleClone
  dsimp only
  split_ifs with hzero
  · have hresumed := (appends_resume w 0 { s with clock := s.clock + 1 }).steady
    exact h.steady ⟨hresumed.traced, hresumed.hwBreakpoints, hresumed.debugRegs, hresumed.attached⟩
  · refine watchful_of_none ?_
    have hwait := steady_waitpid k .newThread (k.eventMessage s.clock) { s with clock := s.clock + 1 }
    exact hwait.hwBreakpoints.trans (hnew hzero)

theorem Watchful.handleStop (h : s.Watchful) (w : ℕ) (status : WaitStatus)
    (hnew : isEventStop status ptraceEventClone = true → k.eventMessage s.clock ≠ 0 →
      s.hwBreakpoints = [])
    (hattached : (handleStop k w status s).attached = true) :
    (handleStop k w status s).Watchful := by
  unfold DebugSession.handleStop at hattached ⊢
  cases status with
  | exited => exact h.handleExit w hattached
  | signaled => exact h.handleExit w hattached
  | continued => exact h
  | stopped signal event =>
    dsimp only
    split_ifs with hclone
    · exact h.handleClone w (hnew hclone)
    · exact h.steady (steady_handleTrap k w s)
    · exact h.steady (steady_breakAt k _ w _ signal s)
    · exact h.steady (appends_resume w signal s).steady

theorem hwBreakpoints_tracerCleanup (k : Kernel) (s : DebugSession) :
    (tracerCleanup k s).hwBreakpoints = [] := by
  unfold tracerCleanup
  dsimp only
  set restored : DebugSession :=
    { (s.traced.foldl (interruptThread k) s).softBreakpoints.foldl (restoreByte k)
      (s.traced.foldl (interruptThread k) s) with softBreakpoints := [] }
  exact (steady_foldl (f := fun s tid ↦ resume tid 0 s) (fun s tid ↦ (appends_resume tid 0 s).steady)
    (disarmAllHwBreakpoints k restored).traced (disarmAllHwBreakpoints k restored)).hwBreakpoints

theorem watchful_closeDetached (h : s.attached = true → s.Watchful) :
    (closeDetached k s).Watchful := by
  unfold closeDetached
  split_ifs with hattached
  · exact h hattached
  · exact watchful_of_none (hwBreakpoints_tracerCleanup k s)

/-- Seizing a thread changes the threads only. -/
theorem seizeThread_kept (k : Kernel) (s : DebugSession) (tid : ℕ) :
    (seizeThread k s tid).hwBreakpoints = s.hwBreakpoints ∧
      (seizeThread k s tid).attached = s.attached := by
  unfold seizeThread
  dsimp only
  split_ifs
  · exact ⟨rfl, rfl⟩
  · exact ⟨rfl, rfl⟩
  · have hwait := steady_waitpid k .seize tid (request k (request k s).1).1
    rcases hfound : waitpid k .seize tid (request k (request k s).1).1 with ⟨waited, _ | result⟩ <;>
      rw [hfound] at hwait <;> exact ⟨hwait.hwBreakpoints, hwait.attached⟩

/-- Without watchpoints a session attaches without watchpoints. -/
theorem watchful_attach (hnone : s.hwBreakpoints = []) (k : Kernel) (pid : ℕ) :
    (attach k pid s).Watchful := by
  have hseized : ∀ (tids : List ℕ) (s : DebugSession), s.hwBreakpoints = [] →
      (tids.foldl (seizeThread k) s).hwBreakpoints = [] := by
    intro tids
    induction tids with
    | nil => exact fun _ h ↦ h
    | cons tid rest ih =>
      exact fun s h ↦ ih _ ((seizeThread_kept k s tid).1.trans h)
  refine watchful_of_none ?_
  unfold attach
  rcases hall : seizeAllThreads k { s with pid := pid } with ⟨seized, ok⟩
  have hlist : seized.hwBreakpoints = [] := by
    have hfold := hseized (if k.threads s.clock = [] then [pid] else k.threads s.clock)
      { s with pid := pid, traced := [], stoppedTids := [] } hnone
    exact (congrArg (fun p ↦ p.1.hwBreakpoints) hall).symm.trans hfold
  dsimp only
  split_ifs
  · exact (steady_of_view (view_captureRegs pid _)).hwBreakpoints.trans hlist
  · exact hlist

theorem Watchful.performCommand (h : s.Watchful) (hattached : s.attached = true) (cmd : Command)
    (hkeeps : KeepsCover k s (.command cmd)) : (performCommand k cmd s).1.Watchful := by
  cases cmd with
  | «continue» => exact h.steady (steady_doContinue k s)
  | step mode addr => exact h.steady (steady_doStep k mode addr s)
  | setSoftBp addr => exact h.steady (steady_of_view (view_doSetSoftBp k addr s))
  | removeSoftBp id => exact h.steady (steady_of_view (view_doRemoveSoftBp k id s))
  | setRegs regs => exact h.steady (steady_of_view (view_doSetRegs regs s))
  | selectThread tid => exact h.steady (steady_doSelectThread tid s)
  | setHwBp addr type size => exact h.doSetHwBp hattached addr type size (hkeeps hattached)
  | removeHwBp id => exact h.doRemoveHwBp id

/-! ### Runs -/

/-- One turn arms every traced thread, unless it is one of the two. -/
theorem Watchful.step (h : s.Watchful) {input : Input} (hkeeps : KeepsCover k s input) :
    (step k s input).Watchful := by
  cases input with
  | attach pid =>
    unfold DebugSession.step
    dsimp only
    split_ifs with hattached
    · exact h
    · exact watchful_attach (h.detached (Bool.eq_false_iff.mpr hattached)) k pid
  | command cmd =>
    unfold DebugSession.step
    dsimp only
    split_ifs with hattached
    · exact h.performCommand hattached cmd hkeeps
    · exact h
  | poll w result =>
    unfold DebugSession.step
    dsimp only
    split_ifs with hrunning
    · obtain ⟨hattached, hstopped⟩ := Bool.and_eq_true_iff.mp hrunning
      have hrecorded := h.steady (appends_recordStop .poll w result s).steady
      exact watchful_closeDetached (hrecorded.handleStop w result.status
        (hkeeps hattached (Bool.not_inj hstopped)))
    · exact h
  | gone =>
    unfold DebugSession.step
    dsimp only
    split_ifs
    · exact watchful_closeDetached fun hattached ↦ absurd hattached Bool.false_ne_true
    · exact h
  | addExceptionBreakpoint signal => exact ⟨h.covered, h.nodup, h.detached⟩
  | removeExceptionBreakpoint signal => exact ⟨h.covered, h.nodup, h.detached⟩
  | detach =>
    unfold DebugSession.step
    dsimp only
    split_ifs
    · exact watchful_closeDetached fun hattached ↦ absurd hattached Bool.false_ne_true
    · exact h

theorem watchful_run (h : s.Watchful) (inputs : List Input)
    (hkeeps : ∀ i (hi : i < inputs.length), KeepsCover k (run k s (inputs.take i)) inputs[i]) :
    (run k s inputs).Watchful := by
  induction inputs generalizing s with
  | nil => exact h
  | cons input rest ih =>
    have hfirst : (step k s input).Watchful := h.step (hkeeps 0 (Nat.zero_lt_succ _))
    exact ih hfirst fun i hi ↦ hkeeps (i + 1) (Nat.succ_lt_succ hi)

/-- In a run without the two turns, every traced thread has every watchpoint armed. -/
theorem covered_run (k : Kernel) (text : ℕ → UInt8) (inputs : List Input)
    (hkeeps : ∀ i (hi : i < inputs.length),
      KeepsCover k (run k (DebugSession.new text) (inputs.take i)) inputs[i]) :
    (run k (DebugSession.new text) inputs).Covered :=
  (watchful_run (watchful_of_none rfl) inputs hkeeps).covered

/-- Threads 1 and 2, the first of which creates thread 3. -/
def cloningKernel : Kernel where
  mapped := fun _ ↦ true
  grants := fun _ ↦ true
  waits := fun _ ↦ some ⟨.stopped sigtrap 0, some ⟨0x1000, 0x7000⟩, none, 0x1000⟩
  threads := fun _ ↦ [1, 2]
  eventMessage := fun _ ↦ 3
  readWord := fun _ _ ↦ 0
  callSize := fun _ _ ↦ none

/-- The first thread stops for the thread it created. -/
def cloneEvent : WaitResult :=
  ⟨.stopped sigtrap ptraceEventClone, some ⟨0x1000, 0x7000⟩, none, 0x1000⟩

instance (k : Kernel) (s : DebugSession) : DecidablePred (KeepsCover k s)
  | .command (.setHwBp _ _ _) => inferInstanceAs (Decidable (_ → (∃ reg < 4, _) → ∀ i < _, _))
  | .poll _ _ => inferInstanceAs (Decidable (_ → _ → _ → _ → _))
  | .attach _ | .gone | .addExceptionBreakpoint _ | .removeExceptionBreakpoint _ | .detach
  | .command .continue | .command (.step _ _) | .command (.setSoftBp _) | .command (.removeSoftBp _)
  | .command (.setRegs _) | .command (.selectThread _) | .command (.removeHwBp _) => .isTrue trivial

/-- The new thread is there when the watchpoint is set. -/
theorem covered_run_created :
    (run cloningKernel (DebugSession.new fun _ ↦ 0x90)
      [.attach 1, .command .continue, .poll 1 cloneEvent, .command (.setHwBp 0x2000 1 4)]).Covered :=
  covered_run cloningKernel (fun _ ↦ 0x90) _ (by decide)

/-- The new thread comes when the watchpoint is set already. -/
theorem created_thread_uncovered :
    ¬ (run cloningKernel (DebugSession.new fun _ ↦ 0x90) [.attach 1, .command (.setHwBp 0x2000 1 4),
      .command .continue, .poll 1 cloneEvent]).Covered := fun hcovered ↦
  absurd (hcovered 3 (by decide) ⟨1, 0x2000, 0, 1, 3⟩ (by decide)) (by decide)

end DebugSession

end Cecore.Debug
