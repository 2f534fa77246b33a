import Cecore.Debug.CodeBytes

/-!
# What the operations of a session change

`Logs` follows the log and the threads through an operation, `Runs` adds that the breakpoints stay,
and `Moves` that the text is as before at its end. Each operation has one lemma that says which of
these it does; the results about whole runs start from them.
-/

set_option autoImplicit false
set_option relaxedAutoImplicit false

namespace Cecore.Debug

/-! ### Stops taken for an int3 -/

/-- The int3 of the session that a stop is taken for, if any: the one the thread is set back to. -/
def Stop.takenForInt3 (stop : Stop) (regs : Regs) : Option ℕ :=
  let bpAddr := addressBefore regs.rip
  let trapped := stop.result.status.stopSignal? = some sigtrap ∧ bpAddr ∈ stop.armed
  match stop.site with
  | .stopOthers => if trapped then some bpAddr else none
  | .poll =>
    if trapped ∧ isEventStop stop.result.status ptraceEventClone = false ∧
        ¬(stop.watching = true ∧ stop.result.hardware.isSome) then some bpAddr
    else none
  | .runTo target =>
    if stop.result.status.stopSignal?.isSome ∧ regs.rip = (target + 1) % sizeModulus then
      some target
    else none
  | _ => none

/-- A stop is taken for an int3 exactly when the thread has executed that int3. -/
def Event.TakenRightly : Event → Prop
  | .stop found => ∀ regs, found.result.regs = some regs →
      (found.takenForInt3 regs).getD regs.rip = found.result.next
  | _ => True

/-- A stop that the session waited for itself, or something else than a stop. -/
def Event.Inner : Event → Prop
  | .stop found => found.site ≠ .poll
  | _ => True

/-- A site where no stop is taken for an int3. -/
def WaitSite.Plain (site : WaitSite) : Prop :=
  site ≠ .poll ∧ site ≠ .stopOthers ∧ ∀ target, site ≠ .runTo target

theorem Stop.takenForInt3_plain {stop : Stop} (hplain : stop.site.Plain) (regs : Regs) :
    stop.takenForInt3 regs = none := by
  obtain ⟨hpoll, hothers, hrun⟩ := hplain
  unfold Stop.takenForInt3
  cases hsite : stop.site with
  | poll => exact absurd hsite hpoll
  | stopOthers => exact absurd hsite hothers
  | runTo target => exact absurd hsite (hrun target)
  | seize | singleStep | newThread | cleanup => rfl

namespace DebugSession

/-- Every thread that can be read is saved at the original instruction it has still to execute. -/
def Aligned (s : DebugSession) : Prop :=
  ∀ tid, ∃ next, s.next tid = some next ∧ ∀ regs, s.regs tid = some regs → regs.rip = next

variable {k : Kernel} {original : ℕ → UInt8} {s s' s'' : DebugSession}

theorem Aligned.congr (h : s.Aligned) (hregs : s'.regs = s.regs) (hnext : s'.next = s.next) :
    s'.Aligned := by
  intro tid
  rw [hregs, hnext]
  exact h tid

theorem aligned_new (text : ℕ → UInt8) : (DebugSession.new text).Aligned := by
  intro tid
  exact ⟨0, rfl, by simp [DebugSession.new]⟩

/-- One thread gets registers and a next instruction that agree. -/
theorem Aligned.update (h : s.Aligned) {tid next : ℕ} {regs : Option Regs}
    (hregs : s'.regs = Function.update s.regs tid regs)
    (hnext : s'.next = Function.update s.next tid ((s.next tid).map fun _ ↦ next))
    (hagree : ∀ r, regs = some r → r.rip = next) : s'.Aligned := by
  intro other
  rw [hregs, hnext]
  by_cases hother : other = tid
  · subst hother
    obtain ⟨before, hbefore, -⟩ := h other
    rw [Function.update_self, Function.update_self, hbefore]
    exact ⟨next, rfl, hagree⟩
  · rw [Function.update_of_ne hother, Function.update_of_ne hother]
    exact h other

/-! ### Three relations -/

/-- The log grows by stops the session waited for, and threads stay where they should be as long as
no stop is mistaken. -/
structure Logs (s s' : DebugSession) : Prop where
  log : ∃ added, s'.log = s.log ++ added ∧ ∀ e ∈ added, e.Inner
  aligned : (∀ e ∈ s'.log, e.TakenRightly) → s.Aligned → s'.Aligned

/-- The breakpoints stay as they are. -/
structure Runs (s s' : DebugSession) : Prop extends Logs s s' where
  softBreakpoints : s'.softBreakpoints = s.softBreakpoints
  attached : s'.attached = s.attached

/-- At the end the text is as before. -/
structure Moves (s s' : DebugSession) : Prop extends Runs s s' where
  text : s'.text = s.text

theorem Logs.trans (h : Logs s s') (h' : Logs s' s'') : Logs s s'' where
  log := by
    obtain ⟨first, hfirst, hinner⟩ := h.log
    obtain ⟨second, hsecond, hinner'⟩ := h'.log
    refine ⟨first ++ second, by rw [hsecond, hfirst, List.append_assoc], ?_⟩
    intro e he
    rcases List.mem_append.mp he with he | he
    · exact hinner e he
    · exact hinner' e he
  aligned := by
    intro hclean haligned
    obtain ⟨second, hsecond, -⟩ := h'.log
    refine h'.aligned hclean (h.aligned (fun e he ↦ hclean e ?_) haligned)
    rw [hsecond]
    exact List.mem_append_left _ he

theorem Runs.trans (h : Runs s s') (h' : Runs s' s'') : Runs s s'' where
  toLogs := h.toLogs.trans h'.toLogs
  softBreakpoints := h'.softBreakpoints.trans h.softBreakpoints
  attached := h'.attached.trans h.attached

theorem Moves.trans (h : Moves s s') (h' : Moves s' s'') : Moves s s'' where
  toRuns := h.toRuns.trans h'.toRuns
  text := h'.text.trans h.text

theorem logs_of_same (hlog : s'.log = s.log) (hregs : s'.regs = s.regs) (hnext : s'.next = s.next) :
    Logs s s' where
  log := ⟨[], by rw [hlog, List.append_nil], by simp⟩
  aligned := fun _ haligned ↦ haligned.congr hregs hnext

theorem Moves.refl (s : DebugSession) : Moves s s where
  toLogs := logs_of_same rfl rfl rfl
  softBreakpoints := rfl
  attached := rfl
  text := rfl

theorem CodeBytes.moves (h : CodeBytes k original s) (hmoves : Moves s s') :
    CodeBytes k original s' :=
  h.congr hmoves.text hmoves.softBreakpoints

/-- A loop over threads or breakpoints. -/
theorem moves_foldl {α : Type} {f : DebugSession → α → DebugSession}
    (hf : ∀ s a, CodeBytes k original s → Moves s (f s a)) (l : List α)
    (h : CodeBytes k original s) : Moves s (l.foldl f s) := by
  induction l generalizing s with
  | nil => exact Moves.refl s
  | cons a rest ih =>
    have hfirst := hf s a h
    exact hfirst.trans (ih (h.moves hfirst))

/-! ### Requests -/

/-- Everything but the clock, the lists of threads, the stop context and the watchpoints stays. -/
theorem moves_of_same (hlog : s'.log = s.log) (hregs : s'.regs = s.regs) (hnext : s'.next = s.next)
    (hsoft : s'.softBreakpoints = s.softBreakpoints) (hattached : s'.attached = s.attached)
    (htext : s'.text = s.text) : Moves s s' where
  toLogs := logs_of_same hlog hregs hnext
  softBreakpoints := hsoft
  attached := hattached
  text := htext

theorem moves_request (k : Kernel) (s : DebugSession) : Moves s (request k s).1 :=
  moves_of_same rfl rfl rfl rfl rfl rfl

theorem runs_pokeByte (k : Kernel) (address : ℕ) (val : UInt8) (s : DebugSession) :
    Runs s (pokeByte k address val s).1 := by
  unfold pokeByte
  split_ifs
  · exact ⟨logs_of_same rfl rfl rfl, rfl, rfl⟩
  · exact (Moves.refl s).toRuns

theorem moves_captureRegs (tid : ℕ) (s : DebugSession) : Moves s (captureRegs tid s) := by
  unfold captureRegs
  cases s.regs tid with
  | none => exact Moves.refl s
  | some regs => exact moves_of_same rfl rfl rfl rfl rfl rfl

theorem moves_report (type : DebugEventType) (tid address signal : ℕ) (s : DebugSession) :
    Moves s (report type tid address signal s) where
  log := ⟨[_], rfl, by simp [Event.Inner]⟩
  aligned := fun _ haligned ↦ haligned.congr rfl rfl
  softBreakpoints := rfl
  attached := rfl
  text := rfl

/-- A thread goes on at its next instruction. -/
theorem moves_resume (tid signal : ℕ) (s : DebugSession) : Moves s (resume tid signal s) where
  log := ⟨[_], rfl, by simp [Event.Inner]⟩
  aligned := by
    intro _ haligned other
    obtain ⟨next, hnext, hregs⟩ := haligned other
    refine ⟨next, ?_, hregs⟩
    unfold resume
    dsimp only
    by_cases hother : other = tid
    · subst hother
      rw [Function.update_self, hnext]
      refine Option.filter_eq_some_iff.mpr ⟨rfl, ?_⟩
      cases hread : s.regs other with
      | none => rfl
      | some regs => simpa using hregs regs hread
    · rw [Function.update_of_ne hother]
      exact hnext
  softBreakpoints := rfl
  attached := rfl
  text := rfl

/-- A stop the session is right about leaves the thread at its next instruction, once it is set back
over the int3 the stop is taken for. -/
theorem Aligned.stop (h : s.Aligned) {found : Stop} (hright : (Event.stop found).TakenRightly)
    (hregs : s'.regs = Function.update s.regs found.tid (found.result.regs.map fun regs ↦
      { regs with rip := (found.takenForInt3 regs).getD regs.rip }))
    (hnext : s'.next = Function.update s.next found.tid
      ((s.next found.tid).map fun _ ↦ found.result.next)) : s'.Aligned := by
  refine h.update hregs hnext fun corrected hcorrected ↦ ?_
  obtain ⟨regs, hread, rfl⟩ := Option.map_eq_some_iff.mp hcorrected
  exact hright regs hread

/-- The stop that is logged for a thread. -/
def stopOf (site : WaitSite) (tid : ℕ) (result : WaitResult) (s : DebugSession) : Stop :=
  ⟨tid, site, result, s.armedAddresses, decide (s.hwBreakpoints ≠ []), s.exceptionBreakSignals⟩

/-- A stop the session waits for, with what is done about its int3. -/
theorem moves_stop {site : WaitSite} (hsite : site ≠ .poll) {tid : ℕ} {result : WaitResult}
    (hlog : s'.log = s.log ++ [.stop (stopOf site tid result s)])
    (hregs : s'.regs = Function.update s.regs tid (result.regs.map fun regs ↦
      { regs with rip := ((stopOf site tid result s).takenForInt3 regs).getD regs.rip }))
    (hnext : s'.next = Function.update s.next tid ((s.next tid).map fun _ ↦ result.next))
    (hsoft : s'.softBreakpoints = s.softBreakpoints) (hattached : s'.attached = s.attached)
    (htext : s'.text = s.text) : Moves s s' where
  log := ⟨[_], hlog, by simpa [Event.Inner, stopOf] using hsite⟩
  aligned := by
    intro hclean haligned
    refine @Aligned.stop s s' haligned (stopOf site tid result s) (hclean _ ?_) hregs hnext
    rw [hlog]
    exact List.mem_append_right _ (List.mem_singleton_self _)
  softBreakpoints := hsoft
  attached := hattached
  text := htext

/-- A stop at a site that takes none for an int3. -/
theorem moves_recordStop {site : WaitSite} (hplain : site.Plain) (tid : ℕ) (result : WaitResult)
    (s : DebugSession) : Moves s (recordStop site tid result s) := by
  refine moves_stop hplain.1 rfl ?_ rfl rfl rfl rfl
  have hnone : ∀ regs, (stopOf site tid result s).takenForInt3 regs = none :=
    Stop.takenForInt3_plain hplain
  simp only [hnone, Option.getD_none]
  exact congrArg (Function.update s.regs tid) Option.map_id'.symm

theorem moves_waitpid {site : WaitSite} (hplain : site.Plain) (tid : ℕ) (s : DebugSession) :
    Moves s (waitpid k site tid s).1 := by
  have htimed : Moves s { s with clock := s.clock + 1 } := moves_of_same rfl rfl rfl rfl rfl rfl
  unfold waitpid
  cases k.waits s.clock with
  | none => exact htimed
  | some result => exact htimed.trans (moves_recordStop hplain tid result _)

theorem plain_seize : WaitSite.seize.Plain := by simp [WaitSite.Plain]

theorem plain_singleStep : WaitSite.singleStep.Plain := by simp [WaitSite.Plain]

theorem plain_newThread : WaitSite.newThread.Plain := by simp [WaitSite.Plain]

theorem plain_cleanup : WaitSite.cleanup.Plain := by simp [WaitSite.Plain]

/-! ### Stopping threads -/

/-- Replacing `rip` in registers that were just saved. -/
theorem update_setRip {regs : ℕ → Option Regs} {tid rip : ℕ} {read : Regs} :
    Function.update (Function.update regs tid (some read)) tid
        ((Function.update regs tid (some read) tid).map fun r ↦ { r with rip := rip }) =
      Function.update regs tid (some { read with rip := rip }) := by
  rw [Function.update_idem, Function.update_self]
  rfl

/-- A stop, and the thread set back over the int3 the stop is taken for. -/
theorem moves_setBack {site : WaitSite} (hsite : site ≠ .poll) (tid : ℕ) (result : WaitResult)
    (tids : List ℕ) (s : DebugSession) :
    Moves s (match result.regs.bind (stopOf site tid result s).takenForInt3 with
      | some bpAddr => setRip tid bpAddr { recordStop site tid result s with stoppedTids := tids }
      | none => { recordStop site tid result s with stoppedTids := tids }) := by
  have hstay : (∀ regs, result.regs = some regs →
      (stopOf site tid result s).takenForInt3 regs = none) →
      Moves s { recordStop site tid result s with stoppedTids := tids } := by
    intro hnone
    refine moves_stop hsite rfl ?_ rfl rfl rfl rfl
    have hsame : result.regs.map (fun regs ↦
        { regs with rip := ((stopOf site tid result s).takenForInt3 regs).getD regs.rip }) =
        result.regs := by
      cases hregs : result.regs with
      | none => rfl
      | some regs => rw [Option.map_some, hnone regs hregs, Option.getD_none]
    exact congrArg (Function.update s.regs tid) hsame.symm
  cases hregs : result.regs with
  | none => exact hstay (by simp [hregs])
  | some regs =>
    rw [Option.bind_some]
    cases htaken : (stopOf site tid result s).takenForInt3 regs with
    | none =>
      refine hstay fun other hother ↦ ?_
      rw [hregs, Option.some.injEq] at hother
      rw [← hother, htaken]
    | some bpAddr =>
      refine moves_stop hsite rfl ?_ rfl rfl rfl rfl
      have hsaved : (recordStop site tid result s).regs = Function.update s.regs tid (some regs) :=
        congrArg (Function.update s.regs tid) hregs
      rw [hregs, Option.map_some, htaken, Option.getD_some]
      unfold setRip
      dsimp only
      rw [hsaved, update_setRip]

/-- A thread that is stopped with the others is set back over an int3 of the session. -/
theorem moves_backUpOverInt3 (tid : ℕ) (result : WaitResult) (tids : List ℕ) (s : DebugSession) :
    Moves s (backUpOverInt3 tid result.status
      { recordStop .stopOthers tid result s with stoppedTids := tids }) := by
  have hmoves := moves_setBack (by simp : WaitSite.stopOthers ≠ .poll) tid result tids s
  have hread : ({ recordStop .stopOthers tid result s with stoppedTids := tids } :
      DebugSession).regs tid = result.regs := Function.update_self _ _ _
  have harmed : ∀ address, (({ recordStop .stopOthers tid result s with stoppedTids := tids } :
      DebugSession).armedAt address).isSome ↔ address ∈ s.armedAddresses :=
    fun address ↦ mem_armedAddresses.symm
  unfold backUpOverInt3
  rw [hread]
  cases hregs : result.regs with
  | none =>
    rw [hregs] at hmoves
    split_ifs <;> exact hmoves
  | some regs =>
    rw [hregs, Option.bind_some] at hmoves
    have htaken : (stopOf .stopOthers tid result s).takenForInt3 regs =
        if result.status.stopSignal? = some sigtrap ∧
          addressBefore regs.rip ∈ s.armedAddresses then some (addressBefore regs.rip) else none :=
      rfl
    dsimp only
    split_ifs with htrap hhit
    · rwa [htaken, if_pos ⟨htrap, (harmed _).mp hhit⟩] at hmoves
    · rwa [htaken, if_neg fun h ↦ hhit ((harmed _).mpr h.2)] at hmoves
    · rwa [htaken, if_neg fun h ↦ htrap h.1] at hmoves

theorem moves_stopOtherThread (k : Kernel) (active : ℕ) (s : DebugSession) (tid : ℕ) :
    Moves s (stopOtherThread k active s tid) := by
  unfold stopOtherThread waitpid
  split_ifs
  · exact Moves.refl s
  · have hrequest := moves_request k s
    dsimp only
    split_ifs
    · exact hrequest
    · have htimed : Moves s { (request k s).1 with clock := (request k s).1.clock + 1 } :=
        hrequest.trans (moves_of_same rfl rfl rfl rfl rfl rfl)
      cases k.waits (request k s).1.clock with
      | none => exact htimed
      | some result => exact htimed.trans (moves_backUpOverInt3 tid result _ _)

theorem moves_stopOtherThreads (k : Kernel) (active : ℕ) (h : CodeBytes k original s) :
    Moves s (stopOtherThreads k active s) :=
  (moves_foldl (fun s tid _ ↦ moves_stopOtherThread k active s tid) s.traced h).trans
    (moves_of_same rfl rfl rfl rfl rfl rfl)

theorem moves_seizeThread (k : Kernel) (s : DebugSession) (tid : ℕ) :
    Moves s (seizeThread k s tid) := by
  have hseized := moves_request k s
  have hinterrupted := hseized.trans (moves_request k (request k s).1)
  have hwaited := hinterrupted.trans
    (moves_waitpid (k := k) plain_seize tid (request k (request k s).1).1)
  unfold seizeThread
  dsimp only
  split_ifs
  · exact hseized
  · exact hinterrupted
  · rcases hwait : waitpid k .seize tid (request k (request k s).1).1 with ⟨stopped, _ | result⟩
    · rw [hwait] at hwaited
      exact hwaited
    · rw [hwait] at hwaited
      exact hwaited.trans (moves_of_same rfl rfl rfl rfl rfl rfl)

theorem moves_seizeAllThreads (h : CodeBytes k original s) :
    Moves s (seizeAllThreads k s).1 := by
  have hcleared : Moves s { s with traced := [], stoppedTids := [] } :=
    moves_of_same rfl rfl rfl rfl rfl rfl
  exact hcleared.trans (moves_foldl (fun s tid _ ↦ moves_seizeThread k s tid) _
    (h.moves hcleared))

theorem moves_interruptThread (k : Kernel) (s : DebugSession) (tid : ℕ) :
    Moves s (interruptThread k s tid) := by
  unfold interruptThread
  split_ifs
  · exact Moves.refl s
  · dsimp only
    split_ifs
    · exact moves_request k s
    · exact (moves_request k s).trans (moves_waitpid plain_cleanup tid _)

/-! ### Lifted and temporary breakpoints -/

theorem moves_singleStep (k : Kernel) (tid : ℕ) (s : DebugSession) :
    Moves s (singleStep k tid s) :=
  (moves_resume tid 0 s).trans (moves_waitpid plain_singleStep tid _)

theorem runs_rearm (k : Kernel) (address : ℕ) (s : DebugSession) : Runs s (rearm k address s) := by
  unfold rearm
  split_ifs
  · exact runs_pokeByte k address 0xCC s
  · exact (Moves.refl s).toRuns

theorem text_pokeByte {address : ℕ} (hmapped : k.mapped address = true) (val : UInt8)
    (s : DebugSession) :
    (pokeByte k address val s).1.text = Function.update s.text address val := by
  rw [pokeByte, if_pos hmapped]

/-- A breakpoint is planted again where it was lifted. -/
theorem text_rearm (h : CodeBytes k original s) {address : ℕ} {bp : SoftBp} {byte : UInt8}
    (harmed : s.armedAt address = some bp) (hsoft : s'.softBreakpoints = s.softBreakpoints)
    (hlifted : s'.text = Function.update s.text address byte) :
    (rearm k address s').text = s.text := by
  obtain ⟨hmem, rfl, -⟩ := mem_of_armedAt harmed
  have hplanted : s.text bp.address = 0xCC := by rw [h.text, harmed]; rfl
  have hsome : (s'.armedAt bp.address).isSome := by
    rw [armedAt_congr hsoft, harmed]
    rfl
  rw [rearm, if_pos hsome, text_pokeByte (h.mapped bp hmem), hlifted, Function.update_idem,
    ← hplanted]
  exact Function.update_eq_self _ _

theorem moves_stepThreadOverBp (h : CodeBytes k original s) (tid : ℕ) :
    Moves s (stepThreadOverBp k tid s).1 := by
  unfold stepThreadOverBp
  cases s.regs tid with
  | none => exact Moves.refl s
  | some regs =>
    dsimp only
    cases harmed : s.armedAt regs.rip with
    | none => exact Moves.refl s
    | some bp =>
      dsimp only
      have hmapped := h.mapped bp (mem_of_armedAt harmed).1
      rw [(mem_of_armedAt harmed).2.1] at hmapped
      have hlifted := runs_pokeByte k regs.rip bp.originalByte s
      have hstepped := moves_singleStep k tid (pokeByte k regs.rip bp.originalByte s).1
      have hbefore := hlifted.trans hstepped.toRuns
      exact {
        toRuns := hbefore.trans (runs_rearm k regs.rip _)
        text := text_rearm h harmed hbefore.softBreakpoints
          (hstepped.text.trans (text_pokeByte hmapped _ s)) }

theorem moves_stepInstruction (h : CodeBytes k original s) (tid : ℕ) :
    Moves s (stepInstruction k tid s) := by
  have hover := moves_stepThreadOverBp h tid
  unfold stepInstruction
  rcases hstep : stepThreadOverBp k tid s with ⟨stepped, _ | _⟩
  · rw [hstep] at hover
    exact hover.trans (moves_singleStep k tid stepped)
  · rw [hstep] at hover
    exact hover

/-- The wait for a temporary breakpoint sets the thread back over it. -/
theorem moves_rewindOverBreakpoint (tid target : ℕ) (result : WaitResult) (s : DebugSession) :
    Moves s (rewindOverBreakpoint tid result.status target
      (recordStop (.runTo target) tid result s)) := by
  have hmoves := moves_setBack (by simp : WaitSite.runTo target ≠ .poll) tid result s.stoppedTids s
  have hread : (recordStop (.runTo target) tid result s).regs tid = result.regs :=
    Function.update_self _ _ _
  unfold rewindOverBreakpoint
  rw [hread]
  cases hregs : result.regs with
  | none =>
    rw [hregs] at hmoves
    split <;> first | exact hmoves | simp_all
  | some regs =>
    rw [hregs, Option.bind_some] at hmoves
    have htaken : (stopOf (.runTo target) tid result s).takenForInt3 regs =
        if result.status.stopSignal?.isSome ∧ regs.rip = (target + 1) % sizeModulus then
          some target else none := rfl
    cases hsignal : result.status.stopSignal? with
    | none =>
      rw [htaken, if_neg (by simp [hsignal])] at hmoves
      exact hmoves
    | some signal =>
      dsimp only
      split_ifs with hrip
      · rwa [htaken, if_pos ⟨by rw [hsignal]; rfl, hrip⟩] at hmoves
      · rwa [htaken, if_neg fun h ↦ hrip h.2] at hmoves

theorem moves_runToWait (k : Kernel) (tid target : ℕ) (s : DebugSession) :
    Moves s (rewindOverBreakpoint tid
      (((waitpid k (.runTo target) tid s).2.map WaitResult.status).getD .exited) target
      (waitpid k (.runTo target) tid s).1) := by
  have htimed : Moves s { s with clock := s.clock + 1 } := moves_of_same rfl rfl rfl rfl rfl rfl
  unfold waitpid
  cases k.waits s.clock with
  | none => exact htimed
  | some result => exact htimed.trans (moves_rewindOverBreakpoint tid target result _)

/-- A temporary breakpoint that is cleared leaves the text as it was. -/
theorem text_clearTemp (target : ℕ) (hkept : s'.text = (setTemp k target s).1.text) :
    (clearTemp k (setTemp k target s).2 s').text = s.text := by
  unfold setTemp pokeByte at *
  split_ifs at * with harmed hmapped
  · exact hkept
  · dsimp only at hkept ⊢
    unfold clearTemp
    rw [if_pos rfl, text_pokeByte hmapped, hkept, Function.update_idem]
    exact Function.update_eq_self _ _
  · exact hkept

theorem runs_setTemp (k : Kernel) (target : ℕ) (s : DebugSession) :
    Runs s (setTemp k target s).1 := by
  unfold setTemp
  split_ifs
  · exact (Moves.refl s).toRuns
  · have hpoke := runs_pokeByte k target 0xCC s
    rcases hpoked : pokeByte k target 0xCC s with ⟨poked, _ | orig⟩
    · rwa [hpoked] at hpoke
    · rwa [hpoked] at hpoke

theorem runs_clearTemp (k : Kernel) (t : Temp) (s : DebugSession) : Runs s (clearTemp k t s) := by
  unfold clearTemp
  split_ifs
  · exact runs_pokeByte k t.addr t.orig s
  · exact (Moves.refl s).toRuns

theorem runs_liftCurrentBp (k : Kernel) (rip : ℕ) (s : DebugSession) :
    Runs s (liftCurrentBp k rip s).1 := by
  unfold liftCurrentBp
  cases s.armedAt rip with
  | none => exact (Moves.refl s).toRuns
  | some bp => exact runs_pokeByte k rip bp.originalByte s

theorem moves_runTo (h : CodeBytes k original s) (tid rip target : ℕ) :
    Moves s (runTo k tid rip target s) := by
  set lifted := (liftCurrentBp k rip s).1 with hlifted
  set planted := (setTemp k target lifted).1 with hplanted
  have hlift : Runs s lifted := runs_liftCurrentBp k rip s
  have hwait := (moves_resume tid 0 planted).trans
    (moves_runToWait k tid target (resume tid 0 planted))
  set rewound := rewindOverBreakpoint tid
    (((waitpid k (.runTo target) tid (resume tid 0 planted)).2.map WaitResult.status).getD .exited)
    target (waitpid k (.runTo target) tid (resume tid 0 planted)).1 with hrewound
  set cleared := clearTemp k (setTemp k target lifted).2 rewound with hcleared
  have hruns : Runs s cleared := hlift.trans
    ((runs_setTemp k target lifted).trans (hwait.toRuns.trans (runs_clearTemp k _ rewound)))
  have htext : cleared.text = lifted.text := text_clearTemp target hwait.text
  have hresult : runTo k tid rip target s =
      if (liftCurrentBp k rip s).2 then rearm k rip cleared else cleared := rfl
  rw [hresult]
  cases harmed : s.armedAt rip with
  | none =>
    have hstays : liftCurrentBp k rip s = (s, false) := by rw [liftCurrentBp, harmed]
    rw [hstays, if_neg (by simp)]
    exact ⟨hruns, htext.trans (by rw [hlifted, hstays])⟩
  | some bp =>
    have hlifts : liftCurrentBp k rip s = ((pokeByte k rip bp.originalByte s).1, true) := by
      rw [liftCurrentBp, harmed]
    have hmapped := h.mapped bp (mem_of_armedAt harmed).1
    rw [(mem_of_armedAt harmed).2.1] at hmapped
    rw [hlifts, if_pos rfl]
    refine ⟨hruns.trans (runs_rearm k rip cleared), ?_⟩
    apply text_rearm h harmed hruns.softBreakpoints
    rw [htext, hlifted, hlifts]
    exact text_pokeByte hmapped _ s

theorem moves_stepThread (h : CodeBytes k original s) (mode : StepMode)
    (targetAddress tid : ℕ) : Moves s (stepThread k mode targetAddress tid s) := by
  unfold stepThread
  cases mode with
  | into => exact moves_stepInstruction h tid
  | «over» =>
    dsimp only
    cases k.callSize ((s.regs tid).getD ⟨0, 0⟩).rip
        (codeBytes k ((s.regs tid).getD ⟨0, 0⟩).rip s) with
    | none => exact moves_stepInstruction h tid
    | some size => exact moves_runTo h tid _ _
  | out =>
    dsimp only
    split_ifs
    · exact moves_runTo h tid _ _
    · exact Moves.refl s
  | runToCursor =>
    dsimp only
    split_ifs
    · exact moves_runTo h tid _ _
    · exact Moves.refl s

theorem moves_doStep (h : CodeBytes k original s) (mode : StepMode) (targetAddress : ℕ) :
    Moves s (doStep k mode targetAddress s) := by
  unfold doStep
  by_cases hrunning : (!s.stopped) = true
  · rw [if_pos hrunning]
    exact Moves.refl s
  · rw [if_neg hrunning]
    set tid := if s.activeTid ≠ 0 then s.activeTid else s.pid
    have hstepped := moves_stepThread h mode targetAddress tid
    have hstopped : Moves s { stepThread k mode targetAddress tid s with stopped := true } :=
      hstepped.trans (moves_of_same rfl rfl rfl rfl rfl rfl)
    exact (hstopped.trans (moves_captureRegs tid _)).trans (moves_report ..)

/-! ### Resuming -/

theorem moves_resumeAllThreads (h : CodeBytes k original s) :
    Moves s (resumeAllThreads k s) := by
  unfold resumeAllThreads
  set stepped := s.traced.foldl (fun s tid ↦ (stepThreadOverBp k tid s).1) s
  have hstepped : Moves s stepped :=
    moves_foldl (fun s tid hs ↦ moves_stepThreadOverBp hs tid) s.traced h
  have hresumed := hstepped.trans
    (moves_foldl (fun s tid _ ↦ moves_resume tid 0 s) stepped.traced (h.moves hstepped))
  exact hresumed.trans (moves_of_same rfl rfl rfl rfl rfl rfl)

theorem moves_doContinue (h : CodeBytes k original s) : Moves s (doContinue k s) := by
  unfold doContinue
  split_ifs
  · exact Moves.refl s
  · exact (moves_resumeAllThreads h).trans (moves_of_same rfl rfl rfl rfl rfl rfl)

/-! ### Registers and watchpoints -/

theorem moves_doSetRegs (regs : Regs) (s : DebugSession) : Moves s (doSetRegs regs s).1 := by
  unfold doSetRegs
  split_ifs
  · exact Moves.refl s
  · cases s.regs s.activeTid with
    | none => exact Moves.refl s
    | some _ =>
      refine Moves.trans ?_ (moves_captureRegs _ _)
      exact {
        log := ⟨[], (List.append_nil _).symm, by simp⟩
        aligned := fun _ haligned ↦ haligned.update rfl rfl fun r hr ↦ by
          rw [← Option.some.inj hr]
        softBreakpoints := rfl
        attached := rfl
        text := rfl }

theorem moves_doSelectThread (tid : ℕ) (s : DebugSession) :
    Moves s (doSelectThread tid s).1 := by
  have hactive : Moves s { s with activeTid := tid } := moves_of_same rfl rfl rfl rfl rfl rfl
  unfold doSelectThread
  by_cases hrunning : tid ∉ s.stoppedTids
  · rw [if_pos hrunning]
    exact Moves.refl s
  · rw [if_neg hrunning]
    exact hactive.trans (moves_captureRegs tid _)

theorem moves_armHwBp (k : Kernel) (reg : ℕ) (watch : Watch) (s : DebugSession) (tid : ℕ) :
    Moves s (armHwBp k reg watch s tid) := by
  unfold armHwBp
  dsimp only
  split_ifs <;> exact moves_of_same rfl rfl rfl rfl rfl rfl

theorem moves_disarmHwBpReg (k : Kernel) (reg : ℕ) (s : DebugSession) (tid : ℕ) :
    Moves s (disarmHwBpReg k reg s tid) := by
  unfold disarmHwBpReg
  dsimp only
  split_ifs <;> exact moves_of_same rfl rfl rfl rfl rfl rfl

theorem moves_doSetHwBp (h : CodeBytes k original s) (address type size : ℕ) :
    Moves s (doSetHwBp k address type size s).1 := by
  unfold doSetHwBp
  cases (List.range 4).find? fun reg ↦ decide (reg ∉ s.hwBreakpoints.map HwBp.reg) with
  | none => exact Moves.refl s
  | some reg =>
    exact (moves_foldl (fun s tid _ ↦ moves_armHwBp k reg _ s tid) s.traced h).trans
      (moves_of_same rfl rfl rfl rfl rfl rfl)

theorem moves_doRemoveHwBp (h : CodeBytes k original s) (id : ℕ) :
    Moves s (doRemoveHwBp k id s) := by
  unfold doRemoveHwBp
  cases s.hwBreakpoints.find? fun bp ↦ decide (bp.id = id) with
  | none => exact Moves.refl s
  | some bp =>
    exact (moves_foldl (fun s tid _ ↦ moves_disarmHwBpReg k bp.reg s tid) s.traced h).trans
      (moves_of_same rfl rfl rfl rfl rfl rfl)

theorem moves_disarmAllHwBreakpoints (h : CodeBytes k original s) :
    Moves s (disarmAllHwBreakpoints k s) := by
  refine (moves_foldl (fun s bp hs ↦ ?_) s.hwBreakpoints h).trans
    (moves_of_same rfl rfl rfl rfl rfl rfl)
  exact moves_foldl (fun s tid _ ↦ moves_disarmHwBpReg k bp.reg s tid) s.traced hs

/-! ### Stops -/

theorem moves_breakAt (h : CodeBytes k original s) (type : DebugEventType) (w address signal : ℕ) :
    Moves s (breakAt k type w address signal s) := by
  have hactive : Moves s
      { s with activeTid := w, stoppedTids := insertTid w s.stoppedTids } :=
    moves_of_same rfl rfl rfl rfl rfl rfl
  have hfrozen := hactive.trans (moves_stopOtherThreads k w (h.moves hactive))
  unfold breakAt
  set frozen := stopOtherThreads k w { s with activeTid := w, stoppedTids := insertTid w s.stoppedTids }
  have hstopped : Moves s { frozen with stopped := true } :=
    hfrozen.trans (moves_of_same rfl rfl rfl rfl rfl rfl)
  exact (hstopped.trans (moves_captureRegs w _)).trans (moves_report ..)

theorem moves_handleClone (k : Kernel) (w : ℕ) (s : DebugSession) :
    Moves s (handleClone k w s) := by
  have htimed : Moves s { s with clock := s.clock + 1 } := moves_of_same rfl rfl rfl rfl rfl rfl
  unfold handleClone
  set newTid := k.eventMessage s.clock
  dsimp only
  split_ifs
  · exact htimed.trans (moves_resume w 0 _)
  · set waited := (waitpid k .newThread newTid { s with clock := s.clock + 1 }).1
    have hwaited : Moves s waited := htimed.trans (moves_waitpid plain_newThread newTid _)
    have hkept : Moves s { waited with
        traced := insertTid newTid waited.traced
        debugRegs := Function.update waited.debugRegs newTid fun _ ↦ none } :=
      hwaited.trans (moves_of_same rfl rfl rfl rfl rfl rfl)
    exact (hkept.trans (moves_resume newTid 0 _)).trans (moves_resume w 0 _)

end DebugSession

end Cecore.Debug
