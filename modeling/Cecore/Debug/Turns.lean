import Cecore.Debug.Moves

/-!
# One turn of the tracer thread

What an input does to the log, to the threads and to the bytes of the code. A polled stop comes in
two parts: the stop itself with the thread set back over an int3 (`polled`), and what the session
does then.
-/

set_option autoImplicit false
set_option relaxedAutoImplicit false

namespace Cecore.Debug.DebugSession

variable {k : Kernel} {original : ℕ → UInt8} {s s' : DebugSession}

/-! ### Changing the set of breakpoints -/

theorem logs_doSetSoftBp (k : Kernel) (address : ℕ) (s : DebugSession) :
    Logs s (doSetSoftBp k address s).1 ∧ (doSetSoftBp k address s).1.attached = s.attached := by
  unfold doSetSoftBp
  cases s.softBreakpoints.find? fun bp ↦ decide (bp.address = address) with
  | some bp => exact ⟨logs_of_same rfl rfl rfl, rfl⟩
  | none =>
    have hpoke := runs_pokeByte k address 0xCC s
    dsimp only
    rcases hpoked : pokeByte k address 0xCC s with ⟨poked, _ | origByte⟩
    · rw [hpoked] at hpoke
      exact ⟨hpoke.toLogs, hpoke.attached⟩
    · rw [hpoked] at hpoke
      exact ⟨hpoke.toLogs.trans (logs_of_same rfl rfl rfl), hpoke.attached⟩

/-- A new breakpoint keeps the byte of the original text. -/
theorem CodeBytes.doSetSoftBp (h : CodeBytes k original s) (address : ℕ) :
    CodeBytes k original (doSetSoftBp k address s).1 := by
  unfold DebugSession.doSetSoftBp
  cases hfind : s.softBreakpoints.find? fun bp ↦ decide (bp.address = address) with
  | some bp => exact h
  | none =>
    have hfree : ∀ bp ∈ s.softBreakpoints, bp.address ≠ address := by
      simpa using List.find?_eq_none.mp hfind
    dsimp only
    by_cases hmapped : k.mapped address
    · rw [pokeByte, if_pos hmapped]
      dsimp only
      have hcases : ∀ {P : SoftBp → Prop}, (∀ bp ∈ s.softBreakpoints, P bp) →
          P ⟨s.nextSoftBpId, address, s.text address, true⟩ →
          ∀ bp ∈ s.softBreakpoints ++ [⟨s.nextSoftBpId, address, s.text address, true⟩], P bp := by
        intro P hold hnew bp hbp
        rcases List.mem_append.mp hbp with hbp | hbp
        · exact hold bp hbp
        · rw [List.mem_singleton.mp hbp]
          exact hnew
      apply CodeBytes.of_bytes
      · refine hcases (fun bp hbp ↦ ?_) (Function.update_self _ _ _)
        dsimp only
        rw [Function.update_of_ne (hfree bp hbp)]
        exact h.planted hbp
      · intro other hother
        have hne : address ≠ other := hother _ (List.mem_append_right _ List.mem_cons_self)
        dsimp only
        rw [Function.update_of_ne hne.symm]
        exact h.untouched fun bp hbp ↦ hother bp (List.mem_append_left _ hbp)
      · exact hcases h.stored (h.untouched hfree)
      · exact hcases h.active rfl
      · exact hcases h.mapped hmapped
      · rw [List.map_append, List.map_singleton, List.nodup_append]
        refine ⟨h.nodup, List.nodup_singleton _, ?_⟩
        intro first hfirst second hsecond
        obtain ⟨bp, hbp, rfl⟩ := List.mem_map.mp hfirst
        rw [List.mem_singleton.mp hsecond]
        exact hfree bp hbp
    · rw [pokeByte, if_neg hmapped]
      exact h

theorem runs_restoreByte (k : Kernel) (s : DebugSession) (bp : SoftBp) :
    Runs s (restoreByte k s bp) := by
  unfold restoreByte
  split_ifs
  · exact runs_pokeByte k bp.address bp.originalByte s
  · exact (Moves.refl s).toRuns

theorem doRemoveSoftBp_eq (id : ℕ) (s : DebugSession) : doRemoveSoftBp k id s =
    match s.softBreakpoints.find? fun bp ↦ decide (bp.id = id) with
    | none => s
    | some bp => { restoreByte k s bp with
        softBreakpoints := (restoreByte k s bp).softBreakpoints.erase bp } := rfl

theorem logs_doRemoveSoftBp (k : Kernel) (id : ℕ) (s : DebugSession) :
    Logs s (doRemoveSoftBp k id s) ∧ (doRemoveSoftBp k id s).attached = s.attached := by
  rw [doRemoveSoftBp_eq]
  cases s.softBreakpoints.find? fun bp ↦ decide (bp.id = id) with
  | none => exact ⟨logs_of_same rfl rfl rfl, rfl⟩
  | some bp =>
    have hrestored := runs_restoreByte k s bp
    exact ⟨hrestored.toLogs.trans (logs_of_same rfl rfl rfl), hrestored.attached⟩

/-- A removed breakpoint gives the original byte back. -/
theorem CodeBytes.doRemoveSoftBp (h : CodeBytes k original s) (id : ℕ) :
    CodeBytes k original (doRemoveSoftBp k id s) := by
  rw [doRemoveSoftBp_eq]
  cases hfind : s.softBreakpoints.find? fun bp ↦ decide (bp.id = id) with
  | none => exact h
  | some bp =>
    have hmem := List.mem_of_find?_eq_some hfind
    have hsub : ∀ other ∈ s.softBreakpoints.erase bp, other ∈ s.softBreakpoints :=
      fun other hother ↦ List.mem_of_mem_erase hother
    have htext : (restoreByte k s bp).text =
        Function.update s.text bp.address (original bp.address) := by
      rw [restoreByte, if_pos (h.active bp hmem), text_pokeByte (h.mapped bp hmem),
        h.stored bp hmem]
    have hnodup : ((s.softBreakpoints.erase bp).map SoftBp.address).Nodup :=
      h.nodup.sublist (List.erase_sublist.map SoftBp.address)
    dsimp only
    rw [(runs_restoreByte k s bp).softBreakpoints]
    have hgone : ∀ other ∈ s.softBreakpoints.erase bp, other.address ≠ bp.address := by
      intro other hother haddress
      have hsame := List.inj_on_of_nodup_map h.nodup (hsub other hother) hmem haddress
      subst hsame
      exact (h.nodup.of_map SoftBp.address).not_mem_erase hother
    apply CodeBytes.of_bytes
    · intro other hother
      dsimp only
      rw [htext, Function.update_of_ne (hgone other hother)]
      exact h.planted (hsub other hother)
    · intro address hfree
      dsimp only
      rw [htext]
      by_cases haddress : address = bp.address
      · rw [haddress, Function.update_self]
      · rw [Function.update_of_ne haddress]
        refine h.untouched fun other hother ↦ ?_
        by_cases hother' : other = bp
        · rw [hother']
          exact Ne.symm haddress
        · exact hfree other ((List.mem_erase_of_ne hother').mpr hother)
    · exact fun other hother ↦ h.stored other (hsub other hother)
    · exact fun other hother ↦ h.active other (hsub other hother)
    · exact fun other hother ↦ h.mapped other (hsub other hother)
    · exact hnodup

/-! ### Cleanup -/

theorem runs_foldl_restoreByte (k : Kernel) (l : List SoftBp) (s : DebugSession) :
    Runs s (l.foldl (restoreByte k) s) := by
  induction l generalizing s with
  | nil => exact (Moves.refl s).toRuns
  | cons bp rest ih => exact (runs_restoreByte k s bp).trans (ih _)

theorem text_restoreByte (h : CodeBytes k original s) {bp : SoftBp} (hbp : bp ∈ s.softBreakpoints)
    (s' : DebugSession) :
    (restoreByte k s' bp).text = Function.update s'.text bp.address (original bp.address) := by
  rw [restoreByte, if_pos (h.active bp hbp), text_pokeByte (h.mapped bp hbp), h.stored bp hbp]

/-- The loop over the breakpoints leaves original bytes alone and restores its own. -/
theorem text_foldl_restoreByte (h : CodeBytes k original s) {l : List SoftBp}
    (hl : ∀ bp ∈ l, bp ∈ s.softBreakpoints) (s' : DebugSession) (address : ℕ)
    (horiginal : s'.text address = original address ∨ ∃ bp ∈ l, bp.address = address) :
    (l.foldl (restoreByte k) s').text address = original address := by
  induction l generalizing s' with
  | nil => simpa using horiginal
  | cons bp rest ih =>
    rw [List.foldl_cons]
    refine ih (fun other hother ↦ hl other (List.mem_cons_of_mem _ hother)) _ ?_
    rw [text_restoreByte h (hl bp List.mem_cons_self)]
    by_cases haddress : address = bp.address
    · left
      rw [haddress, Function.update_self]
    · rw [Function.update_of_ne haddress]
      refine horiginal.imp_right ?_
      rintro ⟨other, hother, rfl⟩
      rcases List.mem_cons.mp hother with rfl | hother
      · exact absurd rfl haddress
      · exact ⟨other, hother, rfl⟩

/-- The cleanup gives every original byte back and forgets the breakpoints. -/
theorem tracerCleanup_spec (h : CodeBytes k original s) :
    Logs s (tracerCleanup k s) ∧ CodeBytes k original (tracerCleanup k s) ∧
      (tracerCleanup k s).softBreakpoints = [] := by
  unfold tracerCleanup
  set frozen := s.traced.foldl (interruptThread k) s
  have hfrozen : Moves s frozen := moves_foldl (fun s tid _ ↦ moves_interruptThread k s tid) _ h
  set bytes := frozen.softBreakpoints.foldl (restoreByte k) frozen with hbytes
  have hruns : Runs frozen bytes := runs_foldl_restoreByte k _ frozen
  have htext : bytes.text = original := by
    funext address
    refine text_foldl_restoreByte (h.moves hfrozen) (fun bp hbp ↦ hbp) frozen address ?_
    by_cases hsome : ∃ bp ∈ frozen.softBreakpoints, bp.address = address
    · exact Or.inr hsome
    · exact Or.inl ((h.moves hfrozen).untouched fun bp hbp haddress ↦ hsome ⟨bp, hbp, haddress⟩)
  set restored : DebugSession := { bytes with softBreakpoints := [] }
  have hclean : CodeBytes k original restored := by
    apply CodeBytes.of_bytes
    · simp [restored]
    · exact fun address _ ↦ congrFun htext address
    all_goals simp [restored]
  have hrestored : Logs s restored := hfrozen.toLogs.trans
    (hruns.toLogs.trans (logs_of_same rfl rfl rfl))
  have hdisarmed := moves_disarmAllHwBreakpoints hclean
  dsimp only
  set disarmed := disarmAllHwBreakpoints k restored
  have hdetached := hdisarmed.trans
    (moves_foldl (fun s tid _ ↦ moves_resume tid 0 s) disarmed.traced (hclean.moves hdisarmed))
  set detached := disarmed.traced.foldl (fun s tid ↦ resume tid 0 s) disarmed
  have hclosed : Moves restored
      { detached with traced := [], stoppedTids := [], stopped := false } :=
    hdetached.trans (moves_of_same rfl rfl rfl rfl rfl rfl)
  exact ⟨hrestored.trans hclosed.toLogs, hclean.moves hclosed, hclosed.softBreakpoints⟩

theorem closeDetached_spec (h : CodeBytes k original s) :
    Logs s (closeDetached k s) ∧ CodeBytes k original (closeDetached k s) ∧
      ((closeDetached k s).attached = false → (closeDetached k s).softBreakpoints = []) := by
  obtain ⟨hlogs, hbytes, hnone⟩ := tracerCleanup_spec h
  unfold closeDetached
  split_ifs with hattached
  · exact ⟨logs_of_same rfl rfl rfl, h, fun hdetached ↦ by rw [hattached] at hdetached; cases hdetached⟩
  · exact ⟨hlogs, hbytes, fun _ ↦ hnone⟩

/-! ### Commands -/

/-- A command keeps the session attached. -/
theorem performCommand_spec (h : CodeBytes k original s) (cmd : Command) :
    Logs s (performCommand k cmd s).1 ∧ (performCommand k cmd s).1.attached = s.attached ∧
      CodeBytes k original (performCommand k cmd s).1 := by
  have hmoves : ∀ {s'}, Moves s s' → Logs s s' ∧ s'.attached = s.attached ∧
      CodeBytes k original s' := fun hmove ↦ ⟨hmove.toLogs, hmove.attached, h.moves hmove⟩
  cases cmd with
  | «continue» => exact hmoves (moves_doContinue h)
  | step mode addr => exact hmoves (moves_doStep h mode addr)
  | setSoftBp addr =>
    obtain ⟨hlogs, hattached⟩ := logs_doSetSoftBp k addr s
    exact ⟨hlogs, hattached, h.doSetSoftBp addr⟩
  | removeSoftBp id =>
    obtain ⟨hlogs, hattached⟩ := logs_doRemoveSoftBp k id s
    exact ⟨hlogs, hattached, h.doRemoveSoftBp id⟩
  | setRegs regs => exact hmoves (moves_doSetRegs regs s)
  | selectThread tid => exact hmoves (moves_doSelectThread tid s)
  | setHwBp addr type size => exact hmoves (moves_doSetHwBp h addr type size)
  | removeHwBp id => exact hmoves (moves_doRemoveHwBp h id)

/-! ### Polled stops -/

/-- A polled stop with the thread set back over the int3 it is taken for. -/
def polled (w : ℕ) (result : WaitResult) (s : DebugSession) : DebugSession :=
  match result.regs.bind (stopOf .poll w result s).takenForInt3 with
  | some bpAddr => setRip w bpAddr (recordStop .poll w result s)
  | none => recordStop .poll w result s

theorem polled_code (w : ℕ) (result : WaitResult) (s : DebugSession) :
    (polled w result s).log = s.log ++ [.stop (stopOf .poll w result s)] ∧
      (polled w result s).softBreakpoints = s.softBreakpoints ∧
      (polled w result s).text = s.text := by
  unfold polled
  cases result.regs.bind (stopOf .poll w result s).takenForInt3 <;> exact ⟨rfl, rfl, rfl⟩

/-- Setting the thread back makes up for its stop, when the stop is not mistaken. -/
theorem aligned_polled {w : ℕ} {result : WaitResult} (h : s.Aligned)
    (hright : (Event.stop (stopOf .poll w result s)).TakenRightly) :
    (polled w result s).Aligned := by
  unfold polled
  cases hregs : result.regs with
  | none =>
    refine @Aligned.update s _ h w result.next none ?_ rfl (by simp)
    exact congrArg (Function.update s.regs w) hregs
  | some regs =>
    have hsaved : (recordStop .poll w result s).regs = Function.update s.regs w (some regs) :=
      congrArg (Function.update s.regs w) hregs
    have hnext := hright regs hregs
    rw [Option.bind_some]
    cases htaken : (stopOf .poll w result s).takenForInt3 regs with
    | none =>
      rw [htaken] at hnext
      refine h.update hsaved rfl ?_
      simpa [stopOf] using hnext
    | some bpAddr =>
      rw [htaken] at hnext
      have hset : (setRip w bpAddr (recordStop .poll w result s)).regs =
          Function.update s.regs w (some { regs with rip := bpAddr }) := by
        unfold setRip
        dsimp only
        rw [hsaved, update_setRip]
      refine h.update hset rfl ?_
      simpa [stopOf] using hnext

theorem logs_handleExit (w : ℕ) (s : DebugSession) :
    Logs s (handleExit w s) ∧ (handleExit w s).text = s.text ∧
      (handleExit w s).softBreakpoints = s.softBreakpoints := by
  have hgone : Moves s { s with traced := s.traced.erase w, stoppedTids := s.stoppedTids.erase w } :=
    moves_of_same rfl rfl rfl rfl rfl rfl
  unfold handleExit
  dsimp only
  split_ifs
  · have hreported := hgone.trans (moves_report .processExited w 0 0 _)
    exact ⟨hreported.toLogs.trans (logs_of_same rfl rfl rfl), hreported.text,
      hreported.softBreakpoints⟩
  · exact ⟨hgone.toLogs, hgone.text, hgone.softBreakpoints⟩

/-- What the session does after a polled stop. -/
theorem handleTrap_spec (h : CodeBytes k original s) (w : ℕ) {result : WaitResult} {event : ℕ}
    (hstatus : result.status = .stopped sigtrap event) (hevent : event ≠ ptraceEventClone) :
    Moves (polled w result s) (handleTrap k w (recordStop .poll w result s)) := by
  have hread : (recordStop .poll w result s).regs w = result.regs := Function.update_self _ _ _
  have hhardware : (recordStop .poll w result s).hardware w = result.hardware :=
    Function.update_self _ _ _
  have hrecorded : CodeBytes k original (recordStop .poll w result s) := h.congr rfl rfl
  have harmed : ∀ address, ((recordStop .poll w result s).armedAt address).isSome ↔
      address ∈ s.armedAddresses := fun address ↦ mem_armedAddresses.symm
  unfold handleTrap polled
  rw [hread, hhardware]
  cases hregs : result.regs with
  | none => exact moves_resume w 0 _
  | some regs =>
    rw [Option.bind_some]
    have htaken : (stopOf .poll w result s).takenForInt3 regs =
        if (result.status.stopSignal? = some sigtrap ∧
          addressBefore regs.rip ∈ s.armedAddresses) ∧
          isEventStop result.status ptraceEventClone = false ∧
          ¬(decide (s.hwBreakpoints ≠ []) = true ∧ result.hardware.isSome) then
          some (addressBefore regs.rip) else none := rfl
    have hsignal : result.status.stopSignal? = some sigtrap := by rw [hstatus]; rfl
    have hclone : isEventStop result.status ptraceEventClone = false := by
      simp [isEventStop, hstatus, hevent]
    simp only [hsignal, hclone, true_and, decide_eq_true_eq] at htaken
    have hset : CodeBytes k original
        (setRip w (addressBefore regs.rip) (recordStop .poll w result s)) := h.congr rfl rfl
    have hwatching : (recordStop .poll w result s).hwBreakpoints = s.hwBreakpoints := rfl
    rw [hwatching, htaken]
    dsimp only
    by_cases hnone : s.hwBreakpoints = []
    · rw [if_pos hnone]
      dsimp only
      by_cases hhit : addressBefore regs.rip ∈ s.armedAddresses
      · rw [if_pos ((harmed _).mpr hhit), if_pos ⟨hhit, fun h ↦ h.1 hnone⟩]
        exact moves_breakAt hset _ _ _ _
      · rw [if_neg fun h ↦ hhit ((harmed _).mp h), if_neg fun h ↦ hhit h.1]
        exact moves_resume w 0 _
    · rw [if_neg hnone]
      cases hhw : result.hardware with
      | some dr6 =>
        rw [if_neg fun h ↦ h.2 ⟨hnone, rfl⟩]
        exact moves_breakAt hrecorded _ _ _ _
      | none =>
        dsimp only
        by_cases hhit : addressBefore regs.rip ∈ s.armedAddresses
        · rw [if_pos ((harmed _).mpr hhit), if_pos ⟨hhit, by simp⟩]
          exact moves_breakAt hset _ _ _ _
        · rw [if_neg fun h ↦ hhit ((harmed _).mp h), if_neg fun h ↦ hhit h.1]
          exact moves_resume w 0 _

/-- Only a SIGTRAP that is no clone event is taken for an int3 when it is polled. -/
theorem polled_eq_recordStop {w : ℕ} {result : WaitResult}
    (hother : result.status.stopSignal? ≠ some sigtrap ∨
      isEventStop result.status ptraceEventClone = true) :
    polled w result s = recordStop .poll w result s := by
  have hnone : ∀ regs, (stopOf .poll w result s).takenForInt3 regs = none := by
    intro regs
    have htaken : (stopOf .poll w result s).takenForInt3 regs =
        if (result.status.stopSignal? = some sigtrap ∧
          addressBefore regs.rip ∈ s.armedAddresses) ∧
          isEventStop result.status ptraceEventClone = false ∧
          ¬(decide (s.hwBreakpoints ≠ []) = true ∧ result.hardware.isSome) then
          some (addressBefore regs.rip) else none := rfl
    rw [htaken, if_neg]
    rintro ⟨⟨htrap, -⟩, hclone, -⟩
    rcases hother with hsignal | hevent
    · exact hsignal htrap
    · rw [hevent] at hclone
      cases hclone
  unfold polled
  cases result.regs with
  | none => rfl
  | some regs =>
    rw [Option.bind_some, hnone]

/-- What the session does after a polled stop leaves the code as it should be. -/
theorem handleStop_spec (h : CodeBytes k original s) (w : ℕ) (result : WaitResult) :
    Logs (polled w result s) (handleStop k w result.status (recordStop .poll w result s)) ∧
      CodeBytes k original (handleStop k w result.status (recordStop .poll w result s)) := by
  obtain ⟨-, hsoft, htext⟩ := polled_code w result s
  have hpolled : CodeBytes k original (polled w result s) := h.congr htext hsoft
  have hrecorded : CodeBytes k original (recordStop .poll w result s) := h.congr rfl rfl
  have hmoves : ∀ {s'}, Moves (polled w result s) s' →
      Logs (polled w result s) s' ∧ CodeBytes k original s' :=
    fun hmove ↦ ⟨hmove.toLogs, hpolled.moves hmove⟩
  have hexit : Logs (recordStop .poll w result s) (handleExit w (recordStop .poll w result s)) ∧
      CodeBytes k original (handleExit w (recordStop .poll w result s)) := by
    obtain ⟨hlogs, htext, hsoft⟩ := logs_handleExit w (recordStop .poll w result s)
    exact ⟨hlogs, hrecorded.congr htext hsoft⟩
  have hstays : result.status.stopSignal? ≠ some sigtrap →
      polled w result s = recordStop .poll w result s := fun hsignal ↦
    polled_eq_recordStop (Or.inl hsignal)
  cases hstatus : result.status with
  | exited =>
    rw [hstays (by rw [hstatus]; simp [WaitStatus.stopSignal?])]
    exact hexit
  | signaled =>
    rw [hstays (by rw [hstatus]; simp [WaitStatus.stopSignal?])]
    exact hexit
  | continued =>
    rw [hstays (by rw [hstatus]; simp [WaitStatus.stopSignal?])]
    exact ⟨logs_of_same rfl rfl rfl, hrecorded⟩
  | stopped signal event =>
    unfold handleStop
    dsimp only
    by_cases hclone : isEventStop (.stopped signal event) ptraceEventClone = true
    · have hsame := @polled_eq_recordStop s w result (Or.inr (hstatus ▸ hclone))
      rw [if_pos hclone]
      exact hmoves (hsame ▸ moves_handleClone k w (recordStop .poll w result s))
    · rw [if_neg hclone]
      by_cases htrap : signal = sigtrap
      · rw [if_pos htrap]
        subst htrap
        refine hmoves (handleTrap_spec h w hstatus ?_)
        rintro rfl
        exact hclone (by simp [isEventStop])
      · have hsame := hstays (by rw [hstatus]; simpa [WaitStatus.stopSignal?] using htrap)
        rw [if_neg htrap]
        split_ifs
        · exact hmoves (hsame ▸ moves_breakAt hrecorded _ _ _ _)
        · exact hmoves (hsame ▸ moves_resume w signal (recordStop .poll w result s))

/-! ### A turn -/

/-- The session sees the original text through its breakpoints, and has none when it is not
attached. -/
structure Intact (k : Kernel) (original : ℕ → UInt8) (s : DebugSession) : Prop
    extends CodeBytes k original s where
  detached : s.attached = false → s.softBreakpoints = []

theorem intact_attach (h : Intact k original s) (hattached : s.attached = false) (pid : ℕ) :
    Logs s (attach k pid s) ∧ Intact k original (attach k pid s) := by
  have hnamed : Moves s { s with pid := pid } := moves_of_same rfl rfl rfl rfl rfl rfl
  have hseized := hnamed.trans (moves_seizeAllThreads (h.toCodeBytes.moves hnamed))
  unfold attach
  set seized := (seizeAllThreads k { s with pid := pid }).1
  dsimp only
  split_ifs
  · set attachedSession : DebugSession :=
      { seized with attached := true, stopped := true, activeTid := pid }
    have hcapture := moves_captureRegs pid attachedSession
    have hbytes : CodeBytes k original attachedSession :=
      (h.toCodeBytes.moves hseized).congr rfl rfl
    refine ⟨?_, hbytes.moves hcapture, ?_⟩
    · have hstarted : Logs seized attachedSession := logs_of_same rfl rfl rfl
      exact (hseized.toLogs.trans hstarted).trans hcapture.toLogs
    · intro hdetached
      rw [hcapture.attached] at hdetached
      cases hdetached
  · refine ⟨hseized.toLogs, h.toCodeBytes.moves hseized, fun _ ↦ ?_⟩
    exact hseized.softBreakpoints.trans (h.detached hattached)

/-- Every input but a polled stop. -/
theorem logs_step (h : Intact k original s) {input : Input}
    (hinput : ∀ w result, input ≠ .poll w result) :
    Logs s (step k s input) ∧ Intact k original (step k s input) := by
  have hsame : Logs s s ∧ Intact k original s := ⟨logs_of_same rfl rfl rfl, h⟩
  have hclose : ∀ {s'}, Logs s s' → CodeBytes k original s' →
      Logs s (closeDetached k s') ∧ Intact k original (closeDetached k s') := by
    intro s' hlogs hbytes
    obtain ⟨hclosed, hcode, hnone⟩ := closeDetached_spec hbytes
    exact ⟨hlogs.trans hclosed, hcode, hnone⟩
  unfold step
  cases input with
  | attach pid =>
    dsimp only
    split_ifs with hattached
    · exact hsame
    · exact intact_attach h (by simpa using hattached) pid
  | command cmd =>
    dsimp only
    split_ifs with hattached
    · obtain ⟨hlogs, hkept, hcode⟩ := performCommand_spec h.toCodeBytes cmd
      refine ⟨hlogs, hcode, fun hdetached ↦ ?_⟩
      rw [hkept, hattached] at hdetached
      cases hdetached
    · exact hsame
  | poll w result => exact absurd rfl (hinput w result)
  | gone =>
    dsimp only
    split_ifs
    · have hreported := moves_report .processExited s.pid 0 0 s
      exact hclose (hreported.toLogs.trans (logs_of_same rfl rfl rfl))
        ((h.toCodeBytes.moves hreported).congr rfl rfl)
    · exact hsame
  | addExceptionBreakpoint signal =>
    exact ⟨logs_of_same rfl rfl rfl, h.toCodeBytes.congr rfl rfl, h.detached⟩
  | removeExceptionBreakpoint signal =>
    exact ⟨logs_of_same rfl rfl rfl, h.toCodeBytes.congr rfl rfl, h.detached⟩
  | detach =>
    dsimp only
    split_ifs
    · exact hclose (logs_of_same rfl rfl rfl) (h.toCodeBytes.congr rfl rfl)
    · exact hsame

/-- A polled stop, from where the thread has been set back. -/
theorem logs_step_poll (h : Intact k original s) (w : ℕ) (result : WaitResult)
    (hpolled : (s.attached && !s.stopped) = true) :
    Logs (polled w result s) (step k s (.poll w result)) ∧
      Intact k original (step k s (.poll w result)) := by
  obtain ⟨hhandled, hbytes⟩ := handleStop_spec h.toCodeBytes w result
  obtain ⟨hclosed, hcode, hnone⟩ := closeDetached_spec hbytes
  have hstep : step k s (.poll w result) =
      closeDetached k (handleStop k w result.status (recordStop .poll w result s)) := by
    rw [step, if_pos hpolled]
  rw [hstep]
  exact ⟨hhandled.trans hclosed, hcode, hnone⟩

theorem intact_step (h : Intact k original s) (input : Input) :
    Intact k original (step k s input) := by
  by_cases hinput : ∃ w result, input = .poll w result
  · obtain ⟨w, result, rfl⟩ := hinput
    by_cases hpolled : (s.attached && !s.stopped) = true
    · exact (logs_step_poll h w result hpolled).2
    · rw [step, if_neg hpolled]
      exact h
  · exact (logs_step h fun w result hpoll ↦ hinput ⟨w, result, hpoll⟩).2

theorem intact_new (k : Kernel) (text : ℕ → UInt8) : Intact k text (DebugSession.new text) where
  toCodeBytes := CodeBytes.new k text
  detached := fun _ ↦ rfl

/-- Nothing is ever taken out of the log. -/
theorem log_step (h : Intact k original s) (input : Input) :
    ∃ added, (step k s input).log = s.log ++ added := by
  by_cases hinput : ∃ w result, input = .poll w result
  · obtain ⟨w, result, rfl⟩ := hinput
    by_cases hpolled : (s.attached && !s.stopped) = true
    · obtain ⟨added, hadded, -⟩ := (logs_step_poll h w result hpolled).1.log
      rw [(polled_code w result s).1, List.append_assoc] at hadded
      exact ⟨_, hadded⟩
    · rw [step, if_neg hpolled]
      exact ⟨[], (List.append_nil _).symm⟩
  · obtain ⟨added, hadded, -⟩ := (logs_step h fun w result hpoll ↦ hinput ⟨w, result, hpoll⟩).1.log
    exact ⟨added, hadded⟩

/-- What every turn preserves, as long as the log satisfies a condition, every run preserves. -/
theorem run_induction {P : DebugSession → Prop} {condition : Event → Prop}
    (hstep : ∀ s input, Intact k original s → (∀ e ∈ (step k s input).log, condition e) → P s →
      P (step k s input))
    (h : Intact k original s) (inputs : List Input)
    (hlog : ∀ e ∈ (run k s inputs).log, condition e) (hstart : P s) : P (run k s inputs) := by
  have hgrows : ∀ (rest : List Input) (s : DebugSession), Intact k original s →
      ∀ e ∈ s.log, e ∈ (run k s rest).log := by
    intro rest
    induction rest with
    | nil => exact fun s _ e he ↦ he
    | cons input rest ih =>
      intro s hs e he
      obtain ⟨added, hadded⟩ := log_step hs input
      exact ih _ (intact_step hs input) e (by rw [hadded]; exact List.mem_append_left _ he)
  induction inputs generalizing s with
  | nil => exact hstart
  | cons input rest ih =>
    have hnext := intact_step h input
    exact ih hnext hlog (hstep s input h (fun e he ↦ hlog e (hgrows rest _ hnext e he)) hstart)

end Cecore.Debug.DebugSession
