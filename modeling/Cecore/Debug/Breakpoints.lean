import Cecore.Debug.Tracee

/-!
# Breakpoints and all-stop

The operations of a session on its threads and breakpoints: seizing and stopping threads, resuming
them past the breakpoints they sit on, setting and removing software breakpoints and hardware
watchpoints, and the cleanup before a detach.
-/

set_option autoImplicit false
set_option relaxedAutoImplicit false

namespace Cecore.Debug.DebugSession

/-! ### All-stop -/

/-- One turn of the loop of `seizeAllThreads`. -/
def seizeThread (k : Kernel) (s : DebugSession) (tid : ℕ) : DebugSession :=
  let (s, seized) := request k s
  if !seized then s
  else
    let (s, interrupted) := request k s
    if !interrupted then s
    else match waitpid k .seize tid s with
      | (s, none) => s
      | (s, some _) =>
        { s with traced := insertTid tid s.traced, stoppedTids := insertTid tid s.stoppedTids }

/-- `seizeAllThreads`. -/
def seizeAllThreads (k : Kernel) (s : DebugSession) : DebugSession × Bool :=
  let tids := if k.threads s.clock = [] then [s.pid] else k.threads s.clock
  let seized := tids.foldl (seizeThread k) { s with traced := [], stoppedTids := [] }
  (seized, decide (seized.traced ≠ []))

/-- `publishStoppedThreads`. -/
def publishStoppedThreads (s : DebugSession) : DebugSession :=
  { s with stoppedSnapshot := s.stoppedTids }

/-- Backs `rip` up when it is one past an armed int3 after a SIGTRAP. -/
def backUpOverInt3 (tid : ℕ) (status : WaitStatus) (s : DebugSession) : DebugSession :=
  if status.stopSignal? = some sigtrap then
    match s.regs tid with
    | none => s
    | some regs =>
      let bpAddr := addressBefore regs.rip
      if (s.armedAt bpAddr).isSome then setRip tid bpAddr s else s
  else s

/-- One turn of the loop of `stopOtherThreads`. -/
def stopOtherThread (k : Kernel) (active : ℕ) (s : DebugSession) (tid : ℕ) : DebugSession :=
  if tid = active ∨ tid ∈ s.stoppedTids then s
  else
    let (s, interrupted) := request k s
    if !interrupted then s
    else match waitpid k .stopOthers tid s with
      | (s, none) => s
      | (s, some result) =>
        backUpOverInt3 tid result.status { s with stoppedTids := insertTid tid s.stoppedTids }

/-- `stopOtherThreads`. -/
def stopOtherThreads (k : Kernel) (active : ℕ) (s : DebugSession) : DebugSession :=
  publishStoppedThreads (s.traced.foldl (stopOtherThread k active) s)

/-- Resumes a thread for one instruction and waits for it. -/
def singleStep (k : Kernel) (tid : ℕ) (s : DebugSession) : DebugSession :=
  (waitpid k .singleStep tid (resume tid 0 s)).1

/-- Plants the int3 of a breakpoint that is still armed. -/
def rearm (k : Kernel) (address : ℕ) (s : DebugSession) : DebugSession :=
  if (s.armedAt address).isSome then (pokeByte k address 0xCC s).1 else s

/-- `stepThreadOverBp`. -/
def stepThreadOverBp (k : Kernel) (tid : ℕ) (s : DebugSession) : DebugSession × Bool :=
  match s.regs tid with
  | none => (s, false)
  | some regs =>
    match s.armedAt regs.rip with
    | none => (s, false)
    | some bp =>
      let lifted := (pokeByte k regs.rip bp.originalByte s).1
      (rearm k regs.rip (singleStep k tid lifted), true)

/-- `resumeAllThreads`. -/
def resumeAllThreads (k : Kernel) (s : DebugSession) : DebugSession :=
  let stepped := s.traced.foldl (fun s tid ↦ (stepThreadOverBp k tid s).1) s
  { stepped.traced.foldl (fun s tid ↦ resume tid 0 s) stepped with stoppedTids := [] }

/-! ### Software breakpoints -/

/-- `doSetSoftBp`, with its result. -/
def doSetSoftBp (k : Kernel) (address : ℕ) (s : DebugSession) : DebugSession × ℤ :=
  match s.softBreakpoints.find? fun bp ↦ decide (bp.address = address) with
  | some bp => (s, bp.id)
  | none =>
    match pokeByte k address 0xCC s with
    | (s, none) => (s, -1)
    | (s, some origByte) =>
      ({ s with
          nextSoftBpId := s.nextSoftBpId + 1
          softBreakpoints := s.softBreakpoints ++ [⟨s.nextSoftBpId, address, origByte, true⟩] },
        s.nextSoftBpId)

/-- `doRemoveSoftBp`. -/
def doRemoveSoftBp (k : Kernel) (id : ℕ) (s : DebugSession) : DebugSession :=
  match s.softBreakpoints.find? fun bp ↦ decide (bp.id = id) with
  | none => s
  | some bp =>
    let restored := if bp.active then (pokeByte k bp.address bp.originalByte s).1 else s
    { restored with softBreakpoints := restored.softBreakpoints.erase bp }

/-! ### Hardware watchpoints -/

def setDebugReg (tid reg : ℕ) (watch : Option Watch) (s : DebugSession) : DebugSession :=
  { s with
    debugRegs := Function.update s.debugRegs tid <| Function.update (s.debugRegs tid) reg watch }

/-- `armHwBp`. -/
def armHwBp (k : Kernel) (reg : ℕ) (watch : Watch) (s : DebugSession) (tid : ℕ) : DebugSession :=
  let (s, granted) := request k s
  if granted then setDebugReg tid reg (some watch) s else s

/-- `disarmHwBpReg`. -/
def disarmHwBpReg (k : Kernel) (reg : ℕ) (s : DebugSession) (tid : ℕ) : DebugSession :=
  let (s, granted) := request k s
  if granted then setDebugReg tid reg none s else s

/-- `doSetHwBp`, with its result. -/
def doSetHwBp (k : Kernel) (address type size : ℕ) (s : DebugSession) : DebugSession × ℤ :=
  match (List.range 4).find? fun reg ↦ decide (reg ∉ s.hwBreakpoints.map HwBp.reg) with
  | none => (s, -1)
  | some reg =>
    let len := if size = 1 then 0 else if size = 2 then 1 else if size = 8 then 2 else 3
    let cond := if type = 1 then 1 else 3
    let armed := s.traced.foldl (armHwBp k reg ⟨address, cond, len⟩) s
    ({ armed with
        nextHwBpId := armed.nextHwBpId + 1
        hwBreakpoints := armed.hwBreakpoints ++ [⟨armed.nextHwBpId, address, reg, cond, len⟩] },
      armed.nextHwBpId)

/-- `doRemoveHwBp`. -/
def doRemoveHwBp (k : Kernel) (id : ℕ) (s : DebugSession) : DebugSession :=
  match s.hwBreakpoints.find? fun bp ↦ decide (bp.id = id) with
  | none => s
  | some bp =>
    let disarmed := s.traced.foldl (disarmHwBpReg k bp.reg) s
    { disarmed with hwBreakpoints := disarmed.hwBreakpoints.erase bp }

/-- `disarmAllHwBreakpoints`. -/
def disarmAllHwBreakpoints (k : Kernel) (s : DebugSession) : DebugSession :=
  let disarmed := s.hwBreakpoints.foldl
    (fun s bp ↦ s.traced.foldl (disarmHwBpReg k bp.reg) s) s
  { disarmed with hwBreakpoints := [] }

/-! ### Cleanup -/

/-- One turn of the first loop of `tracerCleanup`. -/
def interruptThread (k : Kernel) (s : DebugSession) (tid : ℕ) : DebugSession :=
  if tid ∈ s.stoppedTids then s
  else
    let (s, interrupted) := request k s
    if !interrupted then s else (waitpid k .cleanup tid s).1

/-- Restores the original byte of a breakpoint. -/
def restoreByte (k : Kernel) (s : DebugSession) (bp : SoftBp) : DebugSession :=
  if bp.active then (pokeByte k bp.address bp.originalByte s).1 else s

/-- `tracerCleanup`, but for the commands it fails. -/
def tracerCleanup (k : Kernel) (s : DebugSession) : DebugSession :=
  let frozen := s.traced.foldl (interruptThread k) s
  let restored := { frozen.softBreakpoints.foldl (restoreByte k) frozen with softBreakpoints := [] }
  let disarmed := disarmAllHwBreakpoints k restored
  let detached := disarmed.traced.foldl (fun s tid ↦ resume tid 0 s) disarmed
  { detached with traced := [], stoppedTids := [], stopped := false }

end Cecore.Debug.DebugSession
