import Cecore.Debug.Breakpoints

/-!
# Commands, stops and runs

`doStep` with its temporary breakpoints, the commands of a session, `handleStop`, and one turn of
`tracerThread` for each kind of input. Memory accesses of the session succeed wherever the text is
mapped. `run` folds the turns over any sequence of inputs.
-/

set_option autoImplicit false
set_option relaxedAutoImplicit false

namespace Cecore.Debug

inductive StepMode
  | into
  | over
  | out
  | runToCursor
  deriving DecidableEq, Repr

/-- A temporary int3 of a step. -/
structure Temp where
  addr : ℕ
  orig : UInt8
  created : Bool
  deriving DecidableEq, Repr

namespace DebugSession

/-! ### Stepping -/

/-- `setTemp`. -/
def setTemp (k : Kernel) (addr : ℕ) (s : DebugSession) : DebugSession × Temp :=
  if (s.armedAt addr).isSome then (s, ⟨addr, 0, false⟩)
  else match pokeByte k addr 0xCC s with
    | (s, none) => (s, ⟨addr, 0, false⟩)
    | (s, some orig) => (s, ⟨addr, orig, true⟩)

/-- `clearTemp`. -/
def clearTemp (k : Kernel) (t : Temp) (s : DebugSession) : DebugSession :=
  if t.created then (pokeByte k t.addr t.orig s).1 else s

/-- `liftCurrentBp`. -/
def liftCurrentBp (k : Kernel) (rip : ℕ) (s : DebugSession) : DebugSession × Bool :=
  match s.armedAt rip with
  | none => (s, false)
  | some bp => ((pokeByte k rip bp.originalByte s).1, true)

/-- `rewindOverBreakpoint`; a wait that fails leaves the status of an exit. -/
def rewindOverBreakpoint (tid : ℕ) (status : WaitStatus) (bpAddr : ℕ) (s : DebugSession) :
    DebugSession :=
  match status.stopSignal?, s.regs tid with
  | some _, some regs => if regs.rip = (bpAddr + 1) % sizeModulus then setRip tid bpAddr s else s
  | _, _ => s

/-- Runs the active thread to a temporary breakpoint: what Step Over does at a call, Step Out and
Run To Cursor. -/
def runTo (k : Kernel) (tid rip target : ℕ) (s : DebugSession) : DebugSession :=
  let (s, lifted) := liftCurrentBp k rip s
  let (s, temp) := setTemp k target s
  let (s, result) := waitpid k (.runTo target) tid (resume tid 0 s)
  let s := rewindOverBreakpoint tid ((result.map WaitResult.status).getD .exited) target s
  let s := clearTemp k temp s
  if lifted then rearm k rip s else s

/-- Steps one instruction, past a breakpoint the thread sits on. -/
def stepInstruction (k : Kernel) (tid : ℕ) (s : DebugSession) : DebugSession :=
  match stepThreadOverBp k tid s with
  | (s, true) => s
  | (s, false) => singleStep k tid s

/-- The bytes `proc_->read` finds at the current instruction. -/
def codeBytes (k : Kernel) (address : ℕ) (s : DebugSession) : List UInt8 :=
  (((List.range 16).map (address + ·)).takeWhile k.mapped).map s.text

/-- The cases of `doStep`. Registers that cannot be read are left as zeros. -/
def stepThread (k : Kernel) (mode : StepMode) (targetAddress tid : ℕ) (s : DebugSession) :
    DebugSession :=
  let regs := (s.regs tid).getD ⟨0, 0⟩
  match mode with
  | .into => stepInstruction k tid s
  | .over =>
    match k.callSize regs.rip (codeBytes k regs.rip s) with
    | some size => runTo k tid regs.rip ((regs.rip + size) % sizeModulus) s
    | none => stepInstruction k tid s
  | .out =>
    let retAddr := k.readWord s.clock regs.rsp
    if retAddr ≠ 0 then runTo k tid regs.rip retAddr s else s
  | .runToCursor => if targetAddress ≠ 0 then runTo k tid regs.rip targetAddress s else s

/-- `doStep`. -/
def doStep (k : Kernel) (mode : StepMode) (targetAddress : ℕ) (s : DebugSession) : DebugSession :=
  if !s.stopped then s
  else
    let tid := if s.activeTid ≠ 0 then s.activeTid else s.pid
    let s := captureRegs tid { stepThread k mode targetAddress tid s with stopped := true }
    report .singleStep tid s.stopContext.rip 0 s

/-! ### Commands -/

/-- `doContinue`. -/
def doContinue (k : Kernel) (s : DebugSession) : DebugSession :=
  if !s.stopped then s else { resumeAllThreads k s with stopped := false }

/-- `doSetRegs`: the user decides where the active thread goes on. -/
def doSetRegs (regs : Regs) (s : DebugSession) : DebugSession × Bool :=
  if !s.stopped ∨ s.activeTid = 0 then (s, false)
  else match s.regs s.activeTid with
    | none => (s, false)
    | some _ =>
      (captureRegs s.activeTid { s with
        regs := Function.update s.regs s.activeTid (some regs)
        next := Function.update s.next s.activeTid ((s.next s.activeTid).map fun _ ↦ regs.rip) },
        true)

/-- `doSelectThread`. -/
def doSelectThread (tid : ℕ) (s : DebugSession) : DebugSession × Bool :=
  if tid ∉ s.stoppedTids then (s, false) else (captureRegs tid { s with activeTid := tid }, true)

inductive Command
  | continue
  | step (mode : StepMode) (addr : ℕ)
  | setSoftBp (addr : ℕ)
  | removeSoftBp (id : ℕ)
  | setRegs (regs : Regs)
  | selectThread (tid : ℕ)
  | setHwBp (addr type size : ℕ)
  | removeHwBp (id : ℕ)
  deriving DecidableEq, Repr

/-- `performCommand`, with its result. -/
def performCommand (k : Kernel) (cmd : Command) (s : DebugSession) : DebugSession × ℤ :=
  match cmd with
  | .continue => (doContinue k s, 0)
  | .step mode addr => (doStep k mode addr s, 0)
  | .setSoftBp addr => doSetSoftBp k addr s
  | .removeSoftBp id => (doRemoveSoftBp k id s, 0)
  | .setRegs regs => let (s, done) := doSetRegs regs s; (s, if done then 1 else 0)
  | .selectThread tid => let (s, done) := doSelectThread tid s; (s, if done then 1 else 0)
  | .setHwBp addr type size => doSetHwBp k addr type size s
  | .removeHwBp id => (doRemoveHwBp k id s, 0)

/-! ### Stops -/

/-- What a stop that is reported does: it makes the thread the active one and freezes the others. -/
def breakAt (k : Kernel) (type : DebugEventType) (w address signal : ℕ) (s : DebugSession) :
    DebugSession :=
  let s := stopOtherThreads k w { s with activeTid := w, stoppedTids := insertTid w s.stoppedTids }
  report type w address signal (captureRegs w { s with stopped := true })

/-- The end of a thread, or of the process. -/
def handleExit (w : ℕ) (s : DebugSession) : DebugSession :=
  let s := { s with traced := s.traced.erase w, stoppedTids := s.stoppedTids.erase w }
  if w = s.pid ∨ s.traced = [] then
    { report .processExited w 0 0 s with attached := false, stopped := false }
  else s

/-- A new thread is traced and resumed, and so is its parent. The kernel gives it cleared debug
registers. -/
def handleClone (k : Kernel) (w : ℕ) (s : DebugSession) : DebugSession :=
  let newTid := k.eventMessage s.clock
  let s := { s with clock := s.clock + 1 }
  let s := if newTid = 0 then s
    else
      let s := (waitpid k .newThread newTid s).1
      resume newTid 0 { s with
        traced := insertTid newTid s.traced
        debugRegs := Function.update s.debugRegs newTid fun _ ↦ none }
  resume w 0 s

/-- A stop by SIGTRAP. -/
def handleTrap (k : Kernel) (w : ℕ) (s : DebugSession) : DebugSession :=
  match s.regs w with
  | none => resume w 0 s
  | some regs =>
    match if s.hwBreakpoints = [] then none else s.hardware w with
    | some dr6 =>
      let hitAddr := ((s.hwBreakpoints.find? fun b ↦ decide (b.reg ∈ dr6)).map
        HwBp.address).getD regs.rip
      breakAt k .breakpointHit w hitAddr sigtrap s
    | none =>
      let bpAddr := addressBefore regs.rip
      if (s.armedAt bpAddr).isSome then
        breakAt k .breakpointHit w bpAddr sigtrap (setRip w bpAddr s)
      else resume w 0 s

/-- `handleStop`. -/
def handleStop (k : Kernel) (w : ℕ) (status : WaitStatus) (s : DebugSession) : DebugSession :=
  match status with
  | .exited | .signaled => handleExit w s
  | .continued => s
  | .stopped sig _ =>
    if isEventStop status ptraceEventClone then handleClone k w s
    else if sig = sigtrap then handleTrap k w s
    else if sig ∈ s.exceptionBreakSignals then
      breakAt k .exceptionBreakpointHit w (((s.regs w).map Regs.rip).getD 0) sig s
    else resume w sig s

/-! ### Runs -/

/-- What the tracer thread takes notice of. -/
inductive Input
  | attach (pid : ℕ)
  | command (cmd : Command)
  /-- `waitpid(-1)` returns a thread. -/
  | poll (w : ℕ) (result : WaitResult)
  /-- `waitpid(-1)` finds no child. -/
  | gone
  | addExceptionBreakpoint (signal : ℕ)
  | removeExceptionBreakpoint (signal : ℕ)
  | detach
  deriving DecidableEq, Repr

/-- The loop of the tracer thread ends when the session is no longer attached. -/
def closeDetached (k : Kernel) (s : DebugSession) : DebugSession :=
  if s.attached then s else tracerCleanup k s

/-- The start of `tracerThread`. -/
def attach (k : Kernel) (pid : ℕ) (s : DebugSession) : DebugSession :=
  let (seized, ok) := seizeAllThreads k { s with pid := pid }
  if ok then captureRegs pid { seized with attached := true, stopped := true, activeTid := pid }
  else seized

/-- One turn of `tracerThread`. -/
def step (k : Kernel) (s : DebugSession) (input : Input) : DebugSession :=
  match input with
  | .attach pid => if s.attached then s else attach k pid s
  | .command cmd => if s.attached then (performCommand k cmd s).1 else s
  | .poll w result =>
    if s.attached && !s.stopped then
      closeDetached k (handleStop k w result.status (recordStop .poll w result s))
    else s
  | .gone =>
    if s.attached && !s.stopped then
      closeDetached k { report .processExited s.pid 0 0 s with attached := false, stopped := false }
    else s
  | .addExceptionBreakpoint signal =>
    { s with exceptionBreakSignals := s.exceptionBreakSignals.insert signal }
  | .removeExceptionBreakpoint signal =>
    { s with exceptionBreakSignals := s.exceptionBreakSignals.filter fun other ↦
        decide (other ≠ signal) }
  | .detach => if s.attached then closeDetached k { s with attached := false } else s

/-- The session after some inputs. -/
def run (k : Kernel) (s : DebugSession) (inputs : List Input) : DebugSession :=
  inputs.foldl (step k) s

end DebugSession

end Cecore.Debug
