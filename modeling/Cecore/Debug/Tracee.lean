import Cecore.Core.Types
import Mathlib.Data.List.Sort
import Mathlib.Logic.Function.Basic

/-!
# A debug session and its target

The state of a `DebugSession`, the target it traces, and the requests it makes of the kernel. A
`Kernel` answers the requests: which of them are granted, and what the waits return. The answers are
numbered in the order they are asked for (`clock`). Every stop, resumption and report goes to a
log. `next` follows, for each thread, the original instruction it has still to execute; it is no
part of the program.
-/

set_option autoImplicit false
set_option relaxedAutoImplicit false

namespace Cecore.Debug

/-- `SIGTRAP`. -/
def sigtrap : ℕ := 5

/-- `PTRACE_EVENT_CLONE`. -/
def ptraceEventClone : ℕ := 3

/-- The status a wait returns; a stop carries its signal and its ptrace event. -/
inductive WaitStatus
  | exited
  | signaled
  | continued
  | stopped (signal event : ℕ)
  deriving DecidableEq, Repr

/-- `WSTOPSIG` of a stop. -/
def WaitStatus.stopSignal? : WaitStatus → Option ℕ
  | .stopped signal _ => some signal
  | _ => none

/-- `isEventStop`. -/
def isEventStop (status : WaitStatus) (event : ℕ) : Bool :=
  decide (status = .stopped sigtrap event)

/-- The registers the session reads by name. -/
structure Regs where
  rip : ℕ
  rsp : ℕ
  deriving DecidableEq, Repr

/-- What a wait finds: the status, the registers when they can be read, the set bits of DR6 when the
stop is a `TRAP_HWBKPT`, and the next original instruction of the thread. -/
structure WaitResult where
  status : WaitStatus
  regs : Option Regs
  hardware : Option (List ℕ)
  next : ℕ
  deriving DecidableEq, Repr

/-- What a session takes from its surroundings. The functions of a clock answer the request made at
that time. -/
structure Kernel where
  /-- `PTRACE_PEEKTEXT` and `PTRACE_POKETEXT` reach the word at the address. -/
  mapped : ℕ → Bool
  /-- Whether a request that can be refused is granted. -/
  grants : ℕ → Bool
  waits : ℕ → Option WaitResult
  /-- `ProcessHandle::threads`. -/
  threads : ℕ → List ℕ
  /-- `PTRACE_GETEVENTMSG`, zero where it is refused. -/
  eventMessage : ℕ → ℕ
  /-- The pointer at an address of the target, zero where it cannot be read. -/
  readWord : (clock address : ℕ) → ℕ
  /-- The size of the first instruction of a run of bytes, when it is a call. -/
  callSize : (address : ℕ) → (bytes : List UInt8) → Option ℕ

structure SoftBp where
  id : ℕ
  address : ℕ
  originalByte : UInt8
  active : Bool
  deriving DecidableEq, Repr

structure HwBp where
  id : ℕ
  address : ℕ
  reg : ℕ
  type : ℕ
  len : ℕ
  deriving DecidableEq, Repr

/-- An enabled debug register. -/
structure Watch where
  address : ℕ
  cond : ℕ
  len : ℕ
  deriving DecidableEq, Repr

inductive DebugEventType
  | breakpointHit
  | exceptionBreakpointHit
  | singleStep
  | processExited
  deriving DecidableEq, Repr

structure DebugEvent where
  type : DebugEventType
  tid : ℕ
  address : ℕ
  signal : ℕ
  context : Regs
  deriving DecidableEq, Repr

/-- The places that wait for a thread. -/
inductive WaitSite
  | seize
  | stopOthers
  | singleStep
  | runTo (target : ℕ)
  | newThread
  | poll
  | cleanup
  deriving DecidableEq, Repr

/-- A stop as it is logged, with the armed breakpoints, whether there are watchpoints, and the
exception breakpoints at the time. -/
structure Stop where
  tid : ℕ
  site : WaitSite
  result : WaitResult
  armed : List ℕ
  watching : Bool
  exceptions : List ℕ
  deriving DecidableEq, Repr

inductive Event
  | stop (stop : Stop)
  | resume (tid signal : ℕ)
  | report (event : DebugEvent)
  deriving DecidableEq, Repr

/-- A `DebugSession` with the target it traces. -/
structure DebugSession where
  pid : ℕ
  activeTid : ℕ
  traced : List ℕ
  stoppedTids : List ℕ
  stoppedSnapshot : List ℕ
  attached : Bool
  stopped : Bool
  softBreakpoints : List SoftBp
  nextSoftBpId : ℕ
  hwBreakpoints : List HwBp
  nextHwBpId : ℕ
  exceptionBreakSignals : List ℕ
  stopContext : Regs
  /-- The code of the target. -/
  text : ℕ → UInt8
  /-- The saved registers of each thread, when they can be read. -/
  regs : ℕ → Option Regs
  /-- What is known of a hardware stop of each thread. -/
  hardware : ℕ → Option (List ℕ)
  /-- The debug registers of each thread. -/
  debugRegs : ℕ → ℕ → Option Watch
  /-- The original instruction each thread has still to execute, until it was resumed anywhere
  else. -/
  next : ℕ → Option ℕ
  clock : ℕ
  log : List Event

/-- A session that is not attached, over a target with this text. -/
def DebugSession.new (text : ℕ → UInt8) : DebugSession where
  pid := 0
  activeTid := 0
  traced := []
  stoppedTids := []
  stoppedSnapshot := []
  attached := false
  stopped := false
  softBreakpoints := []
  nextSoftBpId := 1
  hwBreakpoints := []
  nextHwBpId := 1
  exceptionBreakSignals := []
  stopContext := ⟨0, 0⟩
  text := text
  regs := fun _ ↦ none
  hardware := fun _ ↦ none
  debugRegs := fun _ _ ↦ none
  next := fun _ ↦ some 0
  clock := 0
  log := []

/-- A `std::set` of thread ids with one more. -/
def insertTid (tid : ℕ) (tids : List ℕ) : List ℕ :=
  if tid ∈ tids then tids else tids.orderedInsert (· ≤ ·) tid

theorem mem_insertTid {tid other : ℕ} {tids : List ℕ} :
    other ∈ insertTid tid tids ↔ other = tid ∨ other ∈ tids := by
  unfold insertTid
  split_ifs with hmem
  · exact ⟨Or.inr, fun h ↦ h.elim (fun heq ↦ heq ▸ hmem) id⟩
  · exact List.mem_orderedInsert _

/-- `address - 1` of a `uintptr_t`. -/
def addressBefore (address : ℕ) : ℕ := (address + sizeModulus - 1) % sizeModulus

namespace DebugSession

/-- The armed breakpoint at an address. -/
def armedAt (s : DebugSession) (address : ℕ) : Option SoftBp :=
  (s.softBreakpoints.find? fun bp ↦ decide (bp.address = address)).filter SoftBp.active

def armedAddresses (s : DebugSession) : List ℕ :=
  (s.softBreakpoints.map SoftBp.address).filter fun address ↦ (s.armedAt address).isSome

/-! ### Requests -/

/-- A request that can be refused. -/
def request (k : Kernel) (s : DebugSession) : DebugSession × Bool :=
  ({ s with clock := s.clock + 1 }, k.grants s.clock)

/-- A thread is found stopped. -/
def recordStop (site : WaitSite) (tid : ℕ) (result : WaitResult) (s : DebugSession) :
    DebugSession :=
  { s with
    regs := Function.update s.regs tid result.regs
    hardware := Function.update s.hardware tid result.hardware
    next := Function.update s.next tid ((s.next tid).map fun _ ↦ result.next)
    log := s.log ++ [.stop ⟨tid, site, result, s.armedAddresses, decide (s.hwBreakpoints ≠ []),
      s.exceptionBreakSignals⟩] }

/-- `waitpid(tid, &st, __WALL)`; no result stands for a wait that fails. -/
def waitpid (k : Kernel) (site : WaitSite) (tid : ℕ) (s : DebugSession) :
    DebugSession × Option WaitResult :=
  let timed := { s with clock := s.clock + 1 }
  match k.waits s.clock with
  | none => (timed, none)
  | some result => (recordStop site tid result timed, some result)

/-- `PTRACE_CONT`, `PTRACE_SINGLESTEP` or `PTRACE_DETACH` with a signal. A thread that does not
continue at its next instruction is lost. -/
def resume (tid signal : ℕ) (s : DebugSession) : DebugSession :=
  { s with
    next := Function.update s.next tid ((s.next tid).filter fun next ↦
      (s.regs tid).all fun regs ↦ decide (regs.rip = next))
    log := s.log ++ [.resume tid signal] }

/-- `PTRACE_SETREGS` with another `rip`. -/
def setRip (tid rip : ℕ) (s : DebugSession) : DebugSession :=
  { s with regs := Function.update s.regs tid ((s.regs tid).map fun regs ↦ { regs with rip := rip }) }

/-- `pokeByte`, with the byte it replaces. -/
def pokeByte (k : Kernel) (address : ℕ) (val : UInt8) (s : DebugSession) :
    DebugSession × Option UInt8 :=
  if k.mapped address then
    ({ s with text := Function.update s.text address val }, some (s.text address))
  else (s, none)

/-- `captureRegs`. -/
def captureRegs (tid : ℕ) (s : DebugSession) : DebugSession :=
  match s.regs tid with
  | none => s
  | some regs => { s with stopContext := regs }

/-- The callback for a debug event. What the callback asks of the session is an input of its own. -/
def report (type : DebugEventType) (tid address signal : ℕ) (s : DebugSession) : DebugSession :=
  { s with log := s.log ++ [.report ⟨type, tid, address, signal, s.stopContext⟩] }

end DebugSession

end Cecore.Debug
