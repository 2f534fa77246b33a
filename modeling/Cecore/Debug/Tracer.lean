import Cecore.Debug.Tracee
import Mathlib.Data.Finset.Basic

/-!
# Break and trace

`Tracer::trace` against the threads of the target as the kernel has them. A thread's debug registers
are written, and it is resumed or detached, only while it is stopped. Between any two requests the
target goes on: threads stop of their own, end and create others. What the target looks like at each
request is kept in `sights`, which are no part of the program.
-/

set_option autoImplicit false
set_option relaxedAutoImplicit false

namespace Cecore.Debug

/-! ### The threads of the target -/

/-- The threads that live, those of them that are attached to the tracer, those of these that are
stopped, the threads with the breakpoint of the tracer in their debug registers, and those that are
traced with `PTRACE_O_TRACECLONE`. -/
structure Tracees where
  live : Finset ℕ
  attached : Finset ℕ
  halted : Finset ℕ
  armed : Finset ℕ
  cloning : Finset ℕ
  attached_live : attached ⊆ live
  halted_attached : halted ⊆ attached
  armed_live : armed ⊆ live

/-- What a target does of its own. -/
inductive Happening
  | stops (tid : ℕ)
  | creates (parent child : ℕ)
  | ends (tid : ℕ)
  deriving DecidableEq, Repr

namespace Tracees

/-- A target before it is traced. -/
def untraced (live : Finset ℕ) : Tracees where
  live := live
  attached := ∅
  halted := ∅
  armed := ∅
  cloning := ∅
  attached_live := Finset.empty_subset _
  halted_attached := Finset.empty_subset _
  armed_live := Finset.empty_subset _

def stop (tid : ℕ) (t : Tracees) : Tracees where
  __ := t
  halted := if tid ∈ t.attached then insert tid t.halted else t.halted
  halted_attached := by
    split_ifs with hattached
    · exact Finset.insert_subset hattached t.halted_attached
    · exact t.halted_attached

def finish (tid : ℕ) (t : Tracees) : Tracees where
  live := t.live.erase tid
  attached := t.attached.erase tid
  halted := t.halted.erase tid
  armed := t.armed.erase tid
  cloning := t.cloning.erase tid
  attached_live := Finset.erase_subset_erase tid t.attached_live
  halted_attached := Finset.erase_subset_erase tid t.halted_attached
  armed_live := Finset.erase_subset_erase tid t.armed_live

/-- A new thread, with cleared debug registers. It is attached, and both threads stop, when its
parent is traced with `PTRACE_O_TRACECLONE`. -/
def create (parent child : ℕ) (t : Tracees) : Tracees :=
  if parent ∉ t.live ∨ parent ∈ t.halted ∨ child ∈ t.live then t
  else if parent ∈ t.attached ∧ parent ∈ t.cloning then
    stop parent <| stop child {
      live := insert child t.live
      attached := insert child t.attached
      halted := t.halted
      armed := t.armed
      cloning := insert child t.cloning
      attached_live := Finset.insert_subset_insert child t.attached_live
      halted_attached := t.halted_attached.trans (Finset.subset_insert _ _)
      armed_live := t.armed_live.trans (Finset.subset_insert _ _) }
  else {
    live := insert child t.live
    attached := t.attached
    halted := t.halted
    armed := t.armed
    cloning := t.cloning
    attached_live := t.attached_live.trans (Finset.subset_insert _ _)
    halted_attached := t.halted_attached
    armed_live := t.armed_live.trans (Finset.subset_insert _ _) }

def happen (t : Tracees) : Happening → Tracees
  | .stops tid => t.stop tid
  | .creates parent child => t.create parent child
  | .ends tid => t.finish tid

/-- `PTRACE_SEIZE` or `PTRACE_ATTACH`. -/
def attach (tid : ℕ) (cloning : Bool) (t : Tracees) : Tracees where
  live := t.live
  attached := if tid ∈ t.live then insert tid t.attached else t.attached
  halted := t.halted
  armed := t.armed
  cloning := if cloning then insert tid t.cloning else t.cloning
  attached_live := by
    split_ifs with hlive
    · exact Finset.insert_subset hlive t.attached_live
    · exact t.attached_live
  halted_attached := by
    split_ifs
    · exact t.halted_attached.trans (Finset.subset_insert _ _)
    · exact t.halted_attached
  armed_live := t.armed_live

/-- `PTRACE_CONT` or `PTRACE_SINGLESTEP`. -/
def resume (tid : ℕ) (t : Tracees) : Tracees where
  __ := t
  halted := t.halted.erase tid
  halted_attached := (Finset.erase_subset _ _).trans t.halted_attached

/-- The debug register of a stopped thread is enabled. -/
def arm (tid : ℕ) (t : Tracees) : Tracees where
  __ := t
  armed := if tid ∈ t.halted then insert tid t.armed else t.armed
  armed_live := by
    split_ifs with hhalted
    · exact Finset.insert_subset (t.attached_live (t.halted_attached hhalted)) t.armed_live
    · exact t.armed_live

def disarm (tid : ℕ) (t : Tracees) : Tracees where
  __ := t
  armed := if tid ∈ t.halted then t.armed.erase tid else t.armed
  armed_live := by
    split_ifs
    · exact (Finset.erase_subset _ _).trans t.armed_live
    · exact t.armed_live

/-- `PTRACE_DETACH`. -/
def detach (tid : ℕ) (t : Tracees) : Tracees where
  live := t.live
  attached := if tid ∈ t.halted then t.attached.erase tid else t.attached
  halted := t.halted.erase tid
  armed := t.armed
  cloning := t.cloning
  attached_live := by
    split_ifs
    · exact (Finset.erase_subset _ _).trans t.attached_live
    · exact t.attached_live
  halted_attached := by
    split_ifs with hhalted
    · exact Finset.erase_subset_erase tid t.halted_attached
    · exact (Finset.erase_subset _ _).trans t.halted_attached
  armed_live := t.armed_live

/-- A wait finds a thread. -/
def find (tid : ℕ) (t : Tracees) : WaitStatus → Tracees
  | .exited | .signaled => t.finish tid
  | .continued => t
  | .stopped _ _ => t.stop tid

end Tracees

/-! ### The tracer -/

structure TraceConfig where
  startAddress : ℕ
  maxSteps : ℕ
  stepOverCalls : Bool
  stayInModule : Bool
  moduleBase : ℕ
  moduleEnd : ℕ
  stopAddress : ℕ
  deriving DecidableEq, Repr

structure TraceEntry where
  address : ℕ
  instruction : List Char
  context : Regs
  deriving DecidableEq, Repr

/-- A disassembled instruction. -/
structure Instruction where
  mnemonic : List Char
  operands : List Char
  size : ℕ
  deriving DecidableEq, Repr

/-- What a trace takes from its surroundings. The functions of a clock answer the request made at
that time. -/
structure TraceKernel where
  /-- `ProcessHandle::threads`. -/
  threads : List ℕ
  /-- What the target does before the request is answered. -/
  happens : ℕ → List Happening
  /-- Whether a request that can be refused is granted. -/
  grants : ℕ → Bool
  /-- A wait for one thread. -/
  waits : ℕ → Option WaitStatus
  /-- A wait for any thread. -/
  polls : ℕ → Option (ℕ × WaitResult)
  /-- The registers of a stopped thread. -/
  context : ℕ → Regs
  /-- The instruction at an address, when its bytes can be read and disassembled. -/
  instruction : (clock address : ℕ) → Option Instruction
  cancelled : ℕ → Bool

/-- Where `Tracer::trace` is. -/
inductive TracePhase
  | starting
  | waiting
  | freezing
  | stepping (step : ℕ)
  | detaching
  | returned
  deriving DecidableEq, Repr

/-- The target as it is at some time of a trace. -/
structure Sight where
  phase : TracePhase
  traceTid : ℕ
  tracees : Tracees

/-- A call of `Tracer::trace` and its target. -/
structure Tracer where
  phase : TracePhase
  pid : ℕ
  tracees : Tracees
  seized : List ℕ
  traceTid : ℕ
  entries : List TraceEntry
  clock : ℕ
  sights : List Sight

namespace Tracer

/-! ### Requests -/

def sight (s : Tracer) : Sight := ⟨s.phase, s.traceTid, s.tracees⟩

/-- The target goes on until the next request is answered. -/
def pass (k : TraceKernel) (s : Tracer) : Tracer :=
  let after := { s with tracees := (k.happens s.clock).foldl Tracees.happen s.tracees }
  { after with clock := s.clock + 1, sights := s.sights ++ [s.sight, after.sight] }

/-- `PTRACE_SEIZE` or `PTRACE_ATTACH`. -/
def attach (k : TraceKernel) (cloning : Bool) (tid : ℕ) (s : Tracer) : Tracer × Bool :=
  let after := pass k s
  if k.grants s.clock ∧ tid ∈ after.tracees.live ∧ tid ∉ after.tracees.attached then
    ({ after with tracees := after.tracees.attach tid cloning }, true)
  else (after, false)

/-- `PTRACE_INTERRUPT`. -/
def interrupt (k : TraceKernel) (tid : ℕ) (s : Tracer) : Tracer × Bool :=
  let after := pass k s
  (after, decide (k.grants s.clock ∧ tid ∈ after.tracees.attached))

/-- `waitpid(tid, &st, __WALL)`; no status stands for a wait that fails. -/
def waitpid (k : TraceKernel) (tid : ℕ) (s : Tracer) : Tracer × Option WaitStatus :=
  let after := pass k s
  match k.waits s.clock with
  | none => (after, none)
  | some status => ({ after with tracees := after.tracees.find tid status }, some status)

/-- `waitpid(-1, &status, __WALL)`. -/
def poll (k : TraceKernel) (s : Tracer) : Tracer × Option (ℕ × WaitResult) :=
  let after := pass k s
  match k.polls s.clock with
  | none => (after, none)
  | some (w, result) =>
    ({ after with tracees := after.tracees.find w result.status }, some (w, result))

/-- `PTRACE_CONT`. -/
def cont (k : TraceKernel) (s : Tracer) (tid : ℕ) : Tracer :=
  let after := pass k s
  { after with tracees := after.tracees.resume tid }

/-- `Debugger::setBreakpoint` of register 0. -/
def setBreakpoint (k : TraceKernel) (s : Tracer) (tid : ℕ) : Tracer :=
  let after := pass k s
  if k.grants s.clock then { after with tracees := after.tracees.arm tid } else after

/-- `Debugger::removeBreakpoint` of register 0. -/
def removeBreakpoint (k : TraceKernel) (s : Tracer) (tid : ℕ) : Tracer :=
  let after := pass k s
  { after with tracees := after.tracees.disarm tid }

/-- `Debugger::getContext`. -/
def getContext (k : TraceKernel) (tid : ℕ) (s : Tracer) : Tracer × Option Regs :=
  let after := pass k s
  (after, if tid ∈ after.tracees.halted then some (k.context s.clock) else none)

/-- `Debugger::singleStep`. -/
def singleStep (k : TraceKernel) (tid : ℕ) (s : Tracer) : Tracer × Bool :=
  let after := pass k s
  if tid ∉ after.tracees.halted then (after, false)
  else
    match waitpid k tid { after with tracees := after.tracees.resume tid } with
    | (s, status) => (s, (status.bind WaitStatus.stopSignal?).isSome)

/-- `PTRACE_DETACH`. -/
def detach (k : TraceKernel) (s : Tracer) (tid : ℕ) : Tracer :=
  let after := pass k s
  { after with tracees := after.tracees.detach tid }

/-! ### The trace -/

/-- One turn of the loop that seizes every thread. -/
def seizeThread (k : TraceKernel) (s : Tracer) (tid : ℕ) : Tracer :=
  match attach k true tid s with
  | (s, false) => s
  | (s, true) =>
    match interrupt k tid s with
    | (s, false) => s
    | (s, true) =>
      match waitpid k tid s with
      | (s, none) => s
      | (s, some _) => { s with seized := insertTid tid s.seized }

def threadsToSeize (k : TraceKernel) (pid : ℕ) : List ℕ :=
  if k.threads = [] then [pid] else k.threads

/-- `detachAll`, and the return that follows it. -/
def detachAll (k : TraceKernel) (s : Tracer) : Tracer :=
  { s.seized.foldl (detach k) { s with phase := .detaching } with phase := .returned }

/-- The attach of the main thread when no thread could be seized. -/
def attachMain (k : TraceKernel) (s : Tracer) : Tracer × Bool :=
  if s.seized ≠ [] then (s, true)
  else
    match attach k false s.pid s with
    | (s, false) => (s, false)
    | (s, true) => ({ (waitpid k s.pid s).1 with seized := [s.pid] }, true)

def new (pid : ℕ) (tracees : Tracees) : Tracer where
  phase := .starting
  pid := pid
  tracees := tracees
  seized := []
  traceTid := pid
  entries := []
  clock := 0
  sights := []

/-- Every thread that could be attached to. -/
def seizeAll (k : TraceKernel) (pid : ℕ) (tracees : Tracees) : Tracer :=
  (threadsToSeize k pid).foldl (seizeThread k) (new pid tracees)

/-- `Tracer::trace` up to its first loop. -/
def start (k : TraceKernel) (config : TraceConfig) (pid : ℕ) (tracees : Tracees) : Tracer :=
  match attachMain k (seizeAll k pid tracees) with
  | (s, false) => { s with phase := .returned }
  | (s, true) =>
    if config.startAddress = 0 then { s with phase := .stepping 0 }
    else
      let armed := s.seized.foldl (setBreakpoint k) s
      { armed.seized.foldl (cont k) armed with phase := .waiting }

/-- One turn of the loop that freezes the other threads. -/
def freezeThread (k : TraceKernel) (s : Tracer) (tid : ℕ) : Tracer :=
  if tid = s.traceTid then s
  else
    match interrupt k tid s with
    | (s, false) => s
    | (s, true) => (waitpid k tid s).1

/-- A thread is at the start address. -/
def hit (k : TraceKernel) (w : ℕ) (s : Tracer) : Tracer :=
  let s := { s with traceTid := w, phase := .freezing }
  let s := s.seized.foldl (removeBreakpoint k) s
  { s.seized.foldl (freezeThread k) s with phase := .stepping 0 }

/-- The stop is one by the hardware breakpoint at the start address. -/
def AtStart (config : TraceConfig) (result : WaitResult) : Prop :=
  isEventStop result.status ptraceEventClone = false ∧
    result.status.stopSignal? = some sigtrap ∧ result.hardware.isSome = true ∧
      result.regs.map Regs.rip = some config.startAddress

instance (config : TraceConfig) (result : WaitResult) : Decidable (AtStart config result) :=
  inferInstanceAs (Decidable (_ ∧ _))

/-- One turn of the loop that runs to the start address. -/
def awaitStart (k : TraceKernel) (config : TraceConfig) (s : Tracer) : Tracer :=
  if k.cancelled s.clock then detachAll k s
  else
    match poll k s with
    | (s, none) => detachAll k s
    | (s, some (w, result)) =>
      match result.status with
      | .exited | .signaled =>
        let s := { s with seized := s.seized.erase w }
        if w = s.pid ∨ s.seized = [] then detachAll k s else s
      | .continued => s
      | .stopped _ _ => if AtStart config result then hit k w s else cont k s w

/-- A call that the trace steps over. -/
def isCall (config : TraceConfig) (instruction : Instruction) : Bool :=
  config.stepOverCalls && "call".toList.isPrefixOf (instruction.mnemonic ++ ' ' :: instruction.operands)

/-- The trace ends at this instruction. -/
def EndsAt (config : TraceConfig) (rip : ℕ) : Prop :=
  (config.stopAddress ≠ 0 ∧ rip = config.stopAddress) ∨
    (config.stayInModule = true ∧ config.moduleBase ≠ 0 ∧
      (rip < config.moduleBase ∨ config.moduleEnd ≤ rip))

instance (config : TraceConfig) (rip : ℕ) : Decidable (EndsAt config rip) :=
  inferInstanceAs (Decidable (_ ∨ _))

/-- Runs the traced thread to the instruction after a call. A wait that fails leaves the status of
an exit. -/
def runOverCall (k : TraceKernel) (step : ℕ) (s : Tracer) : Tracer :=
  match waitpid k s.traceTid (cont k (setBreakpoint k s s.traceTid) s.traceTid) with
  | (s, status) =>
    match status.getD .exited with
    | .exited | .signaled => detachAll k s
    | .continued | .stopped _ _ =>
      { removeBreakpoint k s s.traceTid with phase := .stepping (step + 1) }

/-- Steps the traced thread by one instruction. -/
def stepInstruction (k : TraceKernel) (step : ℕ) (s : Tracer) : Tracer :=
  match singleStep k s.traceTid s with
  | (s, false) => detachAll k s
  | (s, true) => { s with phase := .stepping (step + 1) }

/-- One turn of the loop that steps the traced thread. -/
def stepTurn (k : TraceKernel) (config : TraceConfig) (step : ℕ) (s : Tracer) : Tracer :=
  if config.maxSteps ≤ step ∨ k.cancelled s.clock then detachAll k s
  else
    match getContext k s.traceTid s with
    | (s, none) => detachAll k s
    | (s, some ctx) =>
      let decoded := k.instruction s.clock ctx.rip
      let text := (decoded.map fun i ↦ i.mnemonic ++ ' ' :: i.operands).getD "??".toList
      let s := { s with entries := s.entries ++ [⟨ctx.rip, text, ctx⟩] }
      if EndsAt config ctx.rip then detachAll k s
      else if (decoded.map (isCall config)).getD false then runOverCall k step s
      else stepInstruction k step s

/-- One turn of the loop the trace is in. -/
def turn (k : TraceKernel) (config : TraceConfig) (s : Tracer) : Tracer :=
  match s.phase with
  | .waiting => awaitStart k config s
  | .stepping step => stepTurn k config step s
  | .starting | .freezing | .detaching | .returned => s

/-- A trace after some turns. -/
def run (k : TraceKernel) (config : TraceConfig) : ℕ → Tracer → Tracer
  | 0, s => s
  | n + 1, s => run k config n (turn k config s)

end Tracer

end Cecore.Debug
