import Cecore.Debug.Tracee

/-!
# Software watchpoints

`CodeFinder::monitorLoopSoftware`: the pages of the watched bytes are protected, every access to
them faults, and the thread that faults is stepped with the protection lifted. Threads run until
they stop: a `WatchKernel` says what they do before each request, and which stop a wait finds.
Requests on a stopped thread are granted. `native` follows the registers that a thread would have
without the watch, `lost` the signals that are not delivered, `strays` the threads that get a fault
of the guard and `performed` the accesses of the time of the watch; they are no part of the program.
-/

set_option autoImplicit false
set_option relaxedAutoImplicit false

namespace Cecore.Debug.SoftwareWatch

/-! ### Pages -/

def pageSize : ℕ := 4096

/-- The protection lets an access through. -/
def allows (protection : MemProt) (write : Bool) : Bool :=
  protection.has (if write then MemProt.write else MemProt.read)

/-- `user_regs_struct`, with the registers that the code finder does not name as one. -/
structure ThreadRegs where
  rax : ℕ
  rbx : ℕ
  rcx : ℕ
  rdx : ℕ
  rdi : ℕ
  rsi : ℕ
  rip : ℕ
  origRax : ℕ
  cs : ℕ
  others : ℕ
  deriving DecidableEq, Repr, Inhabited

/-- The access to memory of an instruction, with the registers after it. -/
structure DataAccess where
  address : ℕ
  width : ℕ
  write : Bool
  after : ThreadRegs
  deriving DecidableEq, Repr

/-- `si_addr` of the fault of an access: the first of its bytes that the protection denies. -/
def faultAddress (protection : ℕ → MemProt) (access : DataAccess) : Option ℕ :=
  (List.range' access.address access.width).find? fun byte ↦
    !allows (protection (byte / pageSize)) access.write

/-- `mprotect` of whole pages. -/
def protect (start length : ℕ) (prot : MemProt) (protection : ℕ → MemProt) (page : ℕ) : MemProt :=
  if start ≤ page * pageSize ∧ page * pageSize < start + length then prot else protection page

/-! ### Threads -/

/-- What a thread stops for. -/
inductive Stop
  /-- `SIGSEGV` for an access, with `si_addr`. -/
  | fault (address : ℕ) (access : DataAccess)
  /-- A signal of the target, with what is in `si_addr`. -/
  | signal (signal address : ℕ)
  | clone (child : ℕ)
  /-- A `SIGTRAP` of the tracing: a step, an interrupt or a new thread. -/
  | trap
  | ended
  deriving DecidableEq, Repr

/-- A thread of the target. -/
structure Thread where
  alive : Bool
  traced : Bool
  halted : Bool
  /-- The stop that no wait has found yet. -/
  pending : Option Stop
  /-- The signal of the target whose delivery the thread is stopped for. -/
  held : Option ℕ
  /-- The access whose fault the thread is stopped at. -/
  stuck : Option DataAccess
  regs : ThreadRegs
  native : ThreadRegs
  deriving DecidableEq, Repr

/-- A thread that is not traced. -/
def Thread.free (alive : Bool) (regs : ThreadRegs) : Thread where
  alive := alive
  traced := false
  halted := false
  pending := none
  held := none
  stuck := none
  regs := regs
  native := regs

def Thread.running (t : Thread) : Bool := t.alive && !t.halted

/-- What threads do while they run. -/
inductive Happening
  | access (tid : ℕ) (access : DataAccess)
  | signal (tid signal address : ℕ)
  | clone (tid child : ℕ) (regs : ThreadRegs)
  | exit (tid : ℕ)
  deriving DecidableEq, Repr

/-- `SIGSEGV`. -/
def sigsegv : ℕ := 11

/-- `SIGSTOP`, `SIGTSTP`, `SIGTTIN` and `SIGTTOU`. -/
def groupStops : List ℕ := [19, 20, 21, 22]

/-- What is watched: `start` of a software watch. -/
structure WatchConfig where
  pid : ℕ
  targetAddress : ℕ
  size : ℕ
  writesOnly : Bool
  deriving DecidableEq, Repr

/-- What a watch takes from its surroundings. The functions of a clock answer the request made at
that time. -/
structure WatchKernel where
  /-- `ProcessHandle::queryRegions`. -/
  regions : List MemoryRegion
  /-- `ProcessHandle::allocate` of the page with the gadgets. -/
  allocates : Option ℕ
  /-- `ProcessHandle::threads`, in each of the passes over it. -/
  threads : ℕ → List ℕ
  seizes : (pass tid : ℕ) → Bool
  /-- What the threads do before the request. -/
  happens : ℕ → List Happening
  /-- The thread whose stop `waitpid(-1)` finds. -/
  picks : ℕ → ℕ
  /-- A stop that a thread takes before it executes the step. -/
  cuts : ℕ → Option Stop
  /-- `mprotect` succeeds. -/
  mprotects : ℕ → Bool
  interrupts : ℕ → Bool
  /-- `stopRequested_`. -/
  stopRequested : ℕ → Bool
  /-- The text and the bytes of the instruction at an address. -/
  disassemble : ℕ → Text × List UInt8

/-- What has been found out about an instruction. -/
structure CodeFinderResult where
  instructionAddress : ℕ := 0
  instructionText : Text := []
  instructionBytes : List UInt8 := []
  hitCount : ℕ := 0
  firstContext : ThreadRegs := default
  lastContext : ThreadRegs := default
  deriving DecidableEq, Repr

/-- Where `monitorLoopSoftware` is. -/
inductive Phase
  | starting
  | watching
  /-- The cleanup, with the threads still to be let go of. -/
  | leaving (rest : List ℕ) (restored : Bool)
  | returned
  deriving DecidableEq, Repr

/-- A target and the loop that watches it. -/
structure Monitor where
  threads : ℕ → Thread
  protection : ℕ → MemProt
  /-- The protection without the watch. -/
  original : ℕ → MemProt
  lost : List (ℕ × ℕ)
  strays : List ℕ
  /-- The accesses with the addresses of their instructions. -/
  performed : List (ℕ × DataAccess)
  phase : Phase
  /-- The page with the gadgets. -/
  scratch : ℕ
  attached : List ℕ
  results : ℕ → CodeFinderResult
  clock : ℕ

/-- A target that is not watched. -/
def Monitor.new (alive : ℕ → Bool) (regs : ℕ → ThreadRegs) (protection : ℕ → MemProt) : Monitor where
  threads := fun tid ↦ Thread.free (alive tid) (regs tid)
  protection := protection
  original := protection
  lost := []
  strays := []
  performed := []
  phase := .starting
  scratch := 0
  attached := []
  results := fun _ ↦ {}
  clock := 0

namespace WatchConfig

/-- `watchSize_`. -/
def watchSize (config : WatchConfig) : ℕ :=
  if config.size = 1 ∨ config.size = 2 ∨ config.size = 8 then config.size else 4

def watchLo (config : WatchConfig) : ℕ := config.targetAddress

def watchHi (config : WatchConfig) : ℕ := config.targetAddress + config.watchSize

def pageStart (config : WatchConfig) : ℕ := config.watchLo / pageSize * pageSize

def pageEnd (config : WatchConfig) : ℕ := (config.watchHi + (pageSize - 1)) / pageSize * pageSize

def pageLen (config : WatchConfig) : ℕ := config.pageEnd - config.pageStart

end WatchConfig

/-- The flags of `mprotect` for those of a region. -/
def toProt (protection : MemProt) : MemProt :=
  (if protection.has MemProt.read then 1 else 0) ||| (if protection.has MemProt.write then 2 else 0) |||
    (if protection.has MemProt.exec then 4 else 0)

/-- `origProt`: the protection of the region that the watched address is in. -/
def origProt (k : WatchKernel) (config : WatchConfig) : MemProt :=
  match k.regions.find? fun r ↦
    decide (r.base ≤ config.targetAddress ∧ config.targetAddress < r.base + r.size) with
  | some r => toProt r.protection
  | none => 1

/-- `guardProt`: no writes, or nothing at all. -/
def guardProt (k : WatchKernel) (config : WatchConfig) : MemProt :=
  if config.writesOnly then origProt k config &&& 5 else 0

/-- The signal that a thread gets for a stop without the watch. -/
def nativeSignal (original : ℕ → MemProt) : Stop → Option ℕ
  | .fault _ access => if (faultAddress original access).isSome then some sigsegv else none
  | .signal signal _ => some signal
  | .clone _ | .trap | .ended => none

namespace Monitor

/-! ### What threads do -/

def modify (tid : ℕ) (f : Thread → Thread) (s : Monitor) : Monitor :=
  { s with threads := Function.update s.threads tid (f (s.threads tid)) }

/-- A thread stops. -/
def stopAt (tid : ℕ) (stop : Stop) (s : Monitor) : Monitor :=
  s.modify tid fun t ↦
    { t with
      halted := true
      pending := some stop
      held := nativeSignal s.original stop
      stuck := match stop with
        | .fault _ access => some access
        | _ => t.stuck }

/-- A thread ends. -/
def finish (tid : ℕ) (s : Monitor) : Monitor :=
  s.modify tid fun t ↦
    { t with
      alive := false
      halted := false
      pending := if t.traced then some .ended else none
      held := none
      stuck := none }

/-- A thread executes an instruction with an access. -/
def perform (tid : ℕ) (access : DataAccess) (s : Monitor) : Monitor :=
  { s.modify tid fun t ↦ { t with regs := access.after, native := access.after, stuck := none } with
    performed := if s.phase = .watching then
        s.performed ++ [((s.threads tid).native.rip, access)] else s.performed }

/-- A fault of a thread that is not traced goes to the target. -/
def strayFault (tid : ℕ) (access : DataAccess) (s : Monitor) : Monitor :=
  if faultAddress s.original access = none then { s with strays := s.strays ++ [tid] } else s

/-- A thread begins, in `PTRACE_O_TRACECLONE` if its parent is traced. -/
def create (tid child : ℕ) (regs : ThreadRegs) (s : Monitor) : Monitor :=
  if (s.threads tid).traced then
    stopAt tid (.clone child) (stopAt child .trap
      (s.modify child fun _ ↦ { Thread.free true regs with traced := true }))
  else s.modify child fun _ ↦ Thread.free true regs

def happen (s : Monitor) : Happening → Monitor
  | .access tid access =>
    if (s.threads tid).running then
      match faultAddress s.protection access with
      | none => perform tid access s
      | some address =>
        if (s.threads tid).traced then stopAt tid (.fault address access) s
        else strayFault tid access s
    else s
  | .signal tid signal address =>
    if (s.threads tid).running && (s.threads tid).traced then stopAt tid (.signal signal address) s
    else s
  | .clone tid child regs =>
    if (s.threads tid).running && !(s.threads child).alive && (s.threads child).pending.isNone then
      create tid child regs s
    else s
  | .exit tid => if (s.threads tid).running then finish tid s else s

/-! ### Requests -/

/-- The threads run before a request. -/
def pass (k : WatchKernel) (s : Monitor) : Monitor :=
  { (k.happens s.clock).foldl happen s with clock := s.clock + 1 }

/-- The stop of a thread is found. -/
def collect (tid : ℕ) (s : Monitor) : Monitor × Option Stop :=
  (s.modify tid fun t ↦ { t with pending := none }, (s.threads tid).pending)

/-- `waitpid(-1)`. -/
def waitAny (k : WatchKernel) (s : Monitor) : Monitor × Option (ℕ × Stop) :=
  match collect (k.picks s.clock) (pass k s) with
  | (found, some stop) => (found, some (k.picks s.clock, stop))
  | (found, none) => (found, none)

/-- `waitpid` for one thread. -/
def waitFor (k : WatchKernel) (tid : ℕ) (s : Monitor) : Monitor × Option Stop := collect tid (pass k s)

/-- `PTRACE_SETREGS`. -/
def setRegs (tid : ℕ) (regs : ThreadRegs) (s : Monitor) : Monitor :=
  if (s.threads tid).halted then s.modify tid fun t ↦ { t with regs } else s

/-- A thread goes on with a signal, zero for none. -/
def deliver (tid signal : ℕ) (s : Monitor) : Monitor :=
  match (s.threads tid).held with
  | some held =>
    { s.modify tid fun t ↦ { t with held := none } with
      lost := if signal = held then s.lost else s.lost ++ [(tid, held)] }
  | none => if signal = 0 then s else { s with strays := s.strays ++ [tid] }

/-- `PTRACE_CONT`. -/
def cont (tid signal : ℕ) (s : Monitor) : Monitor :=
  if (s.threads tid).halted then
    (deliver tid signal s).modify tid fun t ↦ { t with halted := false, stuck := none }
  else s

/-- `PTRACE_DETACH`. -/
def detach (tid : ℕ) (s : Monitor) : Monitor :=
  if (s.threads tid).halted then
    (deliver tid 0 s).modify tid fun t ↦ { t with traced := false, halted := false, stuck := none }
  else s

/-- `PTRACE_INTERRUPT`. -/
def interrupt (k : WatchKernel) (tid : ℕ) (s : Monitor) : Monitor × Bool :=
  let t := (pass k s).threads tid
  if k.interrupts s.clock && t.alive && t.traced then
    (if t.halted then pass k s else stopAt tid .trap (pass k s), true)
  else (pass k s, false)

/-- The two gadgets. -/
def gadget64 (s : Monitor) : ℕ := s.scratch

def gadget32 (s : Monitor) : ℕ := s.scratch + 16

/-- `mprotect`, in the 64-bit and in the 32-bit ABI. -/
def nrMprotect : ℕ := 10

def nrMprotect32 : ℕ := 125

/-- The arguments of the `mprotect` that a thread at a gadget is about to execute. -/
def syscallAt (s : Monitor) (regs : ThreadRegs) : Option (ℕ × ℕ × MemProt) :=
  if regs.rip = s.gadget64 ∧ regs.rax = nrMprotect then some (regs.rdi, regs.rsi, regs.rdx)
  else if regs.rip = s.gadget32 ∧ regs.rax = nrMprotect32 then
    some (regs.rbx % 2 ^ 32, regs.rcx % 2 ^ 32, regs.rdx % 2 ^ 32)
  else none

/-- A stopped thread executes its next instruction. -/
def execute (k : WatchKernel) (clock tid : ℕ) (s : Monitor) : Monitor :=
  match s.syscallAt (s.threads tid).regs with
  | some (start, length, prot) =>
    stopAt tid .trap (if k.mprotects clock then
      { s with protection := protect start length prot s.protection } else s)
  | none =>
    match (s.threads tid).stuck with
    | none => stopAt tid .trap s
    | some access =>
      match faultAddress s.protection access with
      | none => stopAt tid .trap (perform tid access s)
      | some address => stopAt tid (.fault address access) s

/-- `PTRACE_SINGLESTEP`. -/
def singleStep (k : WatchKernel) (tid : ℕ) (s : Monitor) : Monitor × Bool :=
  if ((pass k s).threads tid).halted then
    match k.cuts s.clock with
    | some .ended => (finish tid (deliver tid 0 (pass k s)), true)
    | some stop => (stopAt tid stop (deliver tid 0 (pass k s)), true)
    | none => (execute k s.clock tid (deliver tid 0 (pass k s)), true)
  else (pass k s, false)

/-! ### The code finder -/

/-- The thread executes 32-bit code. -/
def mode32 (regs : ThreadRegs) : Bool := decide (regs.cs % 256 = 0x23)

/-- The registers for a syscall at a gadget. -/
def gadgetRegs (s : Monitor) (nr64 a1 a2 a3 : ℕ) (oldRegs : ThreadRegs) : ThreadRegs :=
  if mode32 oldRegs then
    { oldRegs with
      origRax := sizeModulus - 1
      rax := if nr64 = nrMprotect then nrMprotect32 else nr64 % 2 ^ 32
      rbx := a1
      rcx := a2
      rdx := a3
      rip := s.gadget32 }
  else
    { oldRegs with
      origRax := sizeModulus - 1
      rax := nr64
      rdi := a1
      rsi := a2
      rdx := a3
      rip := s.gadget64 }

/-- A single step, and the wait for it. -/
def stepOver (k : WatchKernel) (tid : ℕ) (s : Monitor) : Monitor :=
  match singleStep k tid s with
  | (s, true) => (waitFor k tid s).1
  | (s, false) => s

/-- `injectSyscallGadget`. -/
def injectSyscallGadget (k : WatchKernel) (tid nr64 a1 a2 a3 : ℕ) (s : Monitor) : Monitor :=
  if (s.threads tid).halted then
    let oldRegs := (s.threads tid).regs
    setRegs tid oldRegs (stepOver k tid (setRegs tid (gadgetRegs s nr64 a1 a2 a3 oldRegs) s))
  else s

/-- The pages of the watched bytes get a protection. -/
def protectPages (k : WatchKernel) (config : WatchConfig) (prot : MemProt) (tid : ℕ) (s : Monitor) :
    Monitor :=
  injectSyscallGadget k tid nrMprotect config.pageStart config.pageLen prot s

/-- `recordHit` of a software watch. -/
def recordHit (k : WatchKernel) (tid : ℕ) (s : Monitor) : Monitor :=
  if (s.threads tid).halted then
    let ctx := (s.threads tid).regs
    let entry := s.results ctx.rip
    let first := if entry.hitCount = 0 then
        { entry with
          instructionAddress := ctx.rip
          instructionText := (k.disassemble ctx.rip).1
          instructionBytes := (k.disassemble ctx.rip).2
          firstContext := ctx }
      else entry
    { s with
      results := Function.update s.results ctx.rip
        { first with lastContext := ctx, hitCount := entry.hitCount + 1 } }
  else s

/-- A fault on a page of the guard. -/
def guardedAccess (k : WatchKernel) (config : WatchConfig) (w fault : ℕ) (s : Monitor) : Monitor :=
  let s := if config.watchLo ≤ fault ∧ fault < config.watchHi then recordHit k w s else s
  let s := protectPages k config (origProt k config) w s
  let s := stepOver k w s
  let s := protectPages k config (guardProt k config) w s
  cont w 0 s

/-- A stop with `SIGSEGV`. -/
def segmentationFault (k : WatchKernel) (config : WatchConfig) (w fault : ℕ) (s : Monitor) : Monitor :=
  if config.pageStart ≤ fault ∧ fault < config.pageEnd then guardedAccess k config w fault s
  else cont w sigsegv s

/-- A clone event: the new thread is waited for and goes on. -/
def adopt (k : WatchKernel) (child : ℕ) (s : Monitor) : Monitor :=
  if child = 0 then s
  else
    let s := (waitFor k child s).1
    cont child 0 { s with attached := insertTid child s.attached }

/-- The thread has ended. -/
def forget (config : WatchConfig) (w : ℕ) (s : Monitor) : Monitor :=
  let attached := s.attached.erase w
  if w = config.pid ∨ attached = [] then { s with attached, phase := .leaving attached false }
  else { s with attached }

/-- The body of the loop for a stop that was found. -/
def handle (k : WatchKernel) (config : WatchConfig) (w : ℕ) (s : Monitor) : Stop → Monitor
  | .clone child => cont w 0 (adopt k child s)
  | .fault address _ => segmentationFault k config w address s
  | .signal signal address =>
    if signal = sigsegv then segmentationFault k config w address s
    else if signal = sigtrap ∨ signal ∈ groupStops then cont w 0 s
    else cont w signal s
  | .trap => cont w 0 s
  | .ended => forget config w s

/-- A thread is let go of, after one of them has restored the protection. -/
def leave (k : WatchKernel) (config : WatchConfig) (tid : ℕ) (rest : List ℕ) (restored : Bool)
    (s : Monitor) : Monitor :=
  match interrupt k tid s with
  | (s, false) => { s with phase := .leaving rest restored }
  | (s, true) =>
    match waitFor k tid s with
    | (s, none) | (s, some .ended) => { s with phase := .leaving rest restored }
    | (s, some _) =>
      let s := if restored then s else protectPages k config (origProt k config) tid s
      { detach tid s with phase := .leaving rest true }

/-- What `monitorLoopSoftware` does next, once it watches. -/
def turn (k : WatchKernel) (config : WatchConfig) (s : Monitor) : Monitor :=
  match s.phase with
  | .watching =>
    if k.stopRequested s.clock then { s with phase := .leaving s.attached false }
    else
      match waitAny k s with
      | (s, none) => s
      | (s, some (w, stop)) => handle k config w s stop
  | .leaving [] _ => { s with phase := .returned }
  | .leaving (tid :: rest) restored => leave k config tid rest restored s
  | .starting | .returned => s

/-! ### The start -/

/-- `PTRACE_SEIZE` of a thread that is not attached. -/
def seize (k : WatchKernel) (number : ℕ) (s : Monitor) (tid : ℕ) : Monitor :=
  if tid ∈ s.attached then s
  else
    let s := pass k s
    if k.seizes number tid && (s.threads tid).alive then
      { s.modify tid fun t ↦ { t with traced := true } with attached := insertTid tid s.attached }
    else s

/-- The passes over the threads of the target, as long as one finds a new one. -/
def seizePasses (k : WatchKernel) (config : WatchConfig) : (left number : ℕ) → Monitor → Monitor
  | 0, _, s => s
  | left + 1, number, s =>
    let current := if k.threads number = [] then [config.pid] else k.threads number
    let seized := current.foldl (seize k number) s
    if seized.attached.length = s.attached.length then seized
    else seizePasses k config left (number + 1) seized

/-- One thread is stopped to arm the guard. -/
def arm (k : WatchKernel) (config : WatchConfig) (armTid : ℕ) (s : Monitor) : Monitor :=
  match interrupt k armTid s with
  | (s, false) => s
  | (s, true) =>
    cont armTid 0 (protectPages k config (guardProt k config) armTid (waitFor k armTid s).1)

/-- `monitorLoopSoftware` up to its loop. -/
def start (k : WatchKernel) (config : WatchConfig) (s : Monitor) : Monitor :=
  match k.allocates with
  | none => { s with phase := .returned }
  | some scratch =>
    let s := seizePasses k config 6 0 { s with scratch }
    match s.attached with
    | [] => { s with phase := .returned }
    | armTid :: _ => { arm k config armTid s with phase := .watching }

/-- The watch after so many turns of its loops. -/
def run (k : WatchKernel) (config : WatchConfig) : ℕ → Monitor → Monitor
  | 0, s => s
  | n + 1, s => run k config n (turn k config s)

end Monitor

end Cecore.Debug.SoftwareWatch
