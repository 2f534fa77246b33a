import Cecore.Remote.Ceserver

/-!
# The remote protocol

`CeserverServer::serveClient` with all its commands, and the operations of `CEServerClient` that it
handles. Both sides work on byte streams: an operation sends the bytes of its request and takes its
reply off the front of what the server has sent. What the target answers is left open, a `Host` may
answer anything at any time.
-/

set_option autoImplicit false
set_option relaxedAutoImplicit false

namespace Cecore.Remote

open Library.LittleEndian Library.ByteStream Platform

def cmdReadProcessMemory : ℕ := 9
def cmdWriteProcessMemory : ℕ := 10
def cmdStartDebug : ℕ := 11
def cmdStopDebug : ℕ := 12
def cmdWaitForDebugEvent : ℕ := 13
def cmdContinueFromDebugEvent : ℕ := 14
def cmdSetBreakpoint : ℕ := 15
def cmdRemoveBreakpoint : ℕ := 16
def cmdAlloc : ℕ := 26
def cmdFree : ℕ := 27
def cmdCreateToolhelp32SnapshotEx : ℕ := 35
def th32csSnapThread : UInt32 := 0x4
def th32csSnapModule : UInt32 := 0x8

/-! ### The target -/

/-- The fields of a `ModuleInfo` that are sent. -/
structure RemoteModule where
  base : UInt64
  size : ℕ
  name : List UInt8
  path : List UInt8

structure DebugEventRec where
  debugEvent : UInt32
  tid : UInt64
  address : UInt64
  deriving DecidableEq, Repr

/-- What `LinuxProcessHandle` and `DebugSession` answer in a state of the target, and the state
after. -/
structure Host (σ : Type) where
  /-- The bytes that could be read, none where the read fails. -/
  read : σ → (handle : UInt32) → (address : UInt64) → (size : UInt32) → List UInt8 × σ
  /-- How many bytes could be written, zero where the write fails. -/
  write : σ → (handle : UInt32) → (address : UInt64) → List UInt8 → ℕ × σ
  queryRegions : σ → (handle : UInt32) → List MemoryRegion × σ
  threads : σ → (pid : UInt32) → List UInt32 × σ
  modules : σ → (pid : UInt32) → List RemoteModule × σ
  allocate : σ → (handle : UInt32) → (size : UInt32) → (preferredBase : UInt64) → Option UInt64 × σ
  free : σ → (handle : UInt32) → (address : UInt64) → (size : UInt32) → Bool × σ
  attach : σ → (handle : UInt32) → Bool × σ
  stopDebug : σ → σ
  /-- Whether the new breakpoint has an id above zero. -/
  setBreakpoint : σ → (address : UInt64) → (bpType bpSize : UInt32) → Bool × σ
  continueExecution : σ → σ
  /-- The front of the event queue when the wait ends. -/
  waitForEvent : σ → (timeoutMs : UInt32) → Option DebugEventRec × σ
  read_length_le : ∀ s handle address size,
    (read s handle address size).1.length ≤ size.toNat

/-- The server: the target, and whether there is a `dbg_`. -/
structure CeserverServer (σ : Type) where
  host : σ
  debugging : Bool

/-! ### The server -/

/-- `static_cast<int32_t>` of a size, as the bits that are sent. -/
def int32Bits (size : ℕ) : UInt32 := UInt32.ofNat size

def send32 (value : UInt32) : List UInt8 := toLE 4 value.toNat

def send64 (value : UInt64) : List UInt8 := toLE 8 value.toNat

/-- `sendEntry` of the module list. -/
def sendEntry (result : UInt32) (base : UInt64) (modSize : UInt32) (name : List UInt8) :
    List UInt8 :=
  send32 result ++ (send64 base ++ (send32 0 ++ (send32 modSize ++ (send32 0 ++
    (send32 (int32Bits name.length) ++ name)))))

/-- The name a module is sent with. -/
def RemoteModule.sentName (m : RemoteModule) : List UInt8 := if m.name = [] then m.path else m.name

def sendModule (m : RemoteModule) : List UInt8 :=
  sendEntry 1 m.base (int32Bits m.size) m.sentName

def sendModules (modules : List RemoteModule) : List UInt8 :=
  modules.flatMap sendModule ++ sendEntry 0 0 0 []

def sendThreads (threads : List UInt32) : List UInt8 :=
  send32 (int32Bits threads.length) ++ threads.flatMap send32

def sendEvent : Option DebugEventRec → List UInt8
  | none => send32 0
  | some rec => send32 1 ++ (send32 rec.debugEvent ++ (send64 rec.tid ++ send64 rec.address))

def sendVersion : List UInt8 :=
  toLE 4 1 ++ (toLE 1 serverVersion.length ++ serverVersion.map fun c ↦ UInt8.ofNat c.toNat)

variable {σ : Type}

namespace CeserverServer

/-- The reply to a snapshot request. -/
def sendSnapshot (host : Host σ) (server : CeserverServer σ) (flags pid : UInt32) :
    List UInt8 × CeserverServer σ :=
  if flags &&& th32csSnapThread ≠ 0 then
    let (threads, target) := host.threads server.host pid
    (sendThreads threads, { server with host := target })
  else if flags &&& th32csSnapModule ≠ 0 then
    let (modules, target) := host.modules server.host pid
    (sendModules modules, { server with host := target })
  else (send32 0, server)

/-- One turn of the loop of `serveClient`: the reply to the command in front of the stream, the
server after it and the stream behind the command, or nothing when the client is dropped. -/
def serve (host : Host σ) (server : CeserverServer σ) (stream : List UInt8) :
    Option (List UInt8 × CeserverServer σ × List UInt8) := do
  let (cmd, stream) ← recvNat 1 stream
  if cmd = cmdGetVersion then
    some (sendVersion, server, stream)
  else if cmd = cmdOpenProcess then
    let (pid, stream) ← recv32 stream
    some (send32 pid, server, stream)
  else if cmd = cmdCloseHandle then
    let (_, stream) ← recv32 stream
    some (send32 1, server, stream)
  else if cmd = cmdReadProcessMemory then
    let (handle, stream) ← recv32 stream
    let (address, stream) ← recv64 stream
    let (size, stream) ← recv32 stream
    let (_, stream) ← recvNat 1 stream
    let (data, target) := host.read server.host handle address size
    let got := int32Bits data.length
    some (send32 got ++ (if 0 < signedOf 4 got.toNat then data else []),
      { server with host := target }, stream)
  else if cmd = cmdWriteProcessMemory then
    let (handle, stream) ← recv32 stream
    let (address, stream) ← recv64 stream
    let (size, stream) ← recv32 stream
    let (data, stream) ← recvBytes (signedOf 4 size.toNat).toNat stream
    let (written, target) := host.write server.host handle address data
    some (send32 (int32Bits written), { server with host := target }, stream)
  else if cmd = cmdGetArchitecture then
    let (_, stream) ← recv32 stream
    some (toLE 1 archX86_64, server, stream)
  else if cmd = cmdVirtualQueryExFull then
    let (handle, stream) ← recv32 stream
    let (_, stream) ← recvNat 1 stream
    let (regions, target) := host.queryRegions server.host handle
    some (sendRegions regions, { server with host := target }, stream)
  else if cmd = cmdCreateToolhelp32SnapshotEx then
    let (flags, stream) ← recv32 stream
    let (pid, stream) ← recv32 stream
    let (reply, server) := sendSnapshot host server flags pid
    some (reply, server, stream)
  else if cmd = cmdAlloc then
    let (handle, stream) ← recv32 stream
    let (preferredBase, stream) ← recv64 stream
    let (size, stream) ← recv32 stream
    let (_, stream) ← recv32 stream
    let (address, target) := host.allocate server.host handle size preferredBase
    some (send64 (address.getD 0), { server with host := target }, stream)
  else if cmd = cmdFree then
    let (handle, stream) ← recv32 stream
    let (address, stream) ← recv64 stream
    let (size, stream) ← recv32 stream
    let (freed, target) := host.free server.host handle address size
    some (send32 (if freed then 1 else 0), { server with host := target }, stream)
  else if cmd = cmdStartDebug then
    let (handle, stream) ← recv32 stream
    let (attached, target) := host.attach server.host handle
    some (send32 (if attached then 1 else 0), ⟨target, true⟩, stream)
  else if cmd = cmdStopDebug then
    let (_, stream) ← recv32 stream
    some (send32 1, ⟨host.stopDebug server.host, false⟩, stream)
  else if cmd = cmdSetBreakpoint then
    let (_, stream) ← recv32 stream
    let (_, stream) ← recv32 stream
    let (_, stream) ← recv32 stream
    let (address, stream) ← recv64 stream
    let (bpType, stream) ← recv32 stream
    let (bpSize, stream) ← recv32 stream
    if server.debugging then
      let (created, target) := host.setBreakpoint server.host address bpType bpSize
      some (send32 (if created then 1 else 0),
        { server with host := host.continueExecution target }, stream)
    else some (send32 0, server, stream)
  else if cmd = cmdRemoveBreakpoint then
    let (_, stream) ← recv32 stream
    let (_, stream) ← recv32 stream
    let (_, stream) ← recv32 stream
    let (_, stream) ← recv32 stream
    some (send32 1, server, stream)
  else if cmd = cmdWaitForDebugEvent then
    let (_, stream) ← recv32 stream
    let (timeoutMs, stream) ← recv32 stream
    let (event, target) := host.waitForEvent server.host timeoutMs
    some (sendEvent event, { server with host := target }, stream)
  else if cmd = cmdContinueFromDebugEvent then
    let (_, stream) ← recv32 stream
    let (_, stream) ← recv32 stream
    let (_, stream) ← recv32 stream
    let target := if server.debugging then host.continueExecution server.host else server.host
    some (send32 1, { server with host := target }, stream)
  else none

end CeserverServer

/-! ### The client -/

structure CeModuleInfo where
  baseAddress : UInt64
  moduleSize : UInt32
  modulePart : UInt32
  fileOffset : UInt32
  name : List UInt8
  deriving DecidableEq, Repr

/-- An operation of `CEServerClient` whose command the server handles. -/
inductive Operation
  | getVersion
  | openProcess (pid : UInt32)
  | closeHandle (handle : UInt32)
  | virtualQueryExFull (handle : UInt32) (flags : UInt8)
  | readProcessMemory (handle : UInt32) (address : UInt64) (size : UInt32)
  | getArchitecture (handle : UInt32)
  | enumModules (pid : UInt32)
  | enumThreads (pid : UInt32)
  | allocateMemory (handle : UInt32) (preferredBase : UInt64) (size windowsProtection : UInt32)
  | freeMemory (handle : UInt32) (address : UInt64) (size : UInt32)
  | startDebug (handle : UInt32)
  | stopDebug (handle : UInt32)
  | waitForDebugEvent (handle timeoutMs : UInt32)
  | continueFromDebugEvent (handle tid signalToForward : UInt32)
  | setRemoteBreakpoint (handle tid debugReg : UInt32) (address : UInt64) (bpType bpSize : UInt32)
  | removeRemoteBreakpoint (handle tid debugReg wasWatchpoint : UInt32)
  /-- The size of the buffer is an `int32_t` that is not negative. -/
  | writeProcessMemory (handle : UInt32) (address : UInt64)
      (buffer : { bytes : List UInt8 // bytes.length < 2 ^ 31 })

/-- What an operation returns. -/
inductive Outcome
  | version (protocolVersion : UInt32) (versionString : List UInt8)
  | done
  | value (n : ℕ)
  | data (bytes : List UInt8)
  | regions (list : List CeRegion)
  | modules (list : List CeModuleInfo)
  | threads (list : List UInt32)
  | event (found : Option DebugEventRec)
  | failure (text : String)
  deriving DecidableEq

/-- The bytes an operation sends. -/
def Operation.request : Operation → List UInt8
  | .getVersion => toLE 1 cmdGetVersion
  | .openProcess pid => toLE 1 cmdOpenProcess ++ send32 pid
  | .closeHandle handle => toLE 1 cmdCloseHandle ++ send32 handle
  | .virtualQueryExFull handle flags =>
    toLE 1 cmdVirtualQueryExFull ++ (send32 handle ++ toLE 1 flags.toNat)
  | .readProcessMemory handle address size =>
    toLE 1 cmdReadProcessMemory ++ (send32 handle ++ (send64 address ++ (send32 size ++ toLE 1 0)))
  | .getArchitecture handle => toLE 1 cmdGetArchitecture ++ send32 handle
  | .enumModules pid =>
    toLE 1 cmdCreateToolhelp32SnapshotEx ++ (send32 th32csSnapModule ++ send32 pid)
  | .enumThreads pid =>
    toLE 1 cmdCreateToolhelp32SnapshotEx ++ (send32 th32csSnapThread ++ send32 pid)
  | .allocateMemory handle preferredBase size windowsProtection =>
    toLE 1 cmdAlloc ++ (send32 handle ++ (send64 preferredBase ++ (send32 size ++
      send32 windowsProtection)))
  | .freeMemory handle address size =>
    toLE 1 cmdFree ++ (send32 handle ++ (send64 address ++ send32 size))
  | .startDebug handle => toLE 1 cmdStartDebug ++ send32 handle
  | .stopDebug handle => toLE 1 cmdStopDebug ++ send32 handle
  | .waitForDebugEvent handle timeoutMs =>
    toLE 1 cmdWaitForDebugEvent ++ (send32 handle ++ send32 timeoutMs)
  | .continueFromDebugEvent handle tid signalToForward =>
    toLE 1 cmdContinueFromDebugEvent ++ (send32 handle ++ (send32 tid ++ send32 signalToForward))
  | .setRemoteBreakpoint handle tid debugReg address bpType bpSize =>
    toLE 1 cmdSetBreakpoint ++ (send32 handle ++ (send32 tid ++ (send32 debugReg ++
      (send64 address ++ (send32 bpType ++ send32 bpSize)))))
  | .removeRemoteBreakpoint handle tid debugReg wasWatchpoint =>
    toLE 1 cmdRemoveBreakpoint ++ (send32 handle ++ (send32 tid ++ (send32 debugReg ++
      send32 wasWatchpoint)))
  | .writeProcessMemory handle address buffer =>
    toLE 1 cmdWriteProcessMemory ++ (send32 handle ++ (send64 address ++
      (send32 (int32Bits buffer.val.length) ++ buffer.val)))

/-- The largest count and name size the client accepts. -/
def maxCount : ℕ := 2 ^ 20

/-- A count the client refuses, read as a signed number. -/
def countRefused (count : UInt32) : Bool :=
  decide (signedOf 4 count.toNat < 0 ∨ signedOf 4 count.toNat > maxCount)

/-- One entry of the module list: its `result` and what it says, or a failure. -/
def recvEntry (stream : List UInt8) : Option (Except String (UInt32 × CeModuleInfo) × List UInt8) := do
  let (result, stream) ← recv32 stream
  let (base, stream) ← recv64 stream
  let (part, stream) ← recv32 stream
  let (modSize, stream) ← recv32 stream
  let (fileOff, stream) ← recv32 stream
  let (nameSize, stream) ← recv32 stream
  if countRefused nameSize then
    some (.error "ceserver returned invalid module name size", stream)
  else
    let (name, stream) ← recvBytes nameSize.toNat stream
    some (.ok (result, ⟨base, modSize, part, fileOff, name⟩), stream)

/-- The loop of `enumModules`, with the modules it has room for. -/
def recvModules : (room : ℕ) → Reader (Except String (List CeModuleInfo))
  | room, stream => do
    let (entry, stream) ← recvEntry stream
    match entry with
    | .error text => some (.error text, stream)
    | .ok (result, found) =>
      if result = 0 then some (.ok [], stream)
      else
        match room with
        | 0 => some (.error "ceserver returned too many modules", stream)
        | room + 1 =>
          let (others, stream) ← recvModules room stream
          some (others.map (found :: ·), stream)

/-- A reply that is one number. -/
def recvValue (stream : List UInt8) : Option (Outcome × List UInt8) := do
  let (result, stream) ← recv32 stream
  some (.value result.toNat, stream)

/-- What an operation takes off the bytes the server has sent. -/
def Operation.receive : Operation → Reader Outcome
  | .getVersion => fun stream ↦ do
    let (protocolVersion, stream) ← recv32 stream
    let (stringSize, stream) ← recvNat 1 stream
    let (versionString, stream) ← recvBytes stringSize stream
    some (.version protocolVersion versionString, stream)
  | .closeHandle _ => fun stream ↦ do
    let (_, stream) ← recv32 stream
    some (.done, stream)
  | .virtualQueryExFull _ _ => fun stream ↦ do
    let (count, stream) ← recv32 stream
    if countRefused count then some (.failure "ceserver returned invalid region count", stream)
    else
      let (regions, stream) ← recvList recvRegion count.toNat stream
      some (.regions regions, stream)
  | .readProcessMemory _ _ size => fun stream ↦ do
    let (read, stream) ← recv32 stream
    if signedOf 4 read.toNat < 0 ∨ read.toNat > size.toNat then
      some (.failure "ceserver returned invalid read length", stream)
    else
      let (buffer, stream) ← recvBytes read.toNat stream
      some (.data buffer, stream)
  | .getArchitecture _ => fun stream ↦ do
    let (arch, stream) ← recvNat 1 stream
    some (.value arch, stream)
  | .enumModules _ => fun stream ↦ do
    let (modules, stream) ← recvModules maxCount stream
    match modules with
    | .error text => some (.failure text, stream)
    | .ok modules => some (.modules modules, stream)
  | .enumThreads _ => fun stream ↦ do
    let (count, stream) ← recv32 stream
    if countRefused count then some (.failure "ceserver returned invalid thread count", stream)
    else
      let (tids, stream) ← recvList recv32 count.toNat stream
      some (.threads tids, stream)
  | .allocateMemory _ _ _ _ => fun stream ↦ do
    let (address, stream) ← recv64 stream
    some (.value address.toNat, stream)
  | .waitForDebugEvent _ _ => fun stream ↦ do
    let (result, stream) ← recv32 stream
    if result = 0 then some (.event none, stream)
    else
      let (debugEvent, stream) ← recv32 stream
      let (threadId, stream) ← recv64 stream
      let (address, stream) ← recv64 stream
      some (.event (some ⟨debugEvent, threadId, address⟩), stream)
  | .writeProcessMemory _ _ buffer => fun stream ↦ do
    let (written, stream) ← recv32 stream
    if signedOf 4 written.toNat < 0 ∨ written.toNat > buffer.val.length then
      some (.failure "ceserver returned invalid write length", stream)
    else some (.value written.toNat, stream)
  | .openProcess _ | .freeMemory _ _ _ | .startDebug _ | .stopDebug _ | .continueFromDebugEvent _ _ _
  | .setRemoteBreakpoint _ _ _ _ _ _ | .removeRemoteBreakpoint _ _ _ _ => recvValue

/-! ### A connection -/

/-- Both ends of a connection, with the bytes of requests and of replies that are still unread. -/
structure Link (σ : Type) where
  server : CeserverServer σ
  requests : List UInt8
  replies : List UInt8

/-- One operation: the server serves its request, and the client reads its reply. Nothing stands for
a client that is dropped or waits for bytes that never come. -/
def Link.exchange (host : Host σ) (link : Link σ) (op : Operation) : Option (Outcome × Link σ) := do
  let (reply, server, requests) ← link.server.serve host (link.requests ++ op.request)
  let (outcome, replies) ← op.receive (link.replies ++ reply)
  some (outcome, ⟨server, requests, replies⟩)

def Link.exchanges (host : Host σ) : Link σ → List Operation → Option (List Outcome × Link σ)
  | link, [] => some ([], link)
  | link, op :: ops => do
    let (outcome, link) ← link.exchange host op
    let (outcomes, link) ← Link.exchanges host link ops
    some (outcome :: outcomes, link)

end Cecore.Remote
