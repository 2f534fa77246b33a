import Cecore.Remote.Protocol

/-!
# Lock-step

`Operation.call` says what an operation means: a call of the target. Over a connection with nothing
unread, an exchange is that call, and it leaves nothing unread (`exchange_eq_call`): the server
reads exactly the request, and the client reads exactly the reply. The client refuses long lists and
names and leaves the rest of such a reply unread, so the target must keep within its bounds.
-/

set_option autoImplicit false
set_option relaxedAutoImplicit false

namespace Cecore.Remote

open Library.LittleEndian Library.ByteStream Platform

variable {σ : Type}

/-! ### What an operation means -/

/-- A region as it is sent. -/
def wireRegion (region : MemoryRegion) : CeRegion where
  baseAddress := region.base % 256 ^ 8
  size := region.size % 256 ^ 8
  protection := region.protection % 256 ^ 4
  type := memTypeNumber region.type

/-- A module as it is sent. -/
def wireModule (m : RemoteModule) : CeModuleInfo := ⟨m.base, int32Bits m.size, 0, 0, m.sentName⟩

namespace Operation

/-- An operation as a call of the target. -/
def call (host : Host σ) (server : CeserverServer σ) : Operation → Outcome × CeserverServer σ
  | .getVersion => (.version 1 (serverVersion.map fun c ↦ UInt8.ofNat c.toNat), server)
  | .openProcess pid => (.value pid.toNat, server)
  | .closeHandle _ => (.done, server)
  | .virtualQueryExFull handle _ =>
    let (regions, target) := host.queryRegions server.host handle
    (.regions (regions.map wireRegion), { server with host := target })
  | .readProcessMemory handle address size =>
    let (data, target) := host.read server.host handle address size
    (if data.length < 2 ^ 31 then .data data
      else .failure "ceserver returned invalid read length", { server with host := target })
  | .getArchitecture _ => (.value archX86_64, server)
  | .enumModules pid =>
    let (modules, target) := host.modules server.host pid
    (.modules (modules.map wireModule), { server with host := target })
  | .enumThreads pid =>
    let (threads, target) := host.threads server.host pid
    (.threads threads, { server with host := target })
  | .allocateMemory handle preferredBase size _ =>
    let (address, target) := host.allocate server.host handle size preferredBase
    (.value (address.getD 0).toNat, { server with host := target })
  | .freeMemory handle address size =>
    let (freed, target) := host.free server.host handle address size
    (.value (if freed then 1 else 0), { server with host := target })
  | .startDebug handle =>
    let (attached, target) := host.attach server.host handle
    (.value (if attached then 1 else 0), ⟨target, true⟩)
  | .stopDebug _ => (.value 1, ⟨host.stopDebug server.host, false⟩)
  | .waitForDebugEvent _ timeoutMs =>
    let (event, target) := host.waitForEvent server.host timeoutMs
    (.event event, { server with host := target })
  | .continueFromDebugEvent _ _ _ =>
    (.value 1, { server with
      host := if server.debugging then host.continueExecution server.host else server.host })
  | .setRemoteBreakpoint _ _ _ address bpType bpSize =>
    if server.debugging then
      let (created, target) := host.setBreakpoint server.host address bpType bpSize
      (.value (if created then 1 else 0), { server with host := host.continueExecution target })
    else (.value 0, server)
  | .removeRemoteBreakpoint _ _ _ _ => (.value 1, server)
  | .writeProcessMemory handle address buffer =>
    let (written, target) := host.write server.host handle address buffer.val
    let result := written % 2 ^ 32
    (if result < 2 ^ 31 ∧ result ≤ buffer.val.length then .value result
      else .failure "ceserver returned invalid write length", { server with host := target })

/-- The lists of the target are no longer than the client accepts, and neither are the names. -/
def Bounded (host : Host σ) (server : CeserverServer σ) : Operation → Prop
  | .virtualQueryExFull handle _ => (host.queryRegions server.host handle).1.length ≤ maxCount
  | .enumThreads pid => (host.threads server.host pid).1.length ≤ maxCount
  | .enumModules pid => (host.modules server.host pid).1.length ≤ maxCount ∧
      ∀ m ∈ (host.modules server.host pid).1, m.sentName.length ≤ maxCount
  | _ => True

end Operation

/-! ### Numbers and lists -/

@[simp] theorem recv32_send32 (value : UInt32) (rest : List UInt8) :
    recv32 (send32 value ++ rest) = some (value, rest) := decodes_recv32 value rest

@[simp] theorem recv32_send32_end (value : UInt32) : recv32 (send32 value) = some (value, []) :=
  (decodes_recv32 value).whole

@[simp] theorem recv64_send64 (value : UInt64) (rest : List UInt8) :
    recv64 (send64 value ++ rest) = some (value, rest) := decodes_recv64 value rest

@[simp] theorem recv64_send64_end (value : UInt64) : recv64 (send64 value) = some (value, []) :=
  (decodes_recv64 value).whole

theorem toNat_int32Bits {size : ℕ} (hsize : size < 2 ^ 32) : (int32Bits size).toNat = size :=
  UInt32.toNat_ofNat_of_lt' hsize

/-- A size below 2^31 is read as it is. -/
theorem signedOf_int32Bits {size : ℕ} (hsize : size < 2 ^ 31) :
    signedOf 4 (int32Bits size).toNat = size := by
  rw [toNat_int32Bits (by omega), signedOf, if_pos (by omega)]

theorem countRefused_of_le {count : ℕ} (hcount : count ≤ maxCount) :
    countRefused (int32Bits count) = false := by
  rw [maxCount] at hcount
  have hsigned : signedOf 4 (int32Bits count).toNat = count := signedOf_int32Bits (by omega)
  rw [countRefused, hsigned, maxCount]
  simp
  omega

theorem decodes_recvRegion (region : MemoryRegion) :
    Decodes recvRegion (sendRegion region) (wireRegion region) := by
  intro rest
  have htype : memTypeNumber region.type % 256 ^ 4 = memTypeNumber region.type := by
    cases region.type <;> rfl
  rw [recvRegion, sendRegion, List.append_assoc, List.append_assoc, List.append_assoc,
    decodes_recvNat 4 region.protection]
  simp only [Option.bind_eq_bind, Option.bind_some]
  rw [decodes_recvNat 4 (memTypeNumber region.type)]
  simp only [Option.bind_some]
  rw [decodes_recvNat 8 region.base]
  simp only [Option.bind_some]
  rw [decodes_recvNat 8 region.size, htype]
  rfl

/-- One entry of the module list. -/
theorem recvEntry_sendEntry (result : UInt32) (base : UInt64) (modSize : UInt32)
    {name : List UInt8} (hname : name.length ≤ maxCount) (rest : List UInt8) :
    recvEntry (sendEntry result base modSize name ++ rest) =
      some (.ok (result, ⟨base, modSize, 0, 0, name⟩), rest) := by
  have hlength : (int32Bits name.length).toNat = name.length :=
    toNat_int32Bits (by rw [maxCount] at hname; omega)
  rw [recvEntry, sendEntry]
  simp only [List.append_assoc, recv32_send32, recv64_send64, Option.bind_eq_bind, Option.bind_some,
    countRefused_of_le hname, Bool.false_eq_true, if_false, hlength]
  rw [decodes_recvBytes name rest]
  rfl

/-- The client has room for the modules, so that it reads to the end of the list. -/
theorem recvModules_sendModules {modules : List RemoteModule} {room : ℕ}
    (hroom : modules.length ≤ room) (hnames : ∀ m ∈ modules, m.sentName.length ≤ maxCount)
    (rest : List UInt8) :
    recvModules room (sendModules modules ++ rest) = some (.ok (modules.map wireModule), rest) := by
  induction modules generalizing room with
  | nil =>
    have hend := @recvEntry_sendEntry 0 0 0 [] (Nat.zero_le maxCount) rest
    rw [recvModules, sendModules, List.flatMap_nil, List.nil_append, hend]
    rfl
  | cons m others ih =>
    cases room with
    | zero => exact absurd hroom (Nat.not_succ_le_zero _)
    | succ room =>
      have hfirst := recvEntry_sendEntry 1 m.base (int32Bits m.size)
        (hnames m List.mem_cons_self) (sendModules others ++ rest)
      have hothers := ih (Nat.le_of_succ_le_succ hroom)
        fun other hother ↦ hnames other (List.mem_cons_of_mem _ hother)
      have hsplit : sendModules (m :: others) ++ rest =
          sendModule m ++ (sendModules others ++ rest) := by
        rw [sendModules, List.flatMap_cons, List.append_assoc, List.append_assoc,
          ← List.append_assoc _ _ rest]
        rfl
      rw [recvModules, hsplit, sendModule, hfirst]
      simp only [Option.bind_eq_bind, Option.bind_some]
      rw [if_neg (by decide), hothers]
      rfl

/-! ### Exchanges -/

attribute [local grind =] CeserverServer.serve Operation.request Operation.receive Operation.call

/-- The command in front of a request. -/
theorem recvNat_command {cmd : ℕ} (hcmd : cmd < 256) (rest : List UInt8) :
    recvNat 1 (toLE 1 cmd ++ rest) = some (cmd, rest) := by
  rw [decodes_recvNat 1 cmd, Nat.mod_eq_of_lt (by omega)]

/-- The server reads exactly the request of an operation, and the client exactly the reply. -/
structure InStep (host : Host σ) (server : CeserverServer σ) (op : Operation) (reply : List UInt8) :
    Prop where
  served : server.serve host op.request = some (reply, (op.call host server).2, [])
  received : op.Bounded host server → op.receive reply = some ((op.call host server).1, [])

variable (host : Host σ) (server : CeserverServer σ)

@[simp] theorem recvValue_send32 (value : UInt32) :
    recvValue (send32 value) = some (.value value.toNat, []) := by
  simp [recvValue]

theorem inStep_getVersion : InStep host server .getVersion sendVersion where
  served := by
    rw [Operation.request, CeserverServer.serve, (decodes_recvNat 1 cmdGetVersion).whole]
    rfl
  received := fun _ ↦ by
    have htext : (serverVersion.map fun c ↦ UInt8.ofNat c.toNat).length = serverVersion.length :=
      List.length_map _
    have hlength : recvNat 1 (toLE 1 serverVersion.length ++ serverVersion.map fun c ↦
        UInt8.ofNat c.toNat) = some (serverVersion.length, serverVersion.map fun c ↦
          UInt8.ofNat c.toNat) := recvNat_command (by decide) _
    have hbytes := (decodes_recvBytes (serverVersion.map fun c ↦ UInt8.ofNat c.toNat)).whole
    rw [htext] at hbytes
    rw [Operation.receive, sendVersion]
    change ((recv32 (send32 1 ++ _)).bind _) = _
    rw [recv32_send32]
    simp only [Option.bind_eq_bind, Option.bind_some, hlength, hbytes]
    rfl

theorem inStep_virtualQueryExFull (handle : UInt32) (flags : UInt8) :
    InStep host server (.virtualQueryExFull handle flags)
      (sendRegions (host.queryRegions server.host handle).1) where
  served := by
    have hflags := (decodes_recvNat 1 flags.toNat).whole
    rw [Operation.request, CeserverServer.serve, recvNat_command (by decide)]
    simp +decide [Operation.call, hflags]
  received := fun hbounded ↦ by
    change (host.queryRegions server.host handle).1.length ≤ maxCount at hbounded
    set regions := (host.queryRegions server.host handle).1 with hregions
    have hlength : regions.length < 2 ^ 32 := by
      rw [maxCount] at hbounded
      omega
    have hcount : sendRegions regions =
        send32 (int32Bits regions.length) ++ regions.flatMap sendRegion := by
      rw [sendRegions, send32, toNat_int32Bits hlength]
    have hall := (decodes_recvList fun region (_ : region ∈ regions) ↦
      decodes_recvRegion region).whole
    rw [Operation.receive, hcount]
    simp only [recv32_send32, Option.bind_eq_bind, Option.bind_some, countRefused_of_le hbounded,
      Bool.false_eq_true, if_false, toNat_int32Bits hlength, hall]
    rfl

theorem inStep_enumThreads (pid : UInt32) :
    InStep host server (.enumThreads pid) (sendThreads (host.threads server.host pid).1) where
  served := by
    rw [Operation.request, CeserverServer.serve, recvNat_command (by decide)]
    simp +decide [Operation.call, CeserverServer.sendSnapshot]
  received := fun hbounded ↦ by
    change (host.threads server.host pid).1.length ≤ maxCount at hbounded
    set threads := (host.threads server.host pid).1 with hthreads
    have hlength : threads.length < 2 ^ 32 := by
      rw [maxCount] at hbounded
      omega
    have hall := (decodes_recvList fun tid (_ : tid ∈ threads) ↦ decodes_recv32 tid).whole
    rw [List.map_id'] at hall
    rw [Operation.receive, sendThreads]
    simp only [recv32_send32, Option.bind_eq_bind, Option.bind_some, countRefused_of_le hbounded,
      Bool.false_eq_true, if_false, toNat_int32Bits hlength]
    rw [show threads.flatMap send32 = threads.flatMap fun tid ↦ toLE 4 tid.toNat from rfl, hall]
    rfl

theorem inStep_enumModules (pid : UInt32) :
    InStep host server (.enumModules pid) (sendModules (host.modules server.host pid).1) where
  served := by
    rw [Operation.request, CeserverServer.serve, recvNat_command (by decide)]
    simp +decide [Operation.call, CeserverServer.sendSnapshot]
  received := fun ⟨hlength, hnames⟩ ↦ by
    have hall := recvModules_sendModules hlength hnames []
    rw [List.append_nil] at hall
    rw [Operation.receive]
    dsimp only
    rw [hall]
    rfl

/-- The reply to a read: how many bytes there are, and the bytes. -/
theorem inStep_readProcessMemory (handle : UInt32) (address : UInt64) (size : UInt32) :
    ∃ reply, InStep host server (.readProcessMemory handle address size) reply := by
  set data := (host.read server.host handle address size).1 with hdata
  have hle : data.length ≤ size.toNat := host.read_length_le server.host handle address size
  have hsize := size.toNat_lt
  refine ⟨send32 (int32Bits data.length) ++
    (if 0 < signedOf 4 (int32Bits data.length).toNat then data else []), ⟨?_, fun _ ↦ ?_⟩⟩
  · rw [Operation.request, CeserverServer.serve, recvNat_command (by decide)]
    simp +decide [Operation.call, (decodes_recvNat 1 0).whole, hdata]
  · have hbits : (int32Bits data.length).toNat = data.length := toNat_int32Bits (by omega)
    rw [Operation.receive]
    simp only [recv32_send32, Option.bind_eq_bind, Option.bind_some, hbits]
    by_cases hsigned : data.length < 2 ^ 31
    · have hread : signedOf 4 data.length = data.length := by
        rw [signedOf, if_pos (by omega)]
      have haccepted : ¬ (signedOf 4 data.length < 0 ∨ data.length > size.toNat) := by
        rw [hread]
        omega
      have hbytes : (if 0 < signedOf 4 data.length then data else []) = data := by
        rw [hread]
        split_ifs with hpositive
        · rfl
        · exact (List.eq_nil_of_length_eq_zero (by omega)).symm
      rw [if_neg haccepted, hbytes, (decodes_recvBytes data).whole]
      simp only [Option.bind_some, Operation.call, ← hdata, if_pos hsigned]
    · have hread : signedOf 4 data.length < 0 := by
        rw [signedOf, if_neg (by omega)]
        omega
      rw [if_pos (Or.inl hread), if_neg (by omega)]
      simp only [Operation.call, ← hdata, if_neg hsigned]

theorem inStep_writeProcessMemory (handle : UInt32) (address : UInt64)
    (buffer : { bytes : List UInt8 // bytes.length < 2 ^ 31 }) :
    InStep host server (.writeProcessMemory handle address buffer)
      (send32 (int32Bits (host.write server.host handle address buffer.val).1)) where
  served := by
    have hbytes := (decodes_recvBytes buffer.val).whole
    rw [Operation.request, CeserverServer.serve, recvNat_command (by decide)]
    simp +decide [Operation.call, signedOf_int32Bits buffer.property, hbytes]
  received := fun _ ↦ by
    have hbits : (int32Bits (host.write server.host handle address buffer.val).1).toNat =
        (host.write server.host handle address buffer.val).1 % 2 ^ 32 := UInt32.toNat_ofNat'
    rw [Operation.receive]
    simp only [recv32_send32_end, Option.bind_eq_bind, Option.bind_some, hbits, Operation.call]
    have hbelow : (host.write server.host handle address buffer.val).1 % 2 ^ 32 < 2 ^ 32 :=
      Nat.mod_lt _ (by decide)
    have hrefused : (signedOf 4 ((host.write server.host handle address buffer.val).1 % 2 ^ 32) < 0 ∨
        (host.write server.host handle address buffer.val).1 % 2 ^ 32 > buffer.val.length) ↔
          ¬ ((host.write server.host handle address buffer.val).1 % 2 ^ 32 < 2 ^ 31 ∧
            (host.write server.host handle address buffer.val).1 % 2 ^ 32 ≤ buffer.val.length) := by
      unfold signedOf
      split_ifs <;> omega
    by_cases haccepted : (host.write server.host handle address buffer.val).1 % 2 ^ 32 < 2 ^ 31 ∧
        (host.write server.host handle address buffer.val).1 % 2 ^ 32 ≤ buffer.val.length
    · rw [if_neg (fun h ↦ hrefused.mp h haccepted), if_pos haccepted]
    · rw [if_pos (hrefused.mpr haccepted), if_neg haccepted]

theorem inStep_waitForDebugEvent (handle timeoutMs : UInt32) :
    InStep host server (.waitForDebugEvent handle timeoutMs)
      (sendEvent (host.waitForEvent server.host timeoutMs).1) where
  served := by
    rw [Operation.request, CeserverServer.serve, recvNat_command (by decide)]
    simp +decide [Operation.call]
  received := fun _ ↦ by
    cases hevent : (host.waitForEvent server.host timeoutMs).1 <;>
      simp [Operation.receive, Operation.call, sendEvent, hevent]

/-- Every operation is in step with the server. -/
theorem exists_inStep (op : Operation) : ∃ reply, InStep host server op reply := by
  have hflag : ∀ flag : Bool, (if flag = true then (1 : UInt32) else 0).toNat =
      if flag = true then 1 else 0 := by decide
  cases op with
  | getVersion => exact ⟨_, inStep_getVersion host server⟩
  | virtualQueryExFull handle flags => exact ⟨_, inStep_virtualQueryExFull host server handle flags⟩
  | readProcessMemory handle address size =>
    exact inStep_readProcessMemory host server handle address size
  | enumModules pid => exact ⟨_, inStep_enumModules host server pid⟩
  | enumThreads pid => exact ⟨_, inStep_enumThreads host server pid⟩
  | waitForDebugEvent handle timeoutMs =>
    exact ⟨_, inStep_waitForDebugEvent host server handle timeoutMs⟩
  | writeProcessMemory handle address buffer =>
    exact ⟨_, inStep_writeProcessMemory host server handle address buffer⟩
  | openProcess pid =>
    refine ⟨send32 pid, ⟨?_, fun _ ↦ recvValue_send32 pid⟩⟩
    rw [Operation.request, CeserverServer.serve, recvNat_command (by decide)]
    simp +decide [Operation.call]
  | closeHandle handle =>
    refine ⟨send32 1, ⟨?_, fun _ ↦ by simp [Operation.receive, Operation.call]⟩⟩
    rw [Operation.request, CeserverServer.serve, recvNat_command (by decide)]
    simp +decide [Operation.call]
  | getArchitecture handle =>
    refine ⟨toLE 1 archX86_64, ⟨?_, fun _ ↦ rfl⟩⟩
    rw [Operation.request, CeserverServer.serve, recvNat_command (by decide)]
    simp +decide [Operation.call]
  | allocateMemory handle preferredBase size windowsProtection =>
    refine ⟨send64 ((host.allocate server.host handle size preferredBase).1.getD 0), ⟨?_, fun _ ↦ ?_⟩⟩
    · rw [Operation.request, CeserverServer.serve, recvNat_command (by decide)]
      simp +decide [Operation.call]
    · simp [Operation.receive, Operation.call]
  | freeMemory handle address size =>
    refine ⟨send32 (if (host.free server.host handle address size).1 then 1 else 0), ⟨?_, fun _ ↦ ?_⟩⟩
    · rw [Operation.request, CeserverServer.serve, recvNat_command (by decide)]
      simp +decide [Operation.call]
    · rw [Operation.receive, recvValue_send32, hflag]
      rfl
  | startDebug handle =>
    refine ⟨send32 (if (host.attach server.host handle).1 then 1 else 0), ⟨?_, fun _ ↦ ?_⟩⟩
    · rw [Operation.request, CeserverServer.serve, recvNat_command (by decide)]
      simp +decide [Operation.call]
    · rw [Operation.receive, recvValue_send32, hflag]
      rfl
  | stopDebug handle =>
    refine ⟨send32 1, ⟨?_, fun _ ↦ recvValue_send32 1⟩⟩
    rw [Operation.request, CeserverServer.serve, recvNat_command (by decide)]
    simp +decide [Operation.call]
  | continueFromDebugEvent handle tid signalToForward =>
    refine ⟨send32 1, ⟨?_, fun _ ↦ recvValue_send32 1⟩⟩
    rw [Operation.request, CeserverServer.serve, recvNat_command (by decide)]
    simp +decide [Operation.call]
  | setRemoteBreakpoint handle tid debugReg address bpType bpSize =>
    cases hdebugging : server.debugging with
    | false =>
      refine ⟨send32 0, ⟨?_, fun _ ↦ ?_⟩⟩
      · rw [Operation.request, CeserverServer.serve, recvNat_command (by decide)]
        simp +decide [Operation.call, hdebugging]
      · rw [Operation.receive, recvValue_send32, Operation.call, hdebugging]
        rfl
    | true =>
      refine ⟨send32 (if (host.setBreakpoint server.host address bpType bpSize).1 then 1 else 0),
        ⟨?_, fun _ ↦ ?_⟩⟩
      · rw [Operation.request, CeserverServer.serve, recvNat_command (by decide)]
        simp +decide [Operation.call, hdebugging]
      · rw [Operation.receive, recvValue_send32, hflag, Operation.call, hdebugging]
        rfl
  | removeRemoteBreakpoint handle tid debugReg wasWatchpoint =>
    refine ⟨send32 1, ⟨?_, fun _ ↦ recvValue_send32 1⟩⟩
    rw [Operation.request, CeserverServer.serve, recvNat_command (by decide)]
    simp +decide [Operation.call]

/-! ### Connections -/

/-- With nothing unread before it, an exchange is the call, and leaves nothing unread. -/
theorem exchange_eq_call (op : Operation) (hbounded : op.Bounded host server) :
    Link.exchange host ⟨server, [], []⟩ op =
      some ((op.call host server).1, ⟨(op.call host server).2, [], []⟩) := by
  obtain ⟨reply, hserved, hreceived⟩ := exists_inStep host server op
  rw [Link.exchange]
  simp only [List.nil_append, hserved, Option.bind_eq_bind, Option.bind_some, hreceived hbounded]

/-- A sequence of operations as calls of the target. -/
def calls (host : Host σ) : CeserverServer σ → List Operation → List Outcome × CeserverServer σ
  | server, [] => ([], server)
  | server, op :: ops =>
    let (outcomes, final) := calls host (op.call host server).2 ops
    ((op.call host server).1 :: outcomes, final)

/-- The target keeps within the bounds of the client whenever it is asked for a list. -/
def BoundedRun (host : Host σ) : CeserverServer σ → List Operation → Prop
  | _, [] => True
  | server, op :: ops => op.Bounded host server ∧ BoundedRun host (op.call host server).2 ops

/-- Over any sequence of operations the connection stays in step: each exchange is the call it
stands for, and nothing is ever left unread. -/
theorem exchanges_eq_calls (ops : List Operation) (hbounded : BoundedRun host server ops) :
    Link.exchanges host ⟨server, [], []⟩ ops =
      some ((calls host server ops).1, ⟨(calls host server ops).2, [], []⟩) := by
  induction ops generalizing server with
  | nil => rfl
  | cons op ops ih =>
    obtain ⟨hfirst, hrest⟩ := hbounded
    rw [Link.exchanges, exchange_eq_call host server op hfirst]
    simp only [Option.bind_eq_bind, Option.bind_some, ih _ hrest]
    rfl

/-- A target with some threads and nothing else. -/
def threadsHost (σ : Type) (threads : List UInt32) : Host σ where
  read := fun s _ _ _ ↦ ([], s)
  write := fun s _ _ _ ↦ (0, s)
  queryRegions := fun s _ ↦ ([], s)
  threads := fun s _ ↦ (threads, s)
  modules := fun s _ ↦ ([], s)
  allocate := fun s _ _ _ ↦ (none, s)
  free := fun s _ _ _ ↦ (false, s)
  attach := fun s _ ↦ (true, s)
  stopDebug := fun s ↦ s
  setBreakpoint := fun s _ _ _ ↦ (true, s)
  continueExecution := fun s ↦ s
  waitForEvent := fun s _ ↦ (none, s)
  read_length_le := fun _ _ _ _ ↦ Nat.zero_le _

/-- Threads, modules and a failing read, one after the other. -/
theorem exchanges_eq_calls_threads :
    Link.exchanges (threadsHost Unit [7, 8]) ⟨⟨(), false⟩, [], []⟩
      [.enumThreads 7, .enumModules 7, .readProcessMemory 7 0x1000 16] =
        some ([.threads [7, 8], .modules [], .data []], ⟨⟨(), false⟩, [], []⟩) :=
  exchanges_eq_calls (threadsHost Unit [7, 8]) ⟨(), false⟩ _
    ⟨(by decide : 2 ≤ maxCount), ⟨Nat.zero_le _, fun m hm ↦ absurd hm List.not_mem_nil⟩, trivial,
      trivial⟩

/-- More threads than the client accepts stay unread. -/
theorem long_list_unread :
    ∃ outcome unread, unread ≠ [] ∧
      Link.exchange (threadsHost Unit (List.replicate (2 ^ 20 + 1) 7)) ⟨⟨(), false⟩, [], []⟩
        (.enumThreads 7) = some (outcome, ⟨⟨(), false⟩, [], unread⟩) := by
  obtain ⟨threads, hthreads⟩ : ∃ threads, threads = List.replicate (2 ^ 20 + 1) (7 : UInt32) :=
    ⟨_, rfl⟩
  have hlength : threads.length = 2 ^ 20 + 1 := by rw [hthreads, List.length_replicate]
  rw [← hthreads]
  have hserved := (inStep_enumThreads (threadsHost Unit threads) ⟨(), false⟩ 7).served
  have hcount : (int32Bits threads.length).toNat = 2 ^ 20 + 1 := by
    rw [hlength]
    rfl
  have hrefused : countRefused (int32Bits threads.length) = true := by
    rw [countRefused, hcount]
    decide
  refine ⟨.failure "ceserver returned invalid thread count", threads.flatMap send32, ?_, ?_⟩
  · intro hnil
    have hmem : (7 : UInt32) ∈ threads := by
      rw [hthreads]
      exact List.mem_replicate.mpr ⟨by decide, rfl⟩
    have hempty : send32 7 = [] := List.flatMap_eq_nil_iff.mp hnil 7 hmem
    exact absurd hempty (by decide)
  · rw [Link.exchange]
    simp only [List.nil_append, hserved, Option.bind_eq_bind, Option.bind_some, Operation.receive]
    change ((recv32 (sendThreads threads)).bind _).bind _ = _
    rw [sendThreads, recv32_send32]
    simp only [Option.bind_some, hrefused, if_true]
    rfl

end Cecore.Remote
