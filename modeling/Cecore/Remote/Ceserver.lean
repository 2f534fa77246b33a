import Cecore.Library.ByteStream
import Cecore.Platform.ProcessHandle
import Mathlib.Tactic.IntervalCases

/-!
# The region list of a remote process

`CeserverServer` answers commands on a byte stream, and `RemoteProcessHandle` wraps the client's
end of it as a process. The model has the commands a remote handle needs to come up and to list the
regions of its process, byte by byte. The server sends its own protection bits and its own type
numbers, and the client reads them as Windows page constants and memory types:
`queryRegions_eq_iff` says which regions come out as they went in.
-/

set_option autoImplicit false
set_option relaxedAutoImplicit false

namespace Cecore.Remote

open Library.LittleEndian Library.ByteStream Platform

/-! ### The server -/

def cmdGetVersion : ℕ := 0
def cmdOpenProcess : ℕ := 3
def cmdCloseHandle : ℕ := 7
def cmdGetArchitecture : ℕ := 21
def cmdVirtualQueryExFull : ℕ := 31

/-- `CeArchitecture::X86_64`. -/
def archX86_64 : ℕ := 1

/-- `static_cast<uint32_t>` of a `MemType`. -/
def memTypeNumber : MemType → ℕ
  | .privateMap => 0
  | .mapped => 1
  | .image => 2

/-- One entry of the reply to `CMD_VIRTUALQUERYEXFULL`. -/
def sendRegion (region : MemoryRegion) : List UInt8 :=
  toLE 4 region.protection ++ (toLE 4 (memTypeNumber region.type) ++
    (toLE 8 region.base ++ toLE 8 region.size))

/-- The reply to `CMD_VIRTUALQUERYEXFULL`: a 32-bit count and the entries. -/
def sendRegions (regions : List MemoryRegion) : List UInt8 :=
  toLE 4 regions.length ++ regions.flatMap sendRegion

/-- The version text of the reply to `CMD_GETVERSION`. -/
def serverVersion : Text := "cecore ceserver".toList

/-- One turn of the loop of `serveClient`: the reply to the command in front and the stream behind
it, or nothing when the client is dropped. A handle is the process id it was opened with. -/
def serveCommand (processes : ℕ → ProcessHandle) (stream : List UInt8) :
    Option (List UInt8 × List UInt8) := do
  let (cmd, stream) ← recvNat 1 stream
  if cmd = cmdGetVersion then
    some (toLE 4 1 ++ toLE 1 serverVersion.length ++ serverVersion.map
      (fun c ↦ UInt8.ofNat c.toNat), stream)
  else if cmd = cmdOpenProcess then
    let (pid, stream) ← recvNat 4 stream
    some (toLE 4 pid, stream)
  else if cmd = cmdCloseHandle then
    let (_, stream) ← recvNat 4 stream
    some (toLE 4 1, stream)
  else if cmd = cmdGetArchitecture then
    let (_, stream) ← recvNat 4 stream
    some (toLE 1 archX86_64, stream)
  else if cmd = cmdVirtualQueryExFull then
    let (handle, stream) ← recvNat 4 stream
    let (_, stream) ← recvNat 1 stream
    some (sendRegions (processes handle).queryRegions, stream)
  else none

/-- The loop of `serveClient`: the replies to the commands of a stream, in order. Each command has
at least one byte, so as many turns as the stream has bytes are enough. -/
def serveTurns (processes : ℕ → ProcessHandle) : (turns : ℕ) → List UInt8 → List UInt8
  | 0, _ => []
  | turns + 1, stream =>
    match serveCommand processes stream with
    | none => []
    | some (reply, rest) => reply ++ serveTurns processes turns rest

/-- `CeserverServer::serveClient`, for the commands modelled: the bytes sent back for the bytes
received. -/
def serveClient (processes : ℕ → ProcessHandle) (stream : List UInt8) : List UInt8 :=
  serveTurns processes stream.length stream

/-! ### The client -/

structure CeRegion where
  baseAddress : ℕ
  size : ℕ
  protection : ℕ
  type : ℕ
  deriving DecidableEq, Repr

/-- A connection answers the bytes of a request with the bytes of the reply. -/
abbrev Connection := List UInt8 → List UInt8

/-- `CEServerClient::openProcess`. -/
def openProcess (connection : Connection) (pid : ℕ) : Option ℕ := do
  let (handle, _) ← recvNat 4 (connection (toLE 1 cmdOpenProcess ++ toLE 4 pid))
  some handle

/-- `CEServerClient::getArchitecture`. -/
def getArchitecture (connection : Connection) (handle : ℕ) : Option ℕ := do
  let (arch, _) ← recvNat 1 (connection (toLE 1 cmdGetArchitecture ++ toLE 4 handle))
  some arch

/-- One entry of the region list. -/
def recvRegion : Reader CeRegion := fun stream ↦ do
  let (protection, stream) ← recvNat 4 stream
  let (type, stream) ← recvNat 4 stream
  let (base, stream) ← recvNat 8 stream
  let (size, stream) ← recvNat 8 stream
  some (⟨base, size, protection, type⟩, stream)

/-- The largest region count the client accepts. -/
def maxRegionCount : ℕ := 2 ^ 20

/-- `CEServerClient::virtualQueryExFull`: nothing when the connection breaks off or the count, read
as a signed number, is negative or above the bound. -/
def virtualQueryExFull (connection : Connection) (handle flags : ℕ) : Option (List CeRegion) := do
  let (count, stream) ←
    recvNat 4 (connection (toLE 1 cmdVirtualQueryExFull ++ (toLE 4 handle ++ toLE 1 flags)))
  if signedOf 4 count < 0 ∨ signedOf 4 count > maxRegionCount then none
  else
    let (regions, _) ← recvList recvRegion count stream
    some regions

def pageReadOnly : ℕ := 0x02
def pageReadWrite : ℕ := 0x04
def pageExecute : ℕ := 0x10
def pageExecuteRead : ℕ := 0x20
def pageExecuteReadWrite : ℕ := 0x40
def memMapped : ℕ := 0x40000
def memImage : ℕ := 0x1000000

/-- `toMemProt`. -/
def toMemProt (ceProtection : ℕ) : MemProt :=
  if ceProtection &&& pageExecuteReadWrite ≠ 0 then MemProt.all
  else if ceProtection &&& pageExecuteRead ≠ 0 then MemProt.read ||| MemProt.exec
  else if ceProtection &&& pageExecute ≠ 0 then MemProt.exec
  else if ceProtection &&& pageReadWrite ≠ 0 then MemProt.read ||| MemProt.write
  else if ceProtection &&& pageReadOnly ≠ 0 then MemProt.read
  else MemProt.none

/-- `toMemType`. -/
def toMemType (ceType : ℕ) : MemType :=
  if ceType &&& memImage ≠ 0 then .image
  else if ceType &&& memMapped ≠ 0 then .mapped
  else .privateMap

/-- `toMemoryRegion`. -/
def toMemoryRegion (cr : CeRegion) : MemoryRegion where
  base := cr.baseAddress
  size := cr.size
  protection := toMemProt cr.protection
  type := toMemType cr.type
  state := if cr.size > 0 then .committed else .free

/-- A process behind a ceserver connection. -/
structure RemoteProcessHandle where
  connection : Connection
  pid : ℕ
  handle : ℕ
  is64 : Bool

/-- `RemoteProcessHandle::open`. -/
def RemoteProcessHandle.open (connection : Connection) (pid : ℕ) : Option RemoteProcessHandle := do
  let handle ← openProcess connection pid
  if handle = 0 then none
  else
    let is64 := (getArchitecture connection handle).any fun arch ↦ arch = archX86_64 || arch = 3
    some ⟨connection, pid, handle, is64⟩

/-- `RemoteProcessHandle::queryRegions`. -/
def RemoteProcessHandle.queryRegions (remote : RemoteProcessHandle) : List MemoryRegion :=
  match virtualQueryExFull remote.connection remote.handle 0 with
  | none => []
  | some regions => regions.map toMemoryRegion

/-! ### What arrives -/

variable {processes : ℕ → ProcessHandle}

/-- A request of one command gets that command's reply. -/
theorem serveClient_of_command {request reply : List UInt8}
    (h : serveCommand processes request = some (reply, [])) :
    serveClient processes request = reply := by
  cases request with
  | nil => cases h
  | cons byte rest =>
    rw [serveClient, List.length_cons, serveTurns, h]
    dsimp only
    have hdone : serveTurns processes rest.length [] = [] := by
      cases rest.length <;> rfl
    rw [hdone, List.append_nil]

theorem serve_openProcess (pid : ℕ) :
    serveClient processes (toLE 1 cmdOpenProcess ++ toLE 4 pid) = toLE 4 (pid % 256 ^ 4) := by
  refine serveClient_of_command ?_
  rw [serveCommand, decodes_recvNat 1 cmdOpenProcess]
  simp [cmdOpenProcess, cmdGetVersion, (decodes_recvNat 4 pid).whole]

theorem serve_virtualQueryExFull (handle flags : ℕ) :
    serveClient processes (toLE 1 cmdVirtualQueryExFull ++ (toLE 4 handle ++ toLE 1 flags)) =
      sendRegions (processes (handle % 256 ^ 4)).queryRegions := by
  refine serveClient_of_command ?_
  rw [serveCommand, decodes_recvNat 1 cmdVirtualQueryExFull]
  simp [cmdVirtualQueryExFull, cmdOpenProcess, cmdGetVersion, cmdCloseHandle, cmdGetArchitecture,
    decodes_recvNat 4 handle (toLE 1 flags), (decodes_recvNat 1 flags).whole]

theorem serve_getArchitecture (handle : ℕ) :
    serveClient processes (toLE 1 cmdGetArchitecture ++ toLE 4 handle) = toLE 1 archX86_64 := by
  refine serveClient_of_command ?_
  rw [serveCommand, decodes_recvNat 1 cmdGetArchitecture]
  simp [cmdGetArchitecture, cmdOpenProcess, cmdGetVersion, cmdCloseHandle,
    (decodes_recvNat 4 handle).whole]

/-- A remote process comes up for every process id, with the id as its handle. -/
theorem open_serveClient {pid : ℕ} (hpid : 0 < pid) (hmax : pid < 2 ^ 31) :
    RemoteProcessHandle.open (serveClient processes) pid =
      some ⟨serveClient processes, pid, pid, true⟩ := by
  have hmod : pid % 256 ^ 4 = pid := Nat.mod_eq_of_lt (by omega)
  have hhandle : openProcess (serveClient processes) pid = some pid := by
    rw [openProcess, serve_openProcess, hmod, (decodes_recvNat 4 pid).whole, hmod]
    rfl
  have harch : getArchitecture (serveClient processes) pid = some archX86_64 := by
    rw [getArchitecture, serve_getArchitecture, (decodes_recvNat 1 archX86_64).whole]
    rfl
  rw [RemoteProcessHandle.open, hhandle]
  simp only [Option.bind_eq_bind, Option.bind_some, if_neg hpid.ne', harch]
  rfl

/-- The wire form of a region. -/
def ceRegionOf (region : MemoryRegion) : CeRegion where
  baseAddress := region.base
  size := region.size
  protection := region.protection
  type := memTypeNumber region.type

/-- What the native process can report: 64-bit addresses and sizes, and flags of `MemProt`. -/
structure Reportable (region : MemoryRegion) : Prop where
  base : region.base < sizeModulus
  size : region.size < sizeModulus
  protection : region.protection < 8

theorem decodes_sendRegion {region : MemoryRegion} (h : Reportable region) :
    Decodes recvRegion (sendRegion region) (ceRegionOf region) := by
  intro rest
  have hprotection : region.protection % 256 ^ 4 = region.protection :=
    Nat.mod_eq_of_lt (Nat.lt_trans h.protection (by decide))
  have htype : memTypeNumber region.type % 256 ^ 4 = memTypeNumber region.type := by
    cases region.type <;> rfl
  have hbase : region.base % 256 ^ 8 = region.base :=
    Nat.mod_eq_of_lt (by have := h.base; rw [sizeModulus] at this; omega)
  have hsize : region.size % 256 ^ 8 = region.size :=
    Nat.mod_eq_of_lt (by have := h.size; rw [sizeModulus] at this; omega)
  rw [recvRegion, sendRegion, List.append_assoc, List.append_assoc, List.append_assoc,
    decodes_recvNat 4 region.protection]
  simp only [Option.bind_eq_bind, Option.bind_some]
  rw [decodes_recvNat 4 (memTypeNumber region.type)]
  simp only [Option.bind_some]
  rw [decodes_recvNat 8 region.base]
  simp only [Option.bind_some]
  rw [decodes_recvNat 8 region.size, hprotection, htype, hbase, hsize]
  rfl

/-- Of the flags of `MemProt`, only the empty set is read back as it was sent. -/
theorem toMemProt_eq_iff {protection : MemProt} (h : protection < 8) :
    toMemProt protection = protection ↔ protection = MemProt.none := by
  interval_cases protection <;> decide

/-- Every type number is read as a private mapping. -/
theorem toMemType_memTypeNumber (type : MemType) : toMemType (memTypeNumber type) = .privateMap := by
  cases type <;> decide

/-- What a region says of its addresses: base, size, protection and type. -/
def seen (region : MemoryRegion) : ℕ × ℕ × MemProt × MemType :=
  (region.base, region.size, region.protection, region.type)

theorem seen_toMemoryRegion_iff {region : MemoryRegion} (h : Reportable region) :
    seen (toMemoryRegion (ceRegionOf region)) = seen region ↔
      region.protection = MemProt.none ∧ region.type = .privateMap := by
  have hprotection := toMemProt_eq_iff h.protection
  simp only [seen, toMemoryRegion, ceRegionOf, Prod.mk.injEq, toMemType_memTypeNumber, true_and,
    hprotection]
  exact and_congr_right' eq_comm

/-- What the client makes of a reply that starts with the count of a list. -/
theorem virtualQueryExFull_serve (handle : ℕ) :
    virtualQueryExFull (serveClient processes) handle 0 =
      let regions := (processes (handle % 256 ^ 4)).queryRegions
      let count := regions.length % 256 ^ 4
      if signedOf 4 count < 0 ∨ signedOf 4 count > maxRegionCount then none
      else (recvList recvRegion count (regions.flatMap sendRegion)).map Prod.fst := by
  rw [virtualQueryExFull, serve_virtualQueryExFull, sendRegions, decodes_recvNat 4]
  simp only [Option.bind_eq_bind, Option.bind_some]
  split_ifs
  · rfl
  · cases recvList recvRegion
      ((processes (handle % 256 ^ 4)).queryRegions.length % 256 ^ 4) _ <;> rfl

/-- The client takes the whole list when there are no more regions than it accepts. -/
theorem queryRegions_of_length_le {pid : ℕ} (hpid : 0 < pid) (hmax : pid < 2 ^ 31)
    {remote : RemoteProcessHandle}
    (hopen : RemoteProcessHandle.open (serveClient processes) pid = some remote)
    (hreport : ∀ region ∈ (processes pid).queryRegions, Reportable region)
    (hlength : (processes pid).queryRegions.length ≤ maxRegionCount) :
    remote.queryRegions =
      (processes pid).queryRegions.map fun region ↦ toMemoryRegion (ceRegionOf region) := by
  obtain rfl := Option.some.inj ((open_serveClient hpid hmax).symm.trans hopen)
  have hmod : pid % 256 ^ 4 = pid := Nat.mod_eq_of_lt (by omega)
  have hcount : (processes pid).queryRegions.length % 256 ^ 4 =
      (processes pid).queryRegions.length :=
    Nat.mod_eq_of_lt (by rw [maxRegionCount] at hlength; omega)
  have haccepted : ¬ (signedOf 4 (processes pid).queryRegions.length < 0 ∨
      signedOf 4 (processes pid).queryRegions.length > maxRegionCount) := by
    have hsigned : signedOf 4 (processes pid).queryRegions.length =
        (processes pid).queryRegions.length := by
      rw [signedOf, if_pos (by rw [maxRegionCount] at hlength; omega)]
    rw [hsigned]
    omega
  have hall := (decodes_recvList fun region hregion ↦
    decodes_sendRegion (hreport region hregion)).whole
  rw [RemoteProcessHandle.queryRegions, virtualQueryExFull_serve]
  simp only [hmod, hcount, if_neg haccepted, hall, Option.map_some, List.map_map]
  rfl

/-- A longer list comes back with another length: refused, or cut where the count wraps. -/
theorem length_queryRegions_lt {pid : ℕ} (hpid : 0 < pid) (hmax : pid < 2 ^ 31)
    {remote : RemoteProcessHandle}
    (hopen : RemoteProcessHandle.open (serveClient processes) pid = some remote)
    (hlength : maxRegionCount < (processes pid).queryRegions.length) :
    remote.queryRegions.length < (processes pid).queryRegions.length := by
  obtain rfl := Option.some.inj ((open_serveClient hpid hmax).symm.trans hopen)
  have hmod : pid % 256 ^ 4 = pid := Nat.mod_eq_of_lt (by omega)
  rw [RemoteProcessHandle.queryRegions, virtualQueryExFull_serve]
  simp only [hmod]
  generalize hcount : (processes pid).queryRegions.length % 256 ^ 4 = count
  have hbelow : count < 256 ^ 4 := hcount ▸ Nat.mod_lt _ (by decide)
  split_ifs with hrefused
  · exact Nat.zero_lt_of_lt hlength
  · have hsmall : count ≤ maxRegionCount := by
      unfold signedOf at hrefused
      split_ifs at hrefused <;> omega
    cases hrecv : recvList recvRegion count
      ((processes pid).queryRegions.flatMap sendRegion) with
    | none => exact Nat.zero_lt_of_lt hlength
    | some found =>
      have hcut : found.1.length = count := length_of_recvList hrecv
      simp only [Option.map_some, List.length_map, hcut]
      exact hsmall.trans_lt hlength

/-- A remote process lists the regions of its process as they are exactly when there are no more of
them than the client accepts and each is a private mapping without access rights. -/
theorem queryRegions_eq_iff {pid : ℕ} (hpid : 0 < pid) (hmax : pid < 2 ^ 31)
    {remote : RemoteProcessHandle}
    (hopen : RemoteProcessHandle.open (serveClient processes) pid = some remote)
    (hreport : ∀ region ∈ (processes pid).queryRegions, Reportable region) :
    remote.queryRegions.map seen = (processes pid).queryRegions.map seen ↔
      (processes pid).queryRegions.length ≤ maxRegionCount ∧
        ∀ region ∈ (processes pid).queryRegions,
          region.protection = MemProt.none ∧ region.type = .privateMap := by
  by_cases hlength : (processes pid).queryRegions.length ≤ maxRegionCount
  · rw [queryRegions_of_length_le hpid hmax hopen hreport hlength, List.map_map, List.map_inj_left]
    constructor
    · intro hseen
      exact ⟨hlength, fun region hregion ↦
        (seen_toMemoryRegion_iff (hreport region hregion)).mp (hseen region hregion)⟩
    · rintro ⟨-, hall⟩ region hregion
      exact (seen_toMemoryRegion_iff (hreport region hregion)).mpr (hall region hregion)
  · have hshort := length_queryRegions_lt hpid hmax hopen (Nat.lt_of_not_le hlength)
    constructor
    · intro hseen
      have := congrArg List.length hseen
      rw [List.length_map, List.length_map] at this
      omega
    · rintro ⟨hle, -⟩
      exact absurd hle hlength

/-- A process that has nothing but mappings. -/
def mappedProcess (regions : List MemoryRegion) : ProcessHandle where
  memory := fun _ ↦ none
  queryRegions := regions
  pagemap := fun _ ↦ none
  supportsConcurrentReads := true

/-- An inaccessible guard page of process 7. -/
theorem queryRegions_eq_guard_page :
    let regions : List MemoryRegion :=
      [⟨0x1000, 0x1000, MemProt.none, .privateMap, .committed⟩]
    let processes := fun _ ↦ mappedProcess regions
    (RemoteProcessHandle.mk (serveClient processes) 7 7 true).queryRegions.map seen =
      regions.map seen := by
  intro regions processes
  refine (@queryRegions_eq_iff processes 7 (by decide) (by decide) _
    (open_serveClient (by decide) (by decide)) ?_).mpr ⟨by decide, ?_⟩
  · intro region hregion
    obtain rfl := List.mem_singleton.mp hregion
    exact ⟨by decide, by decide, by decide⟩
  · intro region hregion
    obtain rfl := List.mem_singleton.mp hregion
    exact ⟨rfl, rfl⟩

/-- A page that is read-only in process 7 arrives as inaccessible. -/
theorem queryRegions_loses_read_only :
    let regions : List MemoryRegion :=
      [⟨0x1000, 0x1000, MemProt.read, .privateMap, .committed⟩]
    let processes := fun _ ↦ mappedProcess regions
    ∃ remote, RemoteProcessHandle.open (serveClient processes) 7 = some remote ∧
      remote.queryRegions.map seen = [(0x1000, 0x1000, MemProt.none, .privateMap)] ∧
      remote.queryRegions.map seen ≠ regions.map seen := by
  intro regions processes
  have hopen : RemoteProcessHandle.open (serveClient processes) 7 = some _ :=
    open_serveClient (by decide) (by decide)
  have harrive := queryRegions_of_length_le (by decide) (by decide) hopen
    (fun region hregion ↦ by
      obtain rfl := List.mem_singleton.mp hregion
      exact ⟨by decide, by decide, by decide⟩) (by decide)
  refine ⟨_, hopen, ?_, ?_⟩
  · rw [harrive]
    decide
  · rw [harrive]
    decide

end Cecore.Remote
