import Cecore.Core.Types
import Cecore.Library.ChunkedCopy
import Cecore.Library.Holdings
import Mathlib.Tactic.SplitIfs

/-!
# Chunked transfers of the kernel module

`cecore_access_process_vm` and `cecore_access_physical` of `kernel/cecore_kmod.c`. Both leave a log:
what they take and give back, and which bytes of the user and of the remote side they ask for, with
the bytes that were copied. The other functions of the kernel are a parameter, which answers in each
turn of a loop as it likes within what these functions promise.
-/

set_option autoImplicit false
set_option relaxedAutoImplicit false

namespace Cecore.Kmod

open Library Library.ChunkedCopy

/-! ### The kernel -/

def chunkSize : ℕ := 64 * 1024
def pageSize : ℕ := 4096
def esrch : ℤ := 3
def enomem : ℤ := 12
def efault : ℤ := 14
def einval : ℤ := 22

inductive Resource
  | buffer (size : ℕ)
  | task (pid : ℕ)
  /-- A page of physical memory that is mapped. -/
  | mapping (page : ℕ)
  deriving DecidableEq, Repr

/-- A copy asks for bytes from an address on, and `data` is what was copied of them. Physical memory
is accessed through a mapping. -/
inductive Event
  | acquire (r : Resource)
  | release (r : Resource)
  | fromUser (first asked : ℕ) (data : List UInt8)
  | toUser (first asked : ℕ) (data : List UInt8)
  | fromRemote (mapping : Option ℕ) (first asked : ℕ) (data : List UInt8)
  | toRemote (mapping : Option ℕ) (first asked : ℕ) (data : List UInt8)
  deriving DecidableEq, Repr

/-- How the functions of the kernel answer in front of a loop and in its turn `k`. User memory lies
below `taskSize`. -/
structure Kernel where
  taskSize : ℕ
  taskSize_le : taskSize ≤ 2 ^ 63
  kmallocFirst : Bool
  getPidTask : Bool
  kmalloc : ℕ → Bool
  ioremap : ℕ → Bool
  /-- The bytes of user memory in front of a fault. -/
  userBytes : ℕ → List UInt8
  /-- How many bytes can be stored in front of a fault. -/
  userRoom : ℕ → ℕ
  /-- What `access_process_vm` reads, or its error. -/
  remoteBytes : ℕ → Except ℕ (List UInt8)
  /-- How much `access_process_vm` writes, or its error. -/
  remoteRoom : ℕ → Except ℕ ℕ
  physicalByte : ℕ → ℕ → UInt8

namespace Kernel

variable (kernel : Kernel) (k : ℕ)

/-- `copy_from_user`: what it copied, and how many bytes it did not copy. -/
def copyFromUser (user n : ℕ) : Event × List UInt8 × ℕ :=
  let data := if user + n ≤ kernel.taskSize then (kernel.userBytes k).take n else []
  (.fromUser user n data, data, n - data.length)

/-- `copy_to_user`: how many bytes it did not copy. -/
def copyToUser (user : ℕ) (data : List UInt8) : Event × ℕ :=
  let stored := if user + data.length ≤ kernel.taskSize then data.take (kernel.userRoom k) else []
  (.toUser user data.length stored, data.length - stored.length)

/-- `access_process_vm` that reads: what it read, and what it returns. -/
def readRemote (remote n : ℕ) : Event × List UInt8 × ℤ :=
  match kernel.remoteBytes k with
  | .error e => (.fromRemote none remote n [], [], -((e : ℤ) + 1))
  | .ok bytes => (.fromRemote none remote n (bytes.take n), bytes.take n, (bytes.take n).length)

/-- `access_process_vm` with `FOLL_WRITE`. -/
def writeRemote (remote : ℕ) (data : List UInt8) : Event × ℤ :=
  match kernel.remoteRoom k with
  | .error e => (.toRemote none remote data.length [], -((e : ℤ) + 1))
  | .ok room => (.toRemote none remote data.length (data.take room), (data.take room).length)

/-- `memcpy_fromio` at an address of a mapped page. -/
def memcpyFromio (page phys n : ℕ) : Event × List UInt8 :=
  let data := (List.range n).map fun i ↦ kernel.physicalByte k (phys + i)
  (.fromRemote (some page) phys n data, data)

/-- `memdup_user`: the log, and the buffer or the error. -/
def memdupUser (user n : ℕ) : List Event × Except ℤ (List UInt8) :=
  if !kernel.kmalloc k then ([], .error (-enomem))
  else
    let (fetched, data, left) := kernel.copyFromUser k user n
    if left ≠ 0 then
      ([.acquire (.buffer n), fetched, .release (.buffer n)], .error (-efault))
    else ([.acquire (.buffer n), fetched], .ok data)

end Kernel

/-- The conversion of a `size_t` to `ssize_t`. -/
def ssize (n : ℕ) : ℤ := if n < 2 ^ 63 then n else n - 2 ^ 64

/-- What a function leaves: its log, `bytes_transferred` of the request, and what it returns. -/
structure Outcome where
  log : List Event
  bytesTransferred : ℕ
  result : ℤ

/-- The end of both functions. -/
def Outcome.ofLoop (log : List Event) (done : ℕ) (ret : ℤ) : Outcome where
  log := log
  bytesTransferred := done
  result := if done ≠ 0 then ssize done else ret

/-! ### The memory of a process -/

/-- `cecore_kmod_mem_request`. -/
structure MemRequest where
  pid : ℕ
  remoteAddress : BitVec 64
  userBuffer : BitVec 64
  size : BitVec 64
  bytesTransferred : BitVec 64

/-- The end of a turn, when nothing failed but perhaps `access_process_vm`. -/
def settle (copied : ℤ) (chunk : ℕ) : Turn :=
  if h : copied ≤ 0 then .failed (if copied < 0 then copied else -efault)
  else if copied.toNat < chunk then .last copied.toNat
  else .next copied.toNat (by omega)

/-- A turn of the loop of `cecore_access_process_vm`. -/
def processTurn (kernel : Kernel) (req : MemRequest) (write : Bool) (k done : ℕ)
    (_h : done < req.size.toNat) : List Event × Turn :=
  let chunk := min chunkSize (req.size.toNat - done)
  let remote := (req.remoteAddress.toNat + done) % sizeModulus
  let user := (req.userBuffer.toNat + done) % sizeModulus
  if write then
    let (fetched, data, left) := kernel.copyFromUser k user chunk
    if left ≠ 0 then ([fetched], .failed (-efault))
    else
      let (stored, copied) := kernel.writeRemote k remote data
      ([fetched, stored], settle copied chunk)
  else
    let (fetched, data, copied) := kernel.readRemote k remote chunk
    if 0 < copied then
      let (stored, left) := kernel.copyToUser k user data
      if left ≠ 0 then ([fetched, stored], .failed (-efault))
      else ([fetched, stored], settle copied chunk)
    else ([fetched], settle copied chunk)

/-- `cecore_access_process_vm`. -/
def accessProcessVm (kernel : Kernel) (req : MemRequest) (write : Bool) : Outcome :=
  let bytesTransferred := req.bytesTransferred.toNat
  if req.pid = 0 ∨ req.remoteAddress = 0 ∨ req.userBuffer = 0 then ⟨[], bytesTransferred, -einval⟩
  else if req.size = 0 then ⟨[], bytesTransferred, 0⟩
  else if req.remoteAddress + req.size < req.remoteAddress ∨
      req.userBuffer + req.size < req.userBuffer then ⟨[], bytesTransferred, -einval⟩
  else if !kernel.kmallocFirst then ⟨[], bytesTransferred, -enomem⟩
  else if !kernel.getPidTask then
    ⟨[.acquire (.buffer chunkSize), .release (.buffer chunkSize)], bytesTransferred, -esrch⟩
  else
    let r := run (processTurn kernel req write) 0 0
    .ofLoop ([.acquire (.buffer chunkSize), .acquire (.task req.pid)] ++ r.log ++
      [.release (.task req.pid), .release (.buffer chunkSize)]) r.done r.ret

/-! ### Physical memory -/

/-- `cecore_kmod_phys_request`. -/
structure PhysRequest where
  physicalAddress : BitVec 64
  userBuffer : BitVec 64
  size : BitVec 64
  bytesTransferred : BitVec 64

/-- A turn of the loop of `cecore_access_physical`, from the call of `ioremap` on. -/
def physicalCopy (kernel : Kernel) (write : Bool) (k phys user page chunk : ℕ)
    (hchunk : 0 < chunk) : List Event × Turn :=
  if !kernel.ioremap k then ([], .failed (-enomem))
  else if write then
    match kernel.memdupUser k user chunk with
    | (copying, .error ret) =>
      ([.acquire (.mapping page)] ++ copying ++ [.release (.mapping page)], .failed ret)
    | (copying, .ok data) =>
      ([.acquire (.mapping page)] ++ copying ++
          [.toRemote (some page) phys chunk data, .release (.buffer chunk),
            .release (.mapping page)],
        .next chunk hchunk)
  else if !kernel.kmalloc k then
    ([.acquire (.mapping page), .release (.mapping page)], .failed (-enomem))
  else
    let (fetched, data) := kernel.memcpyFromio k page phys chunk
    let (stored, left) := kernel.copyToUser k user data
    ([.acquire (.mapping page), .acquire (.buffer chunk), fetched, stored,
        .release (.buffer chunk), .release (.mapping page)],
      if left ≠ 0 then .failed (-efault) else .next chunk hchunk)

/-- A turn of the loop of `cecore_access_physical`. -/
def physicalTurn (kernel : Kernel) (req : PhysRequest) (write : Bool) (k done : ℕ)
    (h : done < req.size.toNat) : List Event × Turn :=
  let phys := (req.physicalAddress.toNat + done) % sizeModulus
  let pageOffset := phys % pageSize
  let chunk := min (pageSize - pageOffset) (req.size.toNat - done)
  let user := (req.userBuffer.toNat + done) % sizeModulus
  physicalCopy kernel write k phys user (phys - pageOffset) chunk (by
    have := Nat.mod_lt phys (show 0 < pageSize by decide)
    omega)

/-- `cecore_access_physical`. -/
def accessPhysical (kernel : Kernel) (req : PhysRequest) (write : Bool) : Outcome :=
  let bytesTransferred := req.bytesTransferred.toNat
  if req.userBuffer = 0 then ⟨[], bytesTransferred, -einval⟩
  else if req.size = 0 then ⟨[], bytesTransferred, 0⟩
  else if req.physicalAddress + req.size < req.physicalAddress ∨
      req.userBuffer + req.size < req.userBuffer then ⟨[], bytesTransferred, -einval⟩
  else
    let r := run (physicalTurn kernel req write) 0 0
    .ofLoop r.log r.done r.ret

end Cecore.Kmod
