import Cecore.Core.Types
import Cecore.Debug.Tracee
import Cecore.Library.LittleEndian
import Mathlib.Data.Finset.Basic
import Mathlib.Logic.Function.Basic

/-!
# Injection

Syscalls and calls that a stopped thread of the target is made to execute, and what is built from
them: `injectLibrary`, for 64-bit targets and for 32-bit ones, and `createRemoteThread`. An
`InjectorKernel` answers what the code asks of the system. It says for every stop what it really is,
which the code does not see. Requests on a stopped thread are granted, except for those on memory
that is not mapped.
-/

set_option autoImplicit false
set_option relaxedAutoImplicit false

namespace Cecore.Platform.Injector

open Library.LittleEndian Debug

/-! ### Threads and stops -/

/-- `user_regs_struct`, with the registers that the injector does not name as one. -/
structure UserRegs where
  rax : ℕ
  rbx : ℕ
  rcx : ℕ
  rdx : ℕ
  rsi : ℕ
  rdi : ℕ
  rbp : ℕ
  rsp : ℕ
  r8 : ℕ
  r9 : ℕ
  r10 : ℕ
  rip : ℕ
  origRax : ℕ
  others : ℕ
  deriving DecidableEq, Repr

/-- What a thread is stopped for. -/
inductive StopCause
  /-- The `PTRACE_INTERRUPT` of the injector. -/
  | interrupt
  /-- The single step of an injected syscall is done. -/
  | trap
  /-- The injected call has returned to the poison address. -/
  | poison
  /-- The injected code faults. -/
  | fault
  /-- The delivery of a signal of the target. -/
  | signal
  deriving DecidableEq, Repr

/-- A stop of a thread that was resumed: its cause and its signal, the registers, and the memory the
target has written. -/
structure StopReport where
  cause : StopCause
  signal : ℕ
  regs : UserRegs
  memory : ℕ → UInt8

/-- The answer to a wait for a thread that was resumed. -/
inductive WaitAnswer
  | failed
  | ended
  | stopped (report : StopReport)

/-- What becomes of a thread that the injector is to seize and interrupt. -/
inductive SeizeAnswer
  | refused
  | uninterrupted
  | failed
  | ended
  | stopped (cause : StopCause) (signal : ℕ)
  deriving DecidableEq, Repr

/-- A syscall with its number and arguments. -/
structure Syscall where
  nr : ℕ
  args : List ℕ
  deriving DecidableEq, Repr

/-- What an injection takes from its surroundings. The functions of a clock answer the request made
at that time. -/
structure InjectorKernel where
  /-- `SymbolResolver::lookup`. -/
  lookup : Text → ℕ
  seizes : ℕ → SeizeAnswer
  seizeError : Text
  /-- The entries of `/proc/<pid>/task`. -/
  tasks : List ℕ
  /-- `PTRACE_PEEKTEXT` and `PTRACE_POKETEXT` reach the word at the address. -/
  reaches : ℕ → Bool
  /-- The code of the target, which it does not write itself. -/
  code : ℕ → Bool
  steps : ℕ → Syscall → WaitAnswer
  calls : ℕ → WaitAnswer
  /-- `access` of a path below the root of the target. -/
  accesses : Text → Bool
  ownPid : ℕ
  /-- `libraryMappedInTarget`. -/
  mapped : ℕ → Text → Bool
  /-- `ProcessHandle::allocate`. -/
  allocates : ℕ → Except Text ℕ
  /-- `ProcessHandle::free`. -/
  frees : ℕ → Bool
  /-- The pointer that `ProcessHandle::read` finds. -/
  reads : ℕ → ℕ
  /-- The deadline of a wait for a thread has passed. -/
  late : ℕ → Bool

/-- The target of an injection. -/
structure Injection where
  attached : Finset ℕ
  halted : Finset ℕ
  /-- The registers of stopped threads. -/
  regs : ℕ → UserRegs
  /-- The signal whose delivery a thread is stopped for. -/
  held : ℕ → Option ℕ
  /-- The signals that were not delivered. -/
  lost : List ℕ
  memory : ℕ → UInt8
  /-- The scratch memory that is mapped. -/
  blocks : List (ℕ × ℕ)
  /-- What the stops were at which the results of calls were taken. -/
  taken : List StopCause
  clock : ℕ

/-! ### Requests -/

/-- The word at an address. -/
def wordAt (memory : ℕ → UInt8) (address : ℕ) : List UInt8 :=
  (List.range 8).map fun i ↦ memory (address + i)

/-- Memory with other bytes at an address. -/
def overwrite (memory : ℕ → UInt8) (address : ℕ) (bytes : List UInt8) (a : ℕ) : UInt8 :=
  if address ≤ a then bytes.getD (a - address) (memory a) else memory a

namespace Injection

def poke (address : ℕ) (bytes : List UInt8) (s : Injection) : Injection :=
  { s with memory := overwrite s.memory address bytes }

/-- An instruction is put back, as long as the thread is stopped. -/
def restore (tid address : ℕ) (bytes : List UInt8) (s : Injection) : Injection :=
  if tid ∈ s.halted then poke address bytes s else s

/-- `PTRACE_POKETEXT` of one word after the other. -/
def pokeWords (k : InjectorKernel) : ℕ → List (List UInt8) → Injection → Injection × Bool
  | _, [], s => (s, true)
  | address, word :: rest, s =>
    if k.reaches address then pokeWords k (address + 8) rest (poke address word s) else (s, false)

/-- `PTRACE_SETREGS`. -/
def setRegs (tid : ℕ) (regs : UserRegs) (s : Injection) : Injection :=
  if tid ∈ s.halted then { s with regs := Function.update s.regs tid regs } else s

/-- The signal a thread is stopped for is not delivered. -/
def drop (tid : ℕ) (s : Injection) : Injection :=
  { s with lost := s.lost ++ (s.held tid).toList, held := Function.update s.held tid none }

/-- `PTRACE_CONT` or `PTRACE_SINGLESTEP`. -/
def resume (tid : ℕ) (s : Injection) : Injection :=
  if tid ∈ s.halted then drop tid { s with halted := s.halted.erase tid } else s

/-- `PTRACE_DETACH`. -/
def detach (s : Injection) (tid : ℕ) : Injection :=
  if tid ∈ s.halted then
    drop tid { s with attached := s.attached.erase tid, halted := s.halted.erase tid }
  else s

/-- A thread is found stopped. -/
def halt (tid : ℕ) (cause : StopCause) (signal : ℕ) (s : Injection) : Injection :=
  { s with
    halted := insert tid s.halted
    held := Function.update s.held tid (if cause = .signal then some signal else none) }

/-- A thread that was resumed is found stopped. -/
def haltAt (k : InjectorKernel) (tid : ℕ) (report : StopReport) (s : Injection) : Injection :=
  halt tid report.cause report.signal { s with
    regs := Function.update s.regs tid report.regs
    memory := fun a ↦ if k.code a then s.memory a else report.memory a }

/-- The wait for a thread that was resumed. -/
def await (k : InjectorKernel) (tid : ℕ) (answer : WaitAnswer) (s : Injection) :
    Injection × Option StopReport :=
  let s := { s with clock := s.clock + 1 }
  match answer with
  | .failed => (s, none)
  | .ended => ({ s with attached := s.attached.erase tid }, none)
  | .stopped report => (haltAt k tid report s, some report)

/-- `seizeStop`. -/
def seizeStop (k : InjectorKernel) (tid : ℕ) (s : Injection) : Injection × Bool :=
  match k.seizes tid with
  | .refused | .ended => (s, false)
  | .uninterrupted | .failed => (detach { s with attached := insert tid s.attached } tid, false)
  | .stopped cause signal => (halt tid cause signal { s with attached := insert tid s.attached }, true)

end Injection

/-! ### Syscalls and calls -/

/-- How a target is made to execute syscalls and calls. -/
structure Abi where
  /-- The two bytes of the syscall instruction. -/
  opcode : List UInt8
  /-- The instructions a thread in a syscall is at. -/
  gadgets : List (List UInt8)
  mmap : ℕ
  munmap : ℕ
  /-- The registers for a syscall. -/
  load : Syscall → UserRegs → UserRegs
  /-- The result of a syscall in `rax`. -/
  result : ℕ → ℤ
  /-- The address that `mmap` has mapped. -/
  address? : ℕ → Option ℕ
  /-- A result of `mmap` that is taken for an error. -/
  rejected : ℤ → Bool
  /-- The address and the words of the stack frame for a call. -/
  frame : (args : List ℕ) → UserRegs → ℕ × List (List UInt8)
  /-- The registers for a call. -/
  enter : (function : ℕ) → (args : List ℕ) → UserRegs → UserRegs
  /-- The result of a call in `rax`. -/
  callResult : ℕ → ℕ
  /-- How a handle is shown. -/
  shown : ℕ → ℕ
  allocationError : Text

/-- What a syscall that was executed does to the scratch memory. -/
def Abi.execute (abi : Abi) (call : Syscall) (rax : ℕ) (blocks : List (ℕ × ℕ)) : List (ℕ × ℕ) :=
  if call.nr = abi.mmap then
    match abi.address? rax with
    | some address => blocks ++ [(address, call.args.getD 1 0)]
    | none => blocks
  else if call.nr = abi.munmap ∧ rax = 0 then
    blocks.erase (call.args.getD 0 0, call.args.getD 1 0)
  else blocks

namespace Injection

/-- `remoteSyscall` and `remoteSyscall32`. -/
def runSyscall (abi : Abi) (k : InjectorKernel) (call : Syscall) (tid : ℕ) (s : Injection) :
    Injection × ℤ :=
  let oldRegs := s.regs tid
  if tid ∉ s.halted ∨ k.reaches oldRegs.rip = false then (s, -1)
  else
    let origInstr := wordAt s.memory oldRegs.rip
    let patched := poke oldRegs.rip (abi.opcode ++ origInstr.drop 2) s
    let entered := setRegs tid (abi.load call oldRegs) patched
    let (stepped, found) := await k tid (k.steps s.clock call) (resume tid entered)
    let executed := match found with
      | some report => if report.cause = .trap then
          { stepped with blocks := abi.execute call report.regs.rax stepped.blocks } else stepped
      | none => stepped
    let result := match found with
      | some report => if report.signal = sigtrap then abi.result report.regs.rax else -1
      | none => -1
    (setRegs tid oldRegs (restore tid oldRegs.rip origInstr executed), result)

/-- `remoteCall` and `remoteCall32`. -/
def runCall (abi : Abi) (k : InjectorKernel) (function : ℕ) (args : List ℕ) (tid : ℕ) (s : Injection) :
    Injection × ℕ :=
  let oldRegs := s.regs tid
  if tid ∉ s.halted then (s, sizeModulus - 1)
  else
    match pokeWords k (abi.frame args oldRegs).1 (abi.frame args oldRegs).2 s with
    | (s, false) => (s, sizeModulus - 1)
    | (s, true) =>
      let entered := setRegs tid (abi.enter function args oldRegs) s
      match await k tid (k.calls s.clock) (resume tid entered) with
      | (s, none) => (setRegs tid oldRegs s, sizeModulus - 1)
      | (s, some report) => (setRegs tid oldRegs { s with taken := s.taken ++ [report.cause] },
          abi.callResult report.regs.rax)

end Injection

/-- The poison return address of a call. -/
def poisonReturn : ℕ := 0xCCCCCCCCCCCCCCCC

/-- Where `remoteCall` puts the return address: below the red zone, aligned. -/
def returnAddrSlot (rsp : ℕ) : ℕ :=
  ((rsp + sizeModulus - 128) % sizeModulus / 16 * 16 + sizeModulus - 8) % sizeModulus

/-- The ABI of `remoteSyscall` and `remoteCall`. -/
def abi64 : Abi where
  opcode := [0x0F, 0x05]
  gadgets := [[0x0F, 0x05]]
  mmap := 9
  munmap := 11
  load := fun call regs ↦ { regs with
    rax := call.nr
    rdi := call.args.getD 0 0
    rsi := call.args.getD 1 0
    rdx := call.args.getD 2 0
    r10 := call.args.getD 3 0
    r8 := call.args.getD 4 0
    r9 := call.args.getD 5 0 }
  result := fun rax ↦ if rax % sizeModulus < 2 ^ 63 then rax % sizeModulus
    else (rax % sizeModulus : ℤ) - sizeModulus
  address? := fun rax ↦ if 0 < rax ∧ rax < 2 ^ 47 then some rax else none
  rejected := fun result ↦ decide (result ≤ 0)
  frame := fun _ regs ↦ (returnAddrSlot regs.rsp, [toLE 8 poisonReturn])
  enter := fun function args regs ↦ { regs with
    origRax := sizeModulus - 1
    rip := function
    rdi := args.getD 0 0
    rsi := args.getD 1 0
    rdx := args.getD 2 0
    rcx := args.getD 3 0
    r8 := args.getD 4 0
    r9 := args.getD 5 0
    rsp := returnAddrSlot regs.rsp }
  callResult := id
  shown := id
  allocationError := "Failed to allocate memory in target".toList

/-- The poison return address of a 32-bit call. -/
def poisonReturn32 : ℕ := 0xDEAD0000

/-- Where `remoteCall32` puts the frame. -/
def frame32 (rsp : ℕ) : ℕ :=
  ((rsp % 2 ^ 32 + 2 ^ 32 - 256) % 2 ^ 32 / 16 * 16 + 2 ^ 32 - 4) % 2 ^ 32

/-- The ABI of `remoteSyscall32` and `remoteCall32`. -/
def abi32 : Abi where
  opcode := [0xCD, 0x80]
  gadgets := [[0xCD, 0x80], [0x0F, 0x34]]
  mmap := 192
  munmap := 91
  load := fun call regs ↦ { regs with
    rax := call.nr
    rbx := call.args.getD 0 0 % 2 ^ 32
    rcx := call.args.getD 1 0 % 2 ^ 32
    rdx := call.args.getD 2 0 % 2 ^ 32
    rsi := call.args.getD 3 0 % 2 ^ 32
    rdi := call.args.getD 4 0 % 2 ^ 32
    rbp := call.args.getD 5 0 % 2 ^ 32 }
  result := fun rax ↦ rax % 2 ^ 32
  address? := fun rax ↦
    if 0 < rax % 2 ^ 32 ∧ rax % 2 ^ 32 < 0xFFFFF001 then some (rax % 2 ^ 32) else none
  rejected := fun result ↦ decide (result % 2 ^ 32 = 0 ∨ 0xFFFFF001 ≤ result % 2 ^ 32)
  frame := fun args regs ↦ (frame32 regs.rsp,
    [toLE 4 poisonReturn32 ++ toLE 4 (args.getD 0 0), toLE 4 (args.getD 1 0) ++ toLE 4 0])
  enter := fun function _ regs ↦ { regs with
    origRax := sizeModulus - 1
    rip := function % 2 ^ 32
    rsp := frame32 regs.rsp }
  callResult := fun rax ↦ rax % 2 ^ 32
  shown := fun handle ↦ handle % 2 ^ 32
  allocationError := "Failed to allocate memory in target (32-bit)".toList

namespace Injection

def remoteSyscall := runSyscall abi64

def remoteSyscall32 := runSyscall abi32

def remoteCall := runCall abi64

def remoteCall32 := runCall abi32

/-! ### The hijacked thread -/

/-- `inUserspace`: the thread is not at a syscall instruction. -/
def inUserspace (abi : Abi) (k : InjectorKernel) (s : Injection) (tid : ℕ) : Bool :=
  decide (tid ∈ s.halted) && k.reaches (s.regs tid).rip &&
    decide ((wordAt s.memory (s.regs tid).rip).take 2 ∉ abi.gadgets)

/-- One turn of the loop that stops the sibling threads. -/
def stopSibling (k : InjectorKernel) (pid : ℕ) (p : Injection × List ℕ) (tid : ℕ) :
    Injection × List ℕ :=
  if tid = 0 ∨ tid = pid then p
  else match seizeStop k tid p.1 with
    | (s, true) => (s, p.2 ++ [tid])
    | (s, false) => (s, p.2)

/-- Every sibling thread that could be stopped. -/
def stopSiblings (k : InjectorKernel) (pid : ℕ) (s : Injection) : Injection × List ℕ :=
  k.tasks.foldl (stopSibling k pid) (s, [])

/-- `injPid`. -/
def hijacked (abi : Abi) (k : InjectorKernel) (pid : ℕ) (siblings : List ℕ) (s : Injection) : ℕ :=
  if inUserspace abi k s pid then pid else (siblings.find? (inUserspace abi k s)).getD pid

/-- The destructor of `SiblingGuard`. -/
def releaseSiblings (siblings : List ℕ) (s : Injection) : Injection := siblings.foldl detach s

end Injection

/-! ### Libraries -/

/-- `pathVisibleToTarget`. -/
def pathVisibleToTarget (k : InjectorKernel) (path : Text) : Bool :=
  decide (path ≠ [] ∧ path.length < 4096) && k.accesses path

/-- `injectPathCandidates`. -/
def injectPathCandidates (k : InjectorKernel) (soPath : Text) : List Text :=
  if pathVisibleToTarget k soPath then [soPath]
  else
    let hostMount := "/run/host".toList ++ soPath
    let viaTracerRoot := "/proc/".toList ++ Nat.toDigits 10 k.ownPid ++ "/root".toList ++ soPath
    soPath :: [hostMount, viaTracerRoot].filter fun alt ↦ alt ≠ soPath && pathVisibleToTarget k alt

/-- The bytes of a path with its terminator, a word at a time. -/
def pathWords (path : Text) : List (List UInt8) :=
  let bytes := path.map (fun c ↦ UInt8.ofNat c.toNat) ++ [0]
  (List.range ((bytes.length + 7) / 8)).map fun i ↦
    let word := (bytes.drop (8 * i)).take 8
    word ++ List.replicate (8 - word.length) 0

/-- The memory for a path: whole pages. -/
def allocSize (path : Text) : ℕ := (path.length + 1 + 4095) / 4096 * 4096

/-- The part of a path after its last slash. -/
def baseName (path : Text) : Text := (path.reverse.takeWhile fun c ↦ c ≠ '/').reverse

/-- What an attempt with one path ends with. -/
inductive Attempt
  | loaded (handle : ℕ)
  | next (error : Text)
  | stop (error : Text)
  deriving DecidableEq, Repr

namespace Injection

/-- `dlopen` has been called with a path. -/
def judge (abi : Abi) (k : InjectorKernel) (path : Text) (handle : ℕ) (s : Injection) : Attempt :=
  if handle = 0 then
    .next ("dlopen(\"".toList ++ path ++ "\") returned NULL in target process".toList)
  else if handle = sizeModulus - 1 then
    .next ("dlopen(\"".toList ++ path ++ "\") returned ".toList ++ Nat.toDigits 10 (abi.shown handle) ++
      " in target process".toList)
  else if !k.mapped s.clock (baseName path) then
    .next ("dlopen returned ".toList ++ Nat.toDigits 10 (abi.shown handle) ++ " but ".toList ++
      baseName path ++ " is not mapped in the target".toList)
  else .loaded handle

/-- One turn of the loop over the candidates. -/
def tryPath (abi : Abi) (k : InjectorKernel) (dlopenAddr flags tid : ℕ) (path : Text) (s : Injection) :
    Injection × Attempt :=
  let (s, raw) := runSyscall abi k ⟨abi.mmap, [0, allocSize path, 3, 0x22, sizeModulus - 1, 0]⟩ tid s
  if abi.rejected raw then (s, .stop abi.allocationError)
  else
    let remoteMem := raw.toNat
    let unmap := runSyscall abi k ⟨abi.munmap, [remoteMem, allocSize path, 0, 0, 0, 0]⟩ tid
    match pokeWords k remoteMem (pathWords path) s with
    | (s, false) => ((unmap s).1, .stop "Failed to write library path into target".toList)
    | (s, true) =>
      let (s, handle) := runCall abi k dlopenAddr [remoteMem, flags] tid s
      let s := (unmap s).1
      (s, judge abi k path handle s)

/-- The loop over the candidates. -/
def tryPaths (abi : Abi) (k : InjectorKernel) (dlopenAddr flags tid : ℕ) :
    List Text → Text → Injection → Injection × Except Text ℕ
  | [], lastError, s => (s, .error lastError)
  | path :: rest, _, s =>
    match tryPath abi k dlopenAddr flags tid path s with
    | (s, .loaded handle) => (s, .ok (abi.shown handle))
    | (s, .next error) => tryPaths abi k dlopenAddr flags tid rest error s
    | (s, .stop error) => (s, .error error)

/-- The address of `dlopen` or of `__libc_dlopen_mode`, and the flags for it. -/
def dlopenOf (k : InjectorKernel) : ℕ × ℕ :=
  if k.lookup "dlopen".toList ≠ 0 then (k.lookup "dlopen".toList, 0x2)
  else (k.lookup "__libc_dlopen_mode".toList, 0x80000002)

/-- `injectLibrary` and `injectLibrary32`, for the threads of one ABI. -/
def injectWith (abi : Abi) (k : InjectorKernel) (pid : ℕ) (soPath : Text) (s : Injection) :
    Injection × Except Text ℕ :=
  if soPath = [] ∨ 4096 ≤ soPath.length then (s, .error "invalid shared library path".toList)
  else if (dlopenOf k).1 = 0 then
    (s, .error "dlopen not found in target process symbols".toList)
  else
    match seizeStop k pid s with
    | (s, false) => (s, .error ("ptrace seize failed: ".toList ++ k.seizeError))
    | (s, true) =>
      let (s, siblings) := stopSiblings k pid s
      let (s, result) := tryPaths abi k (dlopenOf k).1 (dlopenOf k).2 (hijacked abi k pid siblings s)
        (injectPathCandidates k soPath) ("dlopen failed for ".toList ++ soPath) s
      (releaseSiblings siblings (detach s pid), result)

def injectLibrary32 := injectWith abi32

def injectLibrary (is64bit : Bool) (k : InjectorKernel) (pid : ℕ) (soPath : Text) (s : Injection) :
    Injection × Except Text ℕ :=
  if !is64bit then injectLibrary32 k pid soPath s else injectWith abi64 k pid soPath s

/-! ### Threads -/

/-- `EBUSY`. -/
def ebusy : ℕ := 16

/-- What `createRemoteThread` tells of the new thread. -/
structure RemoteThreadInfo where
  handle : ℕ
  completed : Bool
  deriving DecidableEq, Repr

/-- `ProcessHandle::allocate` of the storage for the thread handle. -/
def allocateStorage (k : InjectorKernel) (s : Injection) : Injection × Except Text ℕ :=
  match k.allocates s.clock with
  | .ok address =>
    ({ s with clock := s.clock + 1, blocks := s.blocks ++ [(address, 4096)] }, .ok address)
  | .error error => ({ s with clock := s.clock + 1 }, .error error)

/-- `ProcessHandle::free`. -/
def freeStorage (k : InjectorKernel) (address : ℕ) (s : Injection) : Injection :=
  if k.frees s.clock then
    { s with clock := s.clock + 1, blocks := s.blocks.erase (address, 4096) }
  else { s with clock := s.clock + 1 }

/-- The loop of `pthread_tryjoin_np` calls; nothing when it has not ended after so many turns. -/
def tryJoin (k : InjectorKernel) (function handle tid : ℕ) : ℕ → Injection → Option (Injection × Bool)
  | 0, _ => none
  | turns + 1, s =>
    match remoteCall k function [handle, 0] tid s with
    | (s, joinResult) =>
      if joinResult = 0 then some (s, true)
      else if joinResult ≠ ebusy then some (s, false)
      else if k.late s.clock then some (s, false)
      else tryJoin k function handle tid turns { s with clock := s.clock + 1 }

/-- What is done about a thread that was created. -/
def finishThread (k : InjectorKernel) (waitForCompletion : Bool) (turns handle tid : ℕ)
    (s : Injection) : Option (Injection × Bool) :=
  if waitForCompletion then
    if k.lookup "pthread_tryjoin_np".toList ≠ 0 then
      tryJoin k (k.lookup "pthread_tryjoin_np".toList) handle tid turns s
    else if k.lookup "pthread_join".toList ≠ 0 then
      let (s, joinResult) := remoteCall k (k.lookup "pthread_join".toList) [handle, 0] tid s
      some (s, decide (joinResult = 0))
    else some (s, false)
  else if k.lookup "pthread_detach".toList ≠ 0 then
    some ((remoteCall k (k.lookup "pthread_detach".toList) [handle] tid s).1, false)
  else some (s, false)

/-- `pthread_create` or `__pthread_create`. -/
def pthreadCreate (k : InjectorKernel) : ℕ :=
  if k.lookup "pthread_create".toList ≠ 0 then k.lookup "pthread_create".toList
  else k.lookup "__pthread_create".toList

/-- What all returns of `createRemoteThread` do once the threads are stopped. -/
def release (k : InjectorKernel) (pid storage : ℕ) (siblings : List ℕ) (s : Injection) : Injection :=
  releaseSiblings siblings (freeStorage k storage (detach s pid))

/-- The thread is created and dealt with, while the threads of the target are stopped. -/
def createStopped (k : InjectorKernel) (pid entryPoint storage : ℕ) (siblings : List ℕ)
    (waitForCompletion : Bool) (turns : ℕ) (s : Injection) :
    Option (Injection × Except Text RemoteThreadInfo) :=
  let tid := hijacked abi64 k pid siblings s
  let (s, createResult) := remoteCall k (pthreadCreate k) [storage, 0, entryPoint, 0] tid s
  if createResult ≠ 0 then
    some (release k pid storage siblings s,
      .error ("pthread_create failed with code ".toList ++ Nat.toDigits 10 createResult))
  else if k.reads s.clock = 0 then
    some (release k pid storage siblings s,
      .error "pthread_create returned an empty thread handle".toList)
  else
    (finishThread k waitForCompletion turns (k.reads s.clock) tid s).map fun (after, completed) ↦
      (release k pid storage siblings after, .ok ⟨k.reads s.clock, completed⟩)

/-- `createRemoteThread`; nothing when its loop has not ended after so many turns. -/
def createRemoteThread (k : InjectorKernel) (is64bit : Bool) (pid entryPoint : ℕ)
    (waitForCompletion : Bool) (turns : ℕ) (s : Injection) :
    Option (Injection × Except Text RemoteThreadInfo) :=
  if entryPoint = 0 then some (s, .error "remote thread entry point is null".toList)
  else if !is64bit then some (s, .error "32-bit target remote thread is not supported".toList)
  else if pthreadCreate k = 0 then
    some (s, .error "pthread_create not found in target process symbols".toList)
  else
    match allocateStorage k s with
    | (s, .error error) =>
      some (s, .error ("failed to allocate remote pthread handle storage: ".toList ++ error))
    | (s, .ok storage) =>
      match seizeStop k pid s with
      | (s, false) => some (freeStorage k storage s,
          .error ("ptrace seize failed: ".toList ++ k.seizeError))
      | (s, true) =>
        let (s, siblings) := stopSiblings k pid s
        createStopped k pid entryPoint storage siblings waitForCompletion turns s

end Injection

end Cecore.Platform.Injector
