import Cecore.AutoAsm.Data
import Cecore.Platform.Target
import Cecore.Scanner.FirstScan

/-!
# What the auto-assembler keeps and uses

The records of `core/autoasm.hpp`, the two maps an `AutoAssembler` keeps between calls, and the
`Environment` a call runs in: the kernel, the assembler and the disassembler, the file system, the
preprocessing chain with its hooks, the registered commands, and the injector, which runs code in
the target. The maps are functions from names.
-/

set_option autoImplicit false
set_option relaxedAutoImplicit false

namespace Cecore.AutoAsm

open Platform Library.Journal

/-! ### Records -/

/-- `DisableInfo::AllocEntry`. -/
structure AllocEntry where
  name : Text
  address : ℕ
  size : ℕ
  deriving DecidableEq, Repr

/-- `DisableInfo::OriginalBytes`. -/
abbrev OriginalBytes := Record UInt8

/-- What is needed to undo a script. -/
structure DisableInfo where
  allocs : List AllocEntry := []
  originals : List OriginalBytes := []
  symbols : Text → Option ℕ := fun _ ↦ none

structure AutoAsmResult where
  success : Bool
  error : Text
  disableInfo : DisableInfo
  log : List Text

structure Alloc where
  name : Text
  size : ℕ
  preferred : ℕ := 0
  address : ℕ := 0
  preferredExpr : Text := []
  deriving DecidableEq, Repr

structure Label where
  name : Text
  address : ℕ
  deriving DecidableEq, Repr

structure Define where
  name : Text
  value : Text
  deriving DecidableEq, Repr

/-- `globalSymbols_` and `knownAllocations_`. -/
structure Registry where
  globalSymbols : Text → Option ℕ := fun _ ↦ none
  knownAllocations : Text → Option AllocEntry := fun _ ↦ none

/-- The target with the maps of one `AutoAssembler`. -/
structure World where
  target : Target
  registry : Registry

/-! ### Surroundings -/

/-- The result of a step that rewrites the script or expands a command, with the log and the error
as it leaves them. -/
structure Expansion (α : Type) where
  ok : Bool
  output : α
  log : List Text
  error : Text

/-- `RemoteThreadInfo`. -/
structure RemoteThreadInfo where
  tid : ℕ := 0
  handle : ℕ := 0
  stackAddress : ℕ := 0
  stackSize : ℕ := 0
  completed : Bool := false
  deriving DecidableEq, Repr

/-- What a call of the auto-assembler takes from its surroundings. -/
structure Environment where
  kernel : Kernel
  /-- The host of the scans that `AOBSCAN` and `AOBSCANALL` run. -/
  host : Scanner.Host
  runs32BitCode : Target → Bool
  modules : Target → List ModuleInfo
  queryRegions : Target → List MemoryRegion
  pagemap : Target → ℕ → Option ℕ
  /-- `Assembler::assemble` of the assembler for 32-bit code or of the one for 64-bit code. -/
  assemble : (is32 : Bool) → (code : Text) → (address : ℕ) → Except Text (List UInt8)
  /-- Mnemonic and operands of the first instruction of the bytes. -/
  disassemble : (is32 : Bool) → (address : ℕ) → List UInt8 → Option (Text × Text)
  fromChars : FromChars
  /-- The content of a file that can be opened. -/
  file : Text → Option Text
  fileExists : Text → Bool
  /-- `preprocessScript`, which starts from an empty log and no error. -/
  preprocessScript : Text → Expansion Text
  /-- The handler registered for a command, by its normalized name; it is given the arguments, the
  log and the error. -/
  customCommand : Text → Option (Text → List Text → Text → Expansion (List Text))
  /-- The hint that a failed allocation gives about a tracer. -/
  tracerHint : Target → Text
  injectLibrary : Target → (path : Text) → Except Text ℕ × Target
  createRemoteThread : Target → (entryPoint : ℕ) → (wait : Bool) → (timeoutMs : ℤ) →
    Except Text RemoteThreadInfo × Target
  /-- The injector fills in no stack: the thread's stack belongs to the thread library. -/
  createRemoteThread_stack : ∀ (t t' : Target) (entryPoint : ℕ) (wait : Bool) (timeoutMs : ℤ)
    (info : RemoteThreadInfo),
    createRemoteThread t entryPoint wait timeoutMs = (.ok info, t') → info.stackAddress = 0

/-- The target as a scan sees it. -/
def Environment.processHandle (env : Environment) (t : Target) : ProcessHandle where
  memory := t.fetch
  queryRegions := env.queryRegions t
  pagemap := env.pagemap t
  supportsConcurrentReads := true

/-- The target `t'` is `t` after it was made to run code. -/
inductive Environment.RunsCode (env : Environment) (t : Target) : Target → Prop
  | injectLibrary (path : Text) : env.RunsCode t (env.injectLibrary t path).2
  | createRemoteThread (entryPoint : ℕ) (wait : Bool) (timeoutMs : ℤ) :
      env.RunsCode t (env.createRemoteThread t entryPoint wait timeoutMs).2

/-- Code that the target was made to run unmaps nothing. -/
def Environment.KeepsMapped (env : Environment) : Prop :=
  ∀ t t' : Target, env.RunsCode t t' → ∀ x, (t.memory x).isSome → (t'.memory x).isSome

/-- Code that the target was made to run leaves mapped bytes as they are. -/
def Environment.Quiet (env : Environment) : Prop :=
  ∀ t t' : Target, env.RunsCode t t' → ∀ x byte, t.memory x = some byte → t'.memory x = some byte

/-! ### Symbols -/

/-- The names an expression can use, with the registered symbols. -/
structure Symbols where
  allocs : List Alloc
  labels : List Label
  defines : List Define
  globalSymbols : Text → Option ℕ

namespace Symbols

/-- The lookups of `resolveAddress`, in their order. -/
def lookup (symbols : Symbols) (name : Text) : Option ℕ :=
  match symbols.allocs.find? fun a ↦ a.name = name with
  | some a => some a.address
  | none =>
    match symbols.labels.find? fun l ↦ l.name = name with
    | some l => some l.address
    | none =>
      match symbols.defines.findSome? fun d ↦
        if d.name = name then parseWholeUnsigned d.value 16 else none with
      | some parsed => some parsed
      | none => symbols.globalSymbols name

/-- `resolveAddress` of a text without `+`, which is what the base of a sum is. -/
def resolveBase (symbols : Symbols) (expr : Text) : ℕ :=
  match symbols.lookup (trim expr) with
  | some address => address
  | none => (parseWholeUnsigned (trim expr) 16).getD 0

/-- The value of `base+offset`, when the base resolves and the offset is a number. -/
def resolveSum (symbols : Symbols) (name : Text) : Option ℕ :=
  match cutAt '+' name with
  | none => none
  | some (base, offset) =>
    if symbols.resolveBase base = 0 then none
    else (parseWholeUnsigned offset 16).map fun parsed ↦
      (symbols.resolveBase base + parsed) % sizeModulus

/-- `resolveAddress`; zero for an expression that does not resolve. -/
def resolveAddress (symbols : Symbols) (expr : Text) : ℕ :=
  let name := trim expr
  match symbols.lookup name with
  | some address => address
  | none =>
    match symbols.resolveSum name with
    | some address => address
    | none => (parseWholeUnsigned name 16).getD 0

/-- The substitutions of `substituteSymbols` in one span of text. -/
def substituteSpan (symbols : Symbols) (span : Text) : Text :=
  let defined := (longestFirst Define.name symbols.defines).foldl
    (fun text d ↦ replaceWholeToken d.name d.value text) span
  let allocated := (longestFirst Alloc.name symbols.allocs).foldl
    (fun text a ↦ if a.address = 0 then text
      else replaceWholeToken a.name (formatHexLiteral a.address) text) defined
  (longestFirst Label.name symbols.labels).foldl
    (fun text l ↦ if l.address = 0 then text
      else replaceWholeToken l.name (formatHexLiteral l.address) text) allocated

def substituteSymbols (symbols : Symbols) (line : Text) : Text :=
  outsideQuotes symbols.substituteSpan line

end Symbols

/-- `l.address = address` for the first label of the name. -/
def bindLabel (name : Text) (address : ℕ) : List Label → List Label
  | [] => []
  | l :: rest => if l.name = name then ⟨name, address⟩ :: rest else l :: bindLabel name address rest

end Cecore.AutoAsm
