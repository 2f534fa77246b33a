import Cecore.AutoAsm.Emit
import Cecore.AutoAsm.Parse

/-!
# Execute and disable

`AutoAssembler::execute` and `AutoAssembler::disable`. Execution seeds the module bases, parses,
allocates, selects branches, sizes, emits, starts threads and registers symbols; `none` is an
execution that does not return because parsing does not.
-/

set_option autoImplicit false
set_option relaxedAutoImplicit false

namespace Cecore.AutoAsm

open Platform Emit

variable (env : Environment)

/-! ### Undoing -/

/-- The original bytes written back, the last patch first. -/
def restoreOriginals (originals : List OriginalBytes) (t : Target) : Target :=
  originals.foldr (fun original t ↦ (t.write original.address original.cells).2) t

/-- `knownAllocations_` without the entry of the name, if it is of this block. -/
def forgetBlock (a : AllocEntry) (registry : Registry) : Registry :=
  match registry.knownAllocations a.name with
  | some known =>
    if known.address = a.address then
      { registry with knownAllocations := Function.update registry.knownAllocations a.name none }
    else registry
  | none => registry

/-- A block freed, whether or not the call is refused. -/
def freeAlloc (a : AllocEntry) (w : World) : World :=
  ⟨(w.target.free env.kernel a.address a.size).2, forgetBlock a w.registry⟩

def freeAllocs : List AllocEntry → World → World
  | [], w => w
  | a :: rest, w => freeAllocs rest (freeAlloc env a w)

/-- What rolling back and disabling share. -/
def undo (info : DisableInfo) (w : World) : World :=
  freeAllocs env info.allocs { w with target := restoreOriginals info.originals w.target }

/-- Every loaded module's base as a symbol. -/
def seedModules (modules : List ModuleInfo) (registry : Registry) : Registry :=
  { registry with
    globalSymbols := modules.foldl (fun symbols m ↦
      if m.name = [] then symbols else Function.update symbols m.name (some m.base))
      registry.globalSymbols }

/-- The world after the module bases were seeded. -/
def seeded (w : World) : World := { w with registry := seedModules (env.modules w.target) w.registry }

def disable (w : World) (info : DisableInfo) : World × AutoAsmResult :=
  let undone := undo env info (seeded env w)
  ({ undone with
      registry := { undone.registry with
        globalSymbols := fun name ↦
          if (info.symbols name).isSome then none else undone.registry.globalSymbols name } },
    { success := true
      error := []
      disableInfo := {}
      log := ["Disabled: restored ".toList ++ decimal info.originals.length ++
        " patches, freed ".toList ++ decimal info.allocs.length ++ " allocations".toList] })

/-! ### The phases around the emission loop -/

/-- The records of a block that was allocated. -/
def trackAlloc (a : Alloc) (address : ℕ) (run : Run) : Run :=
  { run with
    registry := { run.registry with
      knownAllocations := Function.update run.registry.knownAllocations a.name
        (some ⟨a.name, address, a.size⟩) }
    disableInfo := { run.disableInfo with
      allocs := run.disableInfo.allocs ++ [⟨a.name, address, a.size⟩] } }

def allocationError (a : Alloc) (message hint : Text) : Text :=
  "Failed to allocate memory for ".toList ++ a.name ++ ": ".toList ++ message ++
    if hint = [] then
      (". (Code injection allocates a cave via ptrace; this can fail if the process denies ptrace " ++
        "or a cave can't be placed near the hook.)").toList
    else '.' :: hint

/-- Phase 2, with the blocks allocated so far in `done`. -/
def allocateAll (labels : List Label) (defines : List Define) :
    (done : List Alloc) → List Alloc → Emit (List Alloc)
  | done, [] => pure done
  | done, a :: rest => do
    let run ← get
    let symbols : Symbols := ⟨done ++ a :: rest, labels, defines, run.registry.globalSymbols⟩
    let preferred := if a.preferredExpr = [] then a.preferred
      else symbols.resolveAddress (dollarToHex a.preferredExpr)
    let allocated ← onTarget fun t ↦ t.allocate env.kernel a.size preferred
    match allocated with
    | .error message => fail (allocationError a message (env.tracerHint run.target))
    | .ok address =>
      modify (trackAlloc a address)
      addLog ("Allocated ".toList ++ a.name ++ " at 0x".toList ++ formatHex address)
      allocateAll labels defines (done ++ [{ a with preferred, address }]) rest

/-- The threads that were deferred, in order. -/
def createThreads (script : Script) : List DeferredThread → Emit PUnit
  | [] => pure ⟨⟩
  | thread :: rest => do
    let run ← get
    let addr := (run.symbols script).resolveAddress thread.addressExpr
    if addr = 0 then fail ("Invalid CREATETHREAD target: ".toList ++ thread.addressExpr)
    else
      let created ← runForeign fun t ↦ env.createRemoteThread t addr thread.wait thread.timeoutMs
      match created with
      | .error message =>
        fail ("CREATETHREAD failed for ".toList ++ thread.addressExpr ++ ": ".toList ++ message)
      | .ok info =>
        if info.stackAddress = 0 then pure ⟨⟩
        else Emit.addAlloc ⟨"__threadstack_".toList ++ decimal info.tid, info.stackAddress,
          info.stackSize⟩
        addLog ((if thread.wait then "CREATETHREADANDWAIT".toList else "CREATETHREAD".toList) ++
          ": ".toList ++ thread.addressExpr ++ " handle=0x".toList ++ formatHex info.handle)
        if thread.wait ∧ info.completed = false then
          fail ("CREATETHREADANDWAIT timed out for ".toList ++ thread.addressExpr)
        else createThreads script rest

/-- A symbol registered at the address it resolves to, if it does. -/
def registerSymbol (script : Script) (sym : Text) (run : Run) : Run :=
  let addr := (run.symbols script).resolveAddress sym
  if addr = 0 then run
  else
    { run with
      registry := { run.registry with
        globalSymbols := Function.update run.registry.globalSymbols sym (some addr) }
      disableInfo := { run.disableInfo with
        symbols := Function.update run.disableInfo.symbols sym (some addr) } }

def registerSymbols (script : Script) (symbols : List Text) (run : Run) : Run :=
  symbols.foldl (fun run sym ↦ registerSymbol script sym run) run

/-- What stands between allocation and emission: the lines selected and the labels sized. -/
def prepareLines (script : Script) (labels : List Label) (asmLines : List Text) :
    Emit (List Text) := do
  let run ← get
  let symbols := script.symbols labels run.registry.globalSymbols
  let (selected, log) := selectTryExceptBranches symbols (some run.target) asmLines run.log
  modify fun run ↦ { run with log }
  match selected with
  | .error error => fail error
  | .ok lines =>
    match resolveForwardLabels env script run.registry.globalSymbols run.target lines labels with
    | .error error => fail error
    | .ok labels =>
      modify fun run ↦ { run with labels }
      pure lines

/-- The phases after parsing. -/
def executeParsed (is32 : Bool) (parsed : Parsed) : Emit PUnit := do
  let allocs ← allocateAll env parsed.labels parsed.defines [] parsed.allocs
  let script : Script := ⟨is32, allocs, parsed.defines⟩
  let lines ← prepareLines env script parsed.labels parsed.asmLines
  emitLines env script lines
  let run ← get
  createThreads env script run.deferredThreads
  modify (registerSymbols script parsed.registeredSymbols)

/-! ### The two calls -/

/-- The enabling part of a script: its section, or all of it. -/
def enableSection (script : Text) : Text :=
  let enableCode := extractSection script "ENABLE".toList
  if enableCode = [] then script else enableCode

/-- The script parsed against the seeded world. -/
def parseScript (fuel : ℕ) (w : World) (script : Text) : Option (Bool × Parsed) :=
  let preprocessed := env.preprocessScript (enableSection script)
  let start : Parsed := { log := preprocessed.log, error := preprocessed.error }
  if preprocessed.ok then
    parseAll (parseLine env w.registry.globalSymbols (some w.target) fuel 0)
      (getlines '\n' preprocessed.output) start
  else some (false, start)

/-- What is returned after the phases behind parsing, which left `error` empty or not. -/
def finish (error : Text) : EStateM.Result Failure Run PUnit → World × AutoAsmResult
  | .ok _ run => (⟨run.target, run.registry⟩, ⟨error = [], error, run.disableInfo, run.log⟩)
  | .error failure run =>
    if failure.rollback then
      (undo env run.disableInfo ⟨run.target, run.registry⟩, ⟨false, failure.error, {}, run.log⟩)
    else (⟨run.target, run.registry⟩, ⟨false, failure.error, run.disableInfo, run.log⟩)

/-- The state in which the phases after parsing start. -/
def startRun (w : World) (parsed : Parsed) : Run :=
  { target := w.target, registry := w.registry, labels := parsed.labels, log := parsed.log }

def execute (fuel : ℕ) (w : World) (script : Text) : Option (World × AutoAsmResult) :=
  let w := seeded env w
  match parseScript env fuel w script with
  | none => none
  | some (false, parsed) => some (w, ⟨false, parsed.error, {}, parsed.log⟩)
  | some (true, parsed) =>
    some (finish env parsed.error
      (executeParsed env (env.runs32BitCode w.target) parsed (startRun w parsed)))

end Cecore.AutoAsm
