import Cecore.AutoAsm.Sizing

/-!
# The emission pass

The loop of `AutoAssembler::execute` that assembles and injects, line by line. What the loop changes
is one state, `Run`, in an exception monad in which the state stays when a line fails: a `Failure`
is a `return result` or a `return rollback()`, with the error text.
-/

set_option autoImplicit false
set_option relaxedAutoImplicit false

namespace Cecore.AutoAsm

open Platform

/-- A thread to start after the last line. -/
structure DeferredThread where
  addressExpr : Text
  wait : Bool
  timeoutMs : ℤ
  deriving DecidableEq, Repr

/-- What a run of `execute` has changed so far, with the locals of its loop. -/
structure Run where
  target : Target
  registry : Registry
  labels : List Label
  currentAddr : ℕ := 0
  deferredThreads : List DeferredThread := []
  disableInfo : DisableInfo := {}
  log : List Text

/-- A return before the end of `execute`. -/
structure Failure where
  rollback : Bool
  error : Text
  deriving DecidableEq, Repr

abbrev Emit := EStateM Failure Run

namespace Emit

/-- `result.error = error; return result;` -/
def fail {α : Type} (error : Text) : Emit α := throw ⟨false, error⟩

/-- `result.error = error; return rollback();` -/
def failBack {α : Type} (error : Text) : Emit α := throw ⟨true, error⟩

/-- A call on the target. -/
def onTarget {α : Type} (call : Target → α × Target) : Emit α :=
  modifyGet fun run ↦ ((call run.target).1, { run with target := (call run.target).2 })

def addLog (entry : Text) : Emit PUnit := modify fun run ↦ { run with log := run.log ++ [entry] }

/-- `disableInfo.originals.push_back`. -/
def addOriginal (original : OriginalBytes) : Emit PUnit :=
  modify fun run ↦ { run with
    disableInfo := { run.disableInfo with originals := run.disableInfo.originals ++ [original] } }

/-- `disableInfo.allocs.push_back`. -/
def addAlloc (entry : AllocEntry) : Emit PUnit :=
  modify fun run ↦ { run with
    disableInfo := { run.disableInfo with allocs := run.disableInfo.allocs ++ [entry] } }

def setCurrentAddr (address : ℕ) : Emit PUnit := modify fun run ↦ { run with currentAddr := address }

def moveOn (count : ℕ) : Emit PUnit :=
  modify fun run ↦ { run with currentAddr := advance run.currentAddr count }

end Emit

open Emit

/-- The names of a script at this point of a run. -/
def Run.symbols (run : Run) (script : Script) : Symbols :=
  script.symbols run.labels run.registry.globalSymbols

/-- A write of all the bytes. -/
def isComplete (written : Option ℕ) (bytes : List UInt8) : Bool :=
  written.any fun count ↦ decide (bytes.length ≤ count)

section Lines

variable (env : Environment) (script : Script)

/-! ### Patches -/

def patchMemory (addr : ℕ) (bytes : List UInt8) : Emit PUnit := do
  let run ← get
  match run.target.readWhole addr bytes.length with
  | none => failBack ("original-byte read failed at ".toList ++ formatHexLiteral addr)
  | some orig =>
    addOriginal ⟨addr, orig⟩
    let written ← onTarget fun t ↦ t.write addr bytes
    if isComplete written bytes then pure ⟨⟩
    else
      -- the page may not be writable; it is made so and the write repeated
      let _ ← onTarget fun t ↦ t.protect env.kernel addr bytes.length
      let written ← onTarget fun t ↦ t.write addr bytes
      if isComplete written bytes then pure ⟨⟩
      else failBack ("memory write failed at ".toList ++ formatHexLiteral addr)

/-- Bytes at the current address, which moves behind them. -/
def emitHere (bytes : List UInt8) : Emit PUnit := do
  let run ← get
  patchMemory env run.currentAddr bytes
  moveOn bytes.length

/-! ### Lines that need no current address -/

def emitLabel (labelName : Text) : Emit PUnit := do
  let run ← get
  match script.allocs.find? fun a ↦ a.name = labelName with
  | some a => setCurrentAddr a.address
  | none =>
    match run.labels.find? fun l ↦ l.name = labelName with
    | some _ =>
      if run.currentAddr = 0 then
        fail ("Label has no active assembly address: ".toList ++ labelName)
      else
        modify fun run ↦ { run with labels := bindLabel labelName run.currentAddr run.labels }
    | none =>
      let targetAddr := (run.symbols script).resolveAddress labelName
      if targetAddr = 0 then fail ("Unresolved auto-assembler target: ".toList ++ labelName)
      else setCurrentAddr targetAddr

def emitFullAccess (args : Text) : Emit PUnit := do
  let run ← get
  match cutAt ',' args with
  | none => fail "FULLACCESS requires address and size".toList
  | some (addrText, sizeText) =>
    let addrExpr := trim addrText
    let addr := (run.symbols script).resolveAddress addrExpr
    match stoull 0 (trim sizeText) with
    | none => fail ("Invalid FULLACCESS size: ".toList ++ trim sizeText)
    | some (size, _) =>
      if addr = 0 ∨ size = 0 then fail ("Invalid FULLACCESS target: ".toList ++ addrExpr)
      else
        let refused ← onTarget fun t ↦ t.protect env.kernel addr size
        match refused with
        | some message =>
          fail ("FULLACCESS failed at ".toList ++ addrExpr ++ ": ".toList ++ message)
        | none =>
          addLog ("FULLACCESS: ".toList ++ addrExpr ++ " size=".toList ++ decimal size)

/-- `%02x`. -/
def hexByte (byte : UInt8) : Text :=
  (if byte.toNat < 16 then ['0'] else []) ++ formatHex byte.toNat

def emitAssert (args : Text) : Emit PUnit := do
  let run ← get
  let detail := fun expected actual ↦
    ": expected ".toList ++ hexByte expected ++ ", got ".toList ++ hexByte actual
  match checkAssert (run.symbols script) run.target detail args with
  | .error error => fail error
  | .ok addrExpr => addLog ("ASSERT OK: ".toList ++ addrExpr)

def unregister (name : Text) (run : Run) : Run :=
  { run with
    registry := { run.registry with
      globalSymbols := Function.update run.registry.globalSymbols name none }
    disableInfo := { run.disableInfo with
      symbols := Function.update run.disableInfo.symbols name none } }

def emitUnregister : List Text → Emit PUnit
  | [] => pure ⟨⟩
  | name :: rest => do
    modify (unregister name)
    addLog ("UNREGISTERSYMBOL: ".toList ++ name)
    emitUnregister rest

/-- The records of a block, once it was freed by name. -/
def forgetAlloc (name : Text) (run : Run) : Run :=
  { run with
    registry := { run.registry with
      knownAllocations := Function.update run.registry.knownAllocations name none }
    disableInfo := { run.disableInfo with
      allocs := run.disableInfo.allocs.filter fun alloc ↦ alloc.name ≠ name } }

/-- A tracked block freed by name. -/
def deallocTracked (name : Text) (entry : AllocEntry) : Emit PUnit := do
  let refused ← onTarget fun t ↦ t.free env.kernel entry.address entry.size
  match refused with
  | some message => fail ("DEALLOC failed for ".toList ++ name ++ ": ".toList ++ message)
  | none =>
    modify (forgetAlloc name)
    addLog ("DEALLOC: ".toList ++ name)

def emitDealloc : List Text → Emit PUnit
  | [] => pure ⟨⟩
  | name :: rest => do
    let run ← get
    match run.registry.knownAllocations name with
    | none => addLog ("DEALLOC: ".toList ++ name ++ " not tracked".toList)
    | some entry => deallocTracked env name entry
    emitDealloc rest

def emitCreateThread (trimmedLine : Text) (thread : DeferredThread) : Emit PUnit := do
  modify fun run ↦ { run with deferredThreads := run.deferredThreads ++ [thread] }
  addLog ("Deferred: ".toList ++ trimmedLine)

def emitCreateThreadAndWait (trimmedLine args : Text) : Emit PUnit :=
  match splitArgs args 2 with
  | [] | [] :: _ => fail "CREATETHREADANDWAIT requires an address".toList
  | address :: timeouts =>
    match timeouts.head?.getD [] with
    | [] => emitCreateThread trimmedLine ⟨trim address, true, 5000⟩
    | timeout =>
      match stoi 0 timeout with
      | none => fail ("Invalid CREATETHREADANDWAIT timeout: ".toList ++ timeout)
      | some timeoutMs => emitCreateThread trimmedLine ⟨trim address, true, timeoutMs⟩

def emitLoadBinary (args : Text) : Emit PUnit := do
  let run ← get
  match splitArgs args 2 with
  | [address, file] =>
    let addrExpr := trim address
    let filename := stripOptionalQuotes file
    let addr := (run.symbols script).resolveAddress addrExpr
    if addr = 0 then fail ("Invalid LOADBINARY target: ".toList ++ addrExpr)
    else match env.file filename with
      | none => fail ("LOADBINARY file not found: ".toList ++ filename)
      | some content =>
        let data := content.map byteOf
        if data = [] then fail ("LOADBINARY file is empty: ".toList ++ filename)
        else match run.target.readWhole addr data.length with
          | none => fail ("LOADBINARY original-byte read failed at ".toList ++ addrExpr)
          | some orig =>
            addOriginal ⟨addr, orig⟩
            let written ← onTarget fun t ↦ t.write addr data
            if isComplete written data then
              addLog ("LOADBINARY: ".toList ++ filename ++ " -> ".toList ++ addrExpr)
            else fail ("LOADBINARY write failed at ".toList ++ addrExpr)
  | _ => fail "LOADBINARY requires address and filename".toList

/-- A call that runs code in the target. -/
def runForeign {α : Type} (call : Target → α × Target) : Emit α :=
  onTarget fun t ↦
    ((call t).1, { (call t).2 with events := t.events ++ [.foreign] })

def emitLoadLibrary (args : Text) : Emit PUnit := do
  let path := stripOptionalQuotes args
  if path = [] then fail "LOADLIBRARY requires a shared library path".toList
  else if env.fileExists path = false then fail ("LOADLIBRARY file not found: ".toList ++ path)
  else
    let injectResult ← runForeign fun t ↦ env.injectLibrary t path
    match injectResult with
    | .error message => fail ("LOADLIBRARY failed for ".toList ++ path ++ ": ".toList ++ message)
    | .ok handle => addLog ("LOADLIBRARY: ".toList ++ path ++ " handle=0x".toList ++ formatHex handle)

/-! ### Lines at the current address -/

/-- The instruction at an address assembled again, where the two libraries manage it. -/
def emitReassemble (addrExpr : Text) : Emit PUnit := do
  let run ← get
  let addr := (run.symbols script).resolveAddress addrExpr
  if addr = 0 then pure ⟨⟩
  else match instructionAt env script run.target addr with
    | some (some asmCode) =>
      match env.assemble script.is32 asmCode run.currentAddr with
      | .ok bytes => if bytes = [] then pure ⟨⟩ else emitHere env bytes
      | .error _ => pure ⟨⟩
    | _ => pure ⟨⟩

def kMaxAaBufferBytes : ℕ := 256 * 1024 * 1024

def emitReadMem (args : Text) : Emit PUnit := do
  let run ← get
  match cutAt ',' args with
  | none => pure ⟨⟩
  | some (addrText, sizeText) =>
    let addrExpr := trim addrText
    let sizeStr := trim sizeText
    let addr := (run.symbols script).resolveAddress addrExpr
    match parseWholeUnsigned sizeStr 0 with
    | none => fail ("Invalid READMEM size: ".toList ++ sizeStr)
    | some sz =>
      if kMaxAaBufferBytes < sz then fail ("READMEM size too large: ".toList ++ sizeStr)
      else if addr = 0 ∨ sz = 0 then pure ⟨⟩
      else match run.target.readWhole addr sz with
        | none => fail ("READMEM source read failed at ".toList ++ addrExpr)
        | some mem => emitHere env mem

def emitFillMem (args : Text) : Emit PUnit := do
  let run ← get
  match splitArgs args 3 with
  | [address, size, value] =>
    let addr := (run.symbols script).resolveAddress address
    match stoull 0 (trim size), stoull 16 (trim value) with
    | some (size, _), some (value, _) =>
      if addr = 0 ∨ size = 0 ∨ 0xff < value then fail "Invalid FILLMEM target or value".toList
      else if kMaxAaBufferBytes < size then fail "FILLMEM size too large".toList
      else
        patchMemory env addr (List.replicate size (UInt8.ofNat value))
        addLog ("FILLMEM: ".toList ++ address ++ " size=".toList ++ decimal size)
    | _, _ => fail "Invalid FILLMEM argument".toList
  | _ => fail "FILLMEM requires address, size, and value".toList

def emitNop (countExpr : Text) : Emit PUnit :=
  match parseNopCount (trim countExpr) with
  | .error error => fail error
  | .ok count => emitHere env (List.replicate count 0x90)

def emitDs (text : Text) : Emit PUnit :=
  if stripOptionalQuotes text = [] then fail "DS requires a string".toList
  else emitHere env ((stripOptionalQuotes text).map byteOf)

def emitData (op values : Text) : Emit PUnit := do
  let run ← get
  match parseDataDirective env.fromChars op ((run.symbols script).substituteSymbols values) with
  | .error parseError => fail parseError
  | .ok dataBytes => if dataBytes = [] then pure ⟨⟩ else emitHere env dataBytes

def emitAsm (trimmedLine code : Text) : Emit PUnit := do
  let run ← get
  match env.assemble script.is32 ((run.symbols script).substituteSymbols code) run.currentAddr with
  | .error message =>
    let error := "Assembly error at 0x".toList ++ formatHex run.currentAddr ++ ": ".toList ++
      message ++ "\n  Line: ".toList ++ trimmedLine
    addLog ("ERROR: ".toList ++ error)
    failBack error
  | .ok bytes => if bytes = [] then pure ⟨⟩ else emitHere env bytes

/-- The part of the loop behind the test of the current address. -/
def emitAtAddress (trimmedLine : Text) : Line → Emit PUnit
  | .reassemble addrExpr => emitReassemble env script addrExpr
  | .readMem args => emitReadMem env script args
  | .fillMem args => emitFillMem env script args
  | .nop countExpr => emitNop env countExpr
  | .ds text => emitDs env text
  | .data op values => emitData env script op values
  | .asm code => emitAsm env script trimmedLine code
  | .label _ | .fullAccess _ | .assert _ | .unregisterSymbol _ | .dealloc _ | .createThread _
  | .createThreadAndWait _ | .loadBinary _ | .loadLibrary _ => pure ⟨⟩

/-- One line of the loop. -/
def emitLine (rawLine : Text) : Emit PUnit :=
  let trimmedLine := trim rawLine
  match classify trimmedLine with
  | .label labelName => emitLabel script labelName
  | .fullAccess args => emitFullAccess env script args
  | .assert args => emitAssert script args
  | .unregisterSymbol args => emitUnregister (listedNames args)
  | .dealloc args => emitDealloc env (listedNames args)
  | .createThread args => emitCreateThread trimmedLine ⟨trim args, false, 0⟩
  | .createThreadAndWait args => emitCreateThreadAndWait trimmedLine args
  | .loadBinary args => emitLoadBinary env script args
  | .loadLibrary args => emitLoadLibrary env args
  | line => do
    let run ← get
    if run.currentAddr = 0 then
      fail ("No active assembly address for line: ".toList ++ trimmedLine)
    else emitAtAddress env script trimmedLine line

/-- The loop. -/
def emitLines : List Text → Emit PUnit
  | [] => pure ⟨⟩
  | line :: rest => do
    emitLine env script line
    emitLines rest

end Lines

end Cecore.AutoAsm
