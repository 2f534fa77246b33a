import Cecore.AutoAsm.Environment
import Cecore.Scanner.Pattern

/-!
# Assembly lines

A line that parsing left for assembly is a label definition, a marker with its arguments, a data
directive or an instruction. `classify` is the chain of prefix tests that both passes over the lines
begin with. The checks that both passes or both readers of an `ASSERT` make are here too.
-/

set_option autoImplicit false
set_option relaxedAutoImplicit false

namespace Cecore.AutoAsm

open Platform

/-- What a trimmed line is, with the text behind its marker. -/
inductive Line
  | label (name : Text)
  | fullAccess (args : Text)
  | assert (args : Text)
  | unregisterSymbol (args : Text)
  | dealloc (args : Text)
  | createThread (args : Text)
  | createThreadAndWait (args : Text)
  | loadBinary (args : Text)
  | loadLibrary (args : Text)
  | reassemble (addrExpr : Text)
  | readMem (args : Text)
  | fillMem (args : Text)
  | nop (countExpr : Text)
  | ds (text : Text)
  | data (op values : Text)
  | asm (code : Text)
  deriving DecidableEq, Repr

/-- The markers, in the order in which they are tested. -/
def markers : List (Text × (Text → Line)) :=
  [("__FULLACCESS__:".toList, .fullAccess), ("__ASSERT__:".toList, .assert),
    ("__UNREGISTERSYMBOL__:".toList, .unregisterSymbol), ("__DEALLOC__:".toList, .dealloc),
    ("__CREATETHREAD__:".toList, .createThread),
    ("__CREATETHREADANDWAIT__:".toList, .createThreadAndWait),
    ("__LOADBINARY__:".toList, .loadBinary), ("__LOADLIBRARY__:".toList, .loadLibrary),
    ("__REASSEMBLE__:".toList, .reassemble), ("__READMEM__:".toList, .readMem),
    ("__FILLMEM__:".toList, .fillMem), ("__NOP__:".toList, .nop), ("__DS__:".toList, .ds)]

/-- The line with its marker taken off. -/
def unmark (line : Text) : List (Text × (Text → Line)) → Option Line
  | [] => none
  | (marker, build) :: rest =>
    if startsWith line marker then some (build (line.drop marker.length)) else unmark line rest

/-- Whether an upper-case line starts with a data directive. -/
def startsData (upper : Text) : Bool :=
  startsWith upper "DB ".toList || startsWith upper "DW ".toList ||
    startsWith upper "DD ".toList || startsWith upper "DQ ".toList

def classify (trimmedLine : Text) : Line :=
  if isSimpleLabelDefinition trimmedLine then .label trimmedLine.dropLast
  else match unmark trimmedLine markers with
    | some line => line
    | none =>
      if startsData (toUpper trimmedLine) then
        .data ((toUpper trimmedLine).take 2) (trim (trimmedLine.drop 3))
      else .asm trimmedLine

/-- The names in a list of names, without the empty ones. -/
def listedNames (args : Text) : List Text := ((getlines ',' args).map trim).filter (· ≠ [])

/-! ### Scripts -/

/-- What parsing and allocation have fixed before the passes over the lines. -/
structure Script where
  is32 : Bool
  allocs : List Alloc
  defines : List Define

def Script.symbols (script : Script) (labels : List Label) (globalSymbols : Text → Option ℕ) :
    Symbols :=
  ⟨script.allocs, labels, script.defines, globalSymbols⟩

/-- An address moved forward. -/
def advance (currentAddr count : ℕ) : ℕ := (currentAddr + count) % sizeModulus

/-- The instruction at `addr` in assembler text. -/
def instructionAt (env : Environment) (script : Script) (t : Target) (addr : ℕ) :
    Option (Option Text) :=
  (t.read addr 16).map fun bytes ↦
    (env.disassemble script.is32 addr bytes).map fun (mnemonic, operands) ↦
      mnemonic ++ ' ' :: operands

/-! ### Assertions -/

/-- The first counted byte that differs, with the byte expected there and the actual one. -/
def firstMismatch : (index : ℕ) → (current pattern mask : List UInt8) → Option (ℕ × UInt8 × UInt8)
  | index, actual :: current, expected :: pattern, mask =>
    if mask.head? = some 0 ∨ actual = expected then
      firstMismatch (index + 1) current pattern mask.tail
    else some (index, expected, actual)
  | _, _, _, _ => none

/-- The tests of an `ASSERT`: its address text, or the error, which ends in `detail` of the byte
expected and the actual one when a byte differs. -/
def checkAssert (symbols : Symbols) (t : Target) (detail : UInt8 → UInt8 → Text) (args : Text) :
    Except Text Text :=
  match cutAt ',' args with
  | none => .error "ASSERT requires address and bytes".toList
  | some (addrText, bytesText) =>
    let addrExpr := trim addrText
    let addr := symbols.resolveAddress addrExpr
    if addr = 0 then .error ("Invalid ASSERT target: ".toList ++ addrExpr)
    else
      let bytesStr := dropDoubleQuotes (trim bytesText)
      let pattern := Scanner.parseAOB bytesStr
      if pattern.byteArray = [] then .error ("ASSERT has no bytes: ".toList ++ bytesStr)
      else match t.readWhole addr pattern.byteArray.length with
        | none => .error ("ASSERT read failed at ".toList ++ addrExpr)
        | some current =>
          match firstMismatch 0 current pattern.byteArray pattern.byteArrayMask with
          | none => .ok addrExpr
          | some (i, expected, actual) =>
            .error ("ASSERT failed at ".toList ++ addrExpr ++ '+' :: decimal i ++
              detail expected actual)

/-! ### Try and except -/

/-- The block that starts behind a `{$try}`, with the positions of its last `{$except}` and of its
end among the lines that follow. -/
def scanBlock : (depth index : ℕ) → (exceptIndex : Option ℕ) → List Text → Option ℕ × Option ℕ
  | _, _, exceptIndex, [] => (exceptIndex, none)
  | depth, index, exceptIndex, line :: rest =>
    if trim line = "__TRY_BEGIN__".toList then scanBlock (depth + 1) (index + 1) exceptIndex rest
    else if trim line = "__TRY_END__".toList then
      if depth = 1 then (exceptIndex, some index)
      else scanBlock (depth - 1) (index + 1) exceptIndex rest
    else if trim line = "__TRY_EXCEPT__".toList ∧ depth = 1 then
      scanBlock depth (index + 1) (some index) rest
    else scanBlock depth (index + 1) exceptIndex rest

/-- `tryBranchCanExecute`: why the branch cannot be taken, if it cannot. -/
def tryBranchFails (symbols : Symbols) (proc : Option Target) (branchLines : List Text) :
    Option Text :=
  match proc with
  | none => none
  | some t => branchLines.findSome? fun rawLine ↦
    if startsWith (trim rawLine) "__ASSERT__:".toList then
      match checkAssert symbols t (fun _ _ ↦ []) ((trim rawLine).drop 11) with
      | .ok _ => none
      | .error reason => some reason
    else none

/-- `selectTryExceptBranches` with the log; `turns` bounds the lines and blocks visited. -/
def selectBranches (symbols : Symbols) (proc : Option Target) :
    (turns : ℕ) → List Text → (log : List Text) → Except Text (List Text) × List Text
  | _, [], log => (.ok [], log)
  | 0, _ :: _, log => (.ok [], log)
  | turns + 1, line :: rest, log =>
    if trim line = "__TRY_BEGIN__".toList then
      match scanBlock 1 0 none rest with
      | (_, none) => (.error "Missing \x7b$endtry\x7d for \x7b$try\x7d block".toList, log)
      | (none, some _) => (.error "Missing \x7b$except\x7d for \x7b$try\x7d block".toList, log)
      | (some exceptIndex, some endIndex) =>
        let tryLines := rest.take exceptIndex
        let exceptLines := (rest.take endIndex).drop (exceptIndex + 1)
        let (branch, entry) := match tryBranchFails symbols proc tryLines with
          | none => (tryLines, "TRY: selected guarded block".toList)
          | some reason =>
            (exceptLines, "TRY: selected \x7b$except\x7d block (".toList ++ reason ++ [')'])
        match selectBranches symbols proc turns branch log with
        | (.error error, log) => (.error error, log)
        | (.ok selected, log) =>
          match selectBranches symbols proc turns (rest.drop (endIndex + 1)) (log ++ [entry]) with
          | (.error error, log) => (.error error, log)
          | (.ok more, log) => (.ok (selected ++ more), log)
    else if trim line = "__TRY_EXCEPT__".toList ∨ trim line = "__TRY_END__".toList then
      (.error "Unexpected \x7b$except\x7d/\x7b$endtry\x7d without \x7b$try\x7d".toList, log)
    else
      match selectBranches symbols proc turns rest log with
      | (.error error, log) => (.error error, log)
      | (.ok more, log) => (.ok (line :: more), log)

/-- `selectTryExceptBranches`: each turn takes a line off what is left. -/
def selectTryExceptBranches (symbols : Symbols) (proc : Option Target) (asmLines : List Text)
    (log : List Text) : Except Text (List Text) × List Text :=
  selectBranches symbols proc asmLines.length asmLines log

end Cecore.AutoAsm
