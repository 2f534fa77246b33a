import Cecore.AutoAsm.Line

/-!
# The sizing pass

`resolveForwardLabels` runs over the lines without writing, to find the address of each label. A
pass assembles with the addresses of the pass before and with the current address in place of a
label that has none yet; passes repeat until no address changes, at most eight times.
-/

set_option autoImplicit false
set_option relaxedAutoImplicit false

namespace Cecore.AutoAsm

open Platform

/-- The state of a pass. -/
structure Sizing where
  labels : List Label
  currentAddr : ℕ := 0
  changed : Bool := false
  deriving DecidableEq, Repr

section Pass

variable (env : Environment) (script : Script) (globalSymbols : Text → Option ℕ) (t : Target)

/-- `substituteForSizing`: labels without an address become the current address. -/
def substituteForSizing (labels : List Label) (line : Text) (currentAddr : ℕ) : Text :=
  outsideQuotes
    (fun span ↦ labels.foldl (fun text l ↦
      if l.address ≠ 0 then text
      else replaceWholeToken l.name (formatHexLiteral currentAddr) text) span)
    ((script.symbols labels globalSymbols).substituteSymbols line)

/-- A label definition: an allocated block, a declared label, or an address. -/
def sizeLabel (s : Sizing) (labelName : Text) : Except Text Sizing :=
  match script.allocs.find? fun a ↦ a.name = labelName with
  | some a => .ok { s with currentAddr := a.address }
  | none =>
    match s.labels.find? fun l ↦ l.name = labelName with
    | some l =>
      if s.currentAddr = 0 then
        .error ("Label has no active assembly address: ".toList ++ labelName)
      else if l.address = s.currentAddr then .ok s
      else .ok { s with labels := bindLabel labelName s.currentAddr s.labels, changed := true }
    | none =>
      let targetAddr := (script.symbols s.labels globalSymbols).resolveAddress labelName
      if targetAddr = 0 then .error ("Unresolved auto-assembler target: ".toList ++ labelName)
      else .ok { s with currentAddr := targetAddr }

/-- How many bytes a line that emits at the current address takes up. -/
def lineSize (labels : List Label) (currentAddr : ℕ) (trimmedLine : Text) : Line → Except Text ℕ
  | .reassemble addrExpr =>
    let addr := (script.symbols labels globalSymbols).resolveAddress addrExpr
    if addr = 0 then .error ("Invalid REASSEMBLE target: ".toList ++ addrExpr)
    else match instructionAt env script t addr with
      | none => .error ("REASSEMBLE read failed at ".toList ++ addrExpr)
      | some none => .error ("REASSEMBLE disassembly failed at ".toList ++ addrExpr)
      | some (some asmCode) =>
        match env.assemble script.is32 asmCode currentAddr with
        | .error message =>
          .error ("REASSEMBLE sizing failed at ".toList ++ addrExpr ++ ": ".toList ++ message)
        | .ok bytes => .ok bytes.length
  | .readMem args =>
    match cutAt ',' args with
    | none => .error "READMEM requires address and size".toList
    | some (_, sizeText) =>
      match stoull 0 (trim sizeText) with
      | none => .error ("Invalid READMEM size: ".toList ++ trim sizeText)
      | some (size, _) => .ok size
  | .nop countExpr => parseNopCount (trim countExpr)
  | .ds text =>
    if stripOptionalQuotes text = [] then .error "DS requires a string".toList
    else .ok (stripOptionalQuotes text).length
  | .data op values =>
    match parseDataDirective env.fromChars op
        (substituteForSizing script globalSymbols labels values currentAddr) with
    | .error error => .error error
    | .ok bytes => .ok bytes.length
  | .asm code =>
    match env.assemble script.is32 (substituteForSizing script globalSymbols labels code currentAddr)
        currentAddr with
    | .error message =>
      .error ("Assembly sizing error at ".toList ++ formatHexLiteral currentAddr ++ ": ".toList ++
        message ++ "\n  Line: ".toList ++ trimmedLine)
    | .ok bytes => .ok bytes.length
  | .label _ | .fullAccess _ | .assert _ | .unregisterSymbol _ | .dealloc _ | .createThread _
  | .createThreadAndWait _ | .loadBinary _ | .loadLibrary _ | .fillMem _ => .ok 0

/-- Whether a line needs no current address. -/
def Line.needsNoAddress : Line → Bool
  | .label _ | .fullAccess _ | .assert _ | .unregisterSymbol _ | .dealloc _ | .createThread _
  | .createThreadAndWait _ | .loadBinary _ | .loadLibrary _ => true
  | .reassemble _ | .readMem _ | .fillMem _ | .nop _ | .ds _ | .data _ _ | .asm _ => false

/-- One line of a pass. -/
def sizeLine (s : Sizing) (rawLine : Text) : Except Text Sizing :=
  let trimmedLine := trim rawLine
  if trimmedLine = [] then .ok s
  else match classify trimmedLine with
    | .label labelName => sizeLabel script globalSymbols s labelName
    | line =>
      if line.needsNoAddress then .ok s
      else if s.currentAddr = 0 then
        .error ("No active assembly address for line: ".toList ++ trimmedLine)
      else match lineSize env script globalSymbols t s.labels s.currentAddr trimmedLine line with
        | .error error => .error error
        | .ok size => .ok { s with currentAddr := advance s.currentAddr size }

/-- The lines of a pass in turn. -/
def sizeLines : Sizing → List Text → Except Text Sizing
  | s, [] => .ok s
  | s, line :: rest =>
    match sizeLine env script globalSymbols t s line with
    | .error error => .error error
    | .ok s => sizeLines s rest

/-- Passes until no label moves. -/
def sizingPasses (asmLines : List Text) : (passes : ℕ) → List Label → Except Text (List Label)
  | 0, _ => .error "Forward label resolution did not converge".toList
  | passes + 1, labels =>
    match sizeLines env script globalSymbols t { labels } asmLines with
    | .error error => .error error
    | .ok s => if s.changed then sizingPasses asmLines passes s.labels else .ok s.labels

def maxPasses : ℕ := 8

def resolveForwardLabels (asmLines : List Text) (labels : List Label) :
    Except Text (List Label) :=
  sizingPasses env script globalSymbols t asmLines maxPasses labels

end Pass

end Cecore.AutoAsm
