import Cecore.AutoAsm.Environment
import Cecore.Scanner.Pattern

/-!
# Parsing a script

`extractSection` and `parseLine`: a line declares (allocations, labels, defines, symbols to
register), scans memory for a define, includes other lines, or is left for assembly, directives as a
marker with their arguments. Parsing reads the target and the registered symbols and changes
neither. Expanding a command that expands to itself never ends in the source; the `fuel` of the
model bounds the nesting, and `none` is a parse that does not return.
-/

set_option autoImplicit false
set_option relaxedAutoImplicit false

namespace Cecore.AutoAsm

open Platform

/-- What the lines parsed so far have declared, logged and left for assembly. -/
structure Parsed where
  allocs : List Alloc := []
  labels : List Label := []
  defines : List Define := []
  registeredSymbols : List Text := []
  asmLines : List Text := []
  log : List Text := []
  error : Text := []
  deriving DecidableEq, Repr

namespace Parsed

def addLog (p : Parsed) (entry : Text) : Parsed := { p with log := p.log ++ [entry] }

def addLine (p : Parsed) (line : Text) : Parsed := { p with asmLines := p.asmLines ++ [line] }

def addDefine (p : Parsed) (name value : Text) : Parsed :=
  { p with defines := p.defines ++ [⟨name, value⟩] }

/-- A parse that goes on. -/
def next (p : Parsed) : Option (Bool × Parsed) := some (true, p)

/-- A parse that fails with an error. -/
def fail (p : Parsed) (error : Text) : Option (Bool × Parsed) := some (false, { p with error })

/-- The names declared so far, with the registered symbols. -/
def symbols (p : Parsed) (globalSymbols : Text → Option ℕ) : Symbols :=
  ⟨p.allocs, p.labels, p.defines, globalSymbols⟩

end Parsed

/-! ### Sections -/

/-- `extractSection`: empty when the script has no such section. A second tag of the same name keeps
the section open. -/
def extractSectionFrom (tag : Text) : (inSection : Bool) → List Text → Text
  | _, [] => []
  | inSection, line :: rest =>
    let trimmed := toUpper (trim line)
    if trimmed = tag then extractSectionFrom tag true rest
    else if inSection then
      if 2 < trimmed.length ∧ trimmed.head? = some '[' ∧ trimmed.getLast? = some ']' then []
      else line ++ '\n' :: extractSectionFrom tag true rest
    else extractSectionFrom tag false rest

def extractSection (script name : Text) : Text :=
  extractSectionFrom (toUpper ('[' :: name ++ [']'])) false (getlines '\n' script)

/-! ### Scans for a define -/

/-- The matches that `findAobInRange` counts, in order. -/
def findAobInRange (env : Environment) (t : Target) (start stop : ℕ)
    (pattern mask : List UInt8) : List ℕ :=
  if pattern = [] ∨ stop ≤ start then []
  else (env.queryRegions t).flatMap fun region ↦
    let regionStart := max region.base start
    let regionEnd := min ((region.base + region.size) % sizeModulus) stop
    if region.state ≠ .committed ∨ region.protection.has MemProt.read = false then []
    else if regionEnd ≤ regionStart ∨ regionEnd - regionStart < pattern.length then []
    else match t.read regionStart (regionEnd - regionStart) with
      | none => []
      | some buffer =>
        if buffer.length < pattern.length then []
        else ((List.range (buffer.length - pattern.length + 1)).filter fun offset ↦
          Scanner.maskedMatch (buffer.drop offset) pattern mask).map (regionStart + ·)

/-- Matches in all readable memory, by a first scan; nothing when the scanner throws. -/
def scanAll (env : Environment) (t : Target) (pattern : Text) : Option (List ℕ) :=
  let config : Scanner.ScanConfig :=
    { valueType := .byteArray
      alignment := 1
      byteArray := (Scanner.parseAOB pattern).byteArray
      byteArrayMask := (Scanner.parseAOB pattern).byteArrayMask }
  match Scanner.firstScan env.host config (env.processHandle t) with
  | .error _ => none
  | .ok result => some ((List.range result.count).map result.address)

def moduleMatches (m : ModuleInfo) (requested : Text) : Bool :=
  let reqUpper := toUpper (stripOptionalQuotes requested)
  toUpper m.name = reqUpper || toUpper m.path = reqUpper

/-- The define and the log entry a scan leaves. -/
def Parsed.addScan (p : Parsed) (command name : Text) (found : List ℕ) (place notFound : Text) :
    Parsed :=
  match found with
  | address :: _ =>
    (p.addDefine name (formatHex address)).addLog (command ++ ": ".toList ++ name ++ " = 0x".toList ++
      formatHex address ++ place ++ " (".toList ++ decimal found.length ++ " matches)".toList)
  | [] => p.addLog (command ++ ": ".toList ++ name ++ " NOT FOUND".toList ++ notFound)

/-- `AOBSCANREGION`, `AOBSCANALL`, `AOBSCANMODULE` and `AOBSCAN`, when the line is one of them. -/
def parseScan (env : Environment) (globalSymbols : Text → Option ℕ) (t : Target)
    (line upper : Text) (p : Parsed) : Option (Option (Bool × Parsed)) :=
  if let some args := callArgs "AOBSCANREGION".toList line upper then
    some <| match splitArgs args 4 with
    | [name, startExpr, stopExpr, pattern] =>
      let start := (p.symbols globalSymbols).resolveAddress (trim startExpr)
      let stop := (p.symbols globalSymbols).resolveAddress (trim stopExpr)
      if start = 0 ∨ stop = 0 ∨ stop ≤ start then
        (p.addLog ("AOBSCANREGION: ".toList ++ trim name ++ " invalid range".toList)).next
      else
        let aob := Scanner.parseAOB (stripOptionalQuotes pattern)
        (p.addScan "AOBSCANREGION".toList (trim name)
          (findAobInRange env t start stop aob.byteArray aob.byteArrayMask) [] []).next
    | _ => p.next
  else if let some args := callArgs "AOBSCANALL".toList line upper then
    some <| match splitArgs args 2 with
    | [name, pattern] =>
      (scanAll env t (stripOptionalQuotes pattern)).bind fun found ↦
        (p.addScan "AOBSCANALL".toList (trim name) found [] []).next
    | _ => p.next
  else if let some args := callArgs "AOBSCANMODULE".toList line upper then
    some <| match splitArgs args 3 with
    | [name, moduleName, pattern] =>
      match (env.modules t).find? fun m ↦ moduleMatches m (stripOptionalQuotes moduleName) with
      | none =>
        (p.addLog ("AOBSCANMODULE: ".toList ++ trim name ++ " module not found: ".toList ++
          stripOptionalQuotes moduleName)).next
      | some m =>
        let aob := Scanner.parseAOB (stripOptionalQuotes pattern)
        (p.addScan "AOBSCANMODULE".toList (trim name)
          (findAobInRange env t m.base ((m.base + m.size) % sizeModulus) aob.byteArray
            aob.byteArrayMask) (" in ".toList ++ m.name) (" in ".toList ++ m.name)).next
    | _ => p.next
  else if let some args := callArgs "AOBSCAN".toList line upper then
    some <| match splitArgs args 2 with
    | [name, pattern] =>
      (scanAll env t (stripOptionalQuotes pattern)).bind fun found ↦
        (p.addScan "AOBSCAN".toList (trim name) found [] []).next
    | _ => p.next
  else none

/-! ### Declarations -/

/-- `ALLOC`, `GLOBALALLOC` and `KALLOC`: the word in the error, the start of the log entry, and
whether the name is exported. -/
def addAlloc (p : Parsed) (args word logged : Text) (exported : Bool) : Option (Bool × Parsed) :=
  match parseAllocArgs args with
  | none => p.fail ("Invalid ".toList ++ word ++ "() arguments: ".toList ++ args)
  | some (name, size, preferredExpr) =>
    ({ p with
      allocs := p.allocs ++ [{ name, size, preferredExpr }]
      registeredSymbols := if exported then p.registeredSymbols ++ [name] else p.registeredSymbols
      log := p.log ++ [logged ++ name ++ " size=".toList ++ decimal size] } : Parsed).next

/-- The message of a `BREAK` line. -/
def breakError (line : Text) : Text :=
  let msg := if 5 < line.length then trim (line.drop 5) else []
  let msg := if msg.head? = some '(' ∧ msg.getLast? = some ')' then msg.tail.dropLast else msg
  if msg = [] then "BREAK encountered".toList else "BREAK: ".toList ++ msg

/-- The lines that declare something or fail, when the line is one of them. -/
def parseDeclaration (line upper : Text) (p : Parsed) : Option (Option (Bool × Parsed)) :=
  if let some args := callArgs "ALLOC".toList line upper then
    some (addAlloc p args "alloc".toList "ALLOC: ".toList false)
  else if let some args := callArgs "GLOBALALLOC".toList line upper then
    some (addAlloc p args "globalalloc".toList "GLOBALALLOC: ".toList true)
  else if let some args := callArgs "KALLOC".toList line upper then
    some (addAlloc p args "kalloc".toList "KALLOC (mapped as ALLOC on Linux): ".toList false)
  else if startsWith upper "UNLOCK ".toList then
    some (p.addLine ("lock ".toList ++ line.drop 7)).next
  else if upper = "BREAK".toList ∨ startsWith upper "BREAK ".toList ∨
      startsWith upper "BREAK(".toList then
    some (p.fail (breakError line))
  else if let some args := callArgs "LABEL".toList line upper then
    some ({ p with labels := p.labels ++ (getlines ',' args).map fun name ↦ ⟨trim name, 0⟩ } :
      Parsed).next
  else if let some args := callArgs "DEFINE".toList line upper then
    some (match cutAt ',' args with
      | some (name, value) => (p.addDefine (trim name) (trim value)).next
      | none => p.next)
  else if let some args := callArgs "REGISTERSYMBOL".toList line upper then
    some ({ p with registeredSymbols := p.registeredSymbols ++ (getlines ',' args).map trim } :
      Parsed).next
  else none

/-- The log entry of an `ASSERT` line. -/
def Parsed.logAssert (p : Parsed) (args : Text) : Parsed :=
  match cutAt ',' args with
  | some (addrExpr, bytes) =>
    p.addLog ("ASSERT: ".toList ++ trim addrExpr ++ " = ".toList ++ trim bytes)
  | none => p

/-- The directives left for assembly as a marker with their arguments, when the line is one of them;
`hasProc` is whether there is a target. -/
def parseDeferred (hasProc : Bool) (line upper : Text) (p : Parsed) : Option Parsed :=
  if let some args := callArgs "DEALLOC".toList line upper then
    some (p.addLine ("__DEALLOC__:".toList ++ args))
  else if let some args := callArgs "UNREGISTERSYMBOL".toList line upper then
    some (p.addLine ("__UNREGISTERSYMBOL__:".toList ++ args))
  else if let some args := callArgs "FULLACCESS".toList line upper then
    some (p.addLine ("__FULLACCESS__:".toList ++ args))
  else if let some args := callArgs "ASSERT".toList line upper then
    some ((p.logAssert args).addLine ("__ASSERT__:".toList ++ args))
  else if let some args := callArgs "CREATETHREAD".toList line upper then
    some ((p.addLog ("CREATETHREAD: ".toList ++ trim args ++
      " (deferred to post-injection)".toList)).addLine ("__CREATETHREAD__:".toList ++ trim args))
  else if let some args := callArgs "CREATETHREADANDWAIT".toList line upper then
    some ((p.addLog ("CREATETHREADANDWAIT: ".toList ++ trim args)).addLine
      ("__CREATETHREADANDWAIT__:".toList ++ trim args))
  else if let some args := (if hasProc then callArgs "REASSEMBLE".toList line upper else none) then
    some (p.addLine ("__REASSEMBLE__:".toList ++ trim args))
  else if let some args := callArgs "READMEM".toList line upper then
    some (p.addLine ("__READMEM__:".toList ++ trim args))
  else if let some args := callArgs "LOADBINARY".toList line upper then
    some (p.addLine ("__LOADBINARY__:".toList ++ trim args))
  else if let some args := callArgs "LOADLIBRARY".toList line upper then
    some (p.addLine ("__LOADLIBRARY__:".toList ++ trim args))
  else if let some args := callArgs "FILLMEM".toList line upper then
    some (p.addLine ("__FILLMEM__:".toList ++ trim args))
  else if upper = "NOP".toList ∨ startsWith upper "NOP ".toList then
    some (p.addLine ("__NOP__:".toList ++ trim (if 3 < line.length then line.drop 3 else ['1'])))
  else if startsWith upper "DS ".toList then
    some (p.addLine ("__DS__:".toList ++ trim (line.drop 3)))
  else none

/-- Name and arguments of a line read as a registered command. -/
def splitCommand (line : Text) : Text × Text :=
  match (if line.getLast? = some ')' then cutAt '(' line else none) with
  | some (name, args) => (trim name, args.dropLast)
  | none =>
    let name := line.takeWhile fun c ↦ c ≠ ' ' ∧ c ≠ '\t'
    (trim name, trim (line.drop (name.length + 1)))

/-! ### Lines -/

/-- The lines in turn, until one fails. -/
def parseAll (parse : Text → Parsed → Option (Bool × Parsed)) :
    List Text → Parsed → Option (Bool × Parsed)
  | [], p => p.next
  | line :: rest, p =>
    match parse line p with
    | some (true, p) => parseAll parse rest p
    | stopped => stopped

def kMaxIncludeDepth : ℕ := 16

/-- `parseLine`; there is no target when only the syntax is checked. -/
def parseLine (env : Environment) (globalSymbols : Text → Option ℕ) (proc : Option Target) :
    (fuel includeDepth : ℕ) → Text → Parsed → Option (Bool × Parsed)
  | 0, _, _, _ => none
  | fuel + 1, includeDepth, rawLine, p =>
    let line := trim rawLine
    if line = [] ∨ line.head? = some '/' ∨ line.head? = some ';' then p.next
    else
      let line := stripInlineComment line
      let upper := toUpper line
      if line = [] then p.next
      else if upper = "\x7b$TRY\x7d".toList then (p.addLine "__TRY_BEGIN__".toList).next
      else if upper = "\x7b$EXCEPT\x7d".toList then (p.addLine "__TRY_EXCEPT__".toList).next
      else if upper = "\x7b$ENDTRY\x7d".toList then (p.addLine "__TRY_END__".toList).next
      else if let some outcome := parseDeclaration line upper p then outcome
      else if let some outcome := proc.bind fun t ↦ parseScan env globalSymbols t line upper p then
        outcome
      else if let some args := callArgs "INCLUDE".toList line upper then
        let filename := dropDoubleQuotes (trim args)
        if kMaxIncludeDepth ≤ includeDepth then
          p.fail ("INCLUDE nesting too deep (limit ".toList ++ decimal kMaxIncludeDepth ++
            "): ".toList ++ filename)
        else match env.file filename with
          | none => (p.addLog ("INCLUDE: ".toList ++ filename ++ " (NOT FOUND)".toList)).next
          | some content =>
            match parseAll (parseLine env globalSymbols proc fuel (includeDepth + 1))
                (getlines '\n' content) p with
            | some (true, p) => (p.addLog ("INCLUDE: ".toList ++ filename ++ " (loaded)".toList)).next
            | stopped => stopped
      else if let some p := parseDeferred proc.isSome line upper p then p.next
      else
        let (customName, customArgs) := splitCommand line
        match env.customCommand (normalizeCommandName customName) with
        | none => (p.addLine line).next
        | some handler =>
          let expanded := handler customArgs p.log p.error
          let p := { p with log := expanded.log, error := expanded.error }
          if expanded.ok then
            parseAll (parseLine env globalSymbols proc fuel includeDepth) expanded.output p
          else if p.error = [] then p.fail ("Custom command failed: ".toList ++ customName)
          else some (false, p)

end Cecore.AutoAsm
