import Cecore.Core.Types
import Mathlib.Logic.Function.Basic

/-!
# The symbol resolver

`SymbolResolver` of `symbols/elf_symbols.cpp`: the symbols of modules with an index by address, the
labels of the user, and one index by name for both. A module file is what the parsers find in it:
the entries of its tables, with the names that they lead to.
-/

set_option autoImplicit false
set_option relaxedAutoImplicit false

namespace Cecore.Symbols

/-! ### Module files -/

/-- `PEExport`, with the fields that are read. -/
structure PEExport where
  name : Text
  rva : ℕ
  deriving DecidableEq, Repr

/-- An entry of a symbol table, with the C string that `st_name` leads to. -/
structure ElfSym where
  stName : ℕ
  stShndx : ℕ
  type : ℕ
  name : Text
  stValue : ℕ
  stSize : ℕ
  deriving DecidableEq, Repr

/-- A symbol table and its string table. -/
structure ElfSymtab where
  /-- `SHT_SYMTAB`, and not `SHT_DYNSYM`. -/
  full : Bool
  /-- Entries of the right size, and both sections within the file. -/
  readable : Bool
  strSize : ℕ
  syms : List ElfSym
  deriving DecidableEq, Repr

/-- A relocation, with the name of its symbol where there is one. -/
structure ElfRelocation where
  rOffset : ℕ
  symbol : Option Text
  deriving DecidableEq, Repr

/-- An entry of a `.plt` section, and the slot that it jumps to. -/
structure PltEntry where
  address : ℕ
  size : ℕ
  target : ℕ
  deriving DecidableEq, Repr

structure ElfImage where
  /-- `ET_DYN`. -/
  pie : Bool
  symtabs : List ElfSymtab
  /-- What `findSeparateDebugFile` finds. -/
  separateDebug : Option Text
  relocations : List ElfRelocation
  plt : List PltEntry
  deriving DecidableEq, Repr

inductive ModuleFile
  | pe (exports : List PEExport)
  | elf64 (image : ElfImage)
  | elf32 (image : ElfImage)
  | other
  deriving DecidableEq, Repr

/-- The files, and `abi::__cxa_demangle`. -/
structure SymbolFiles where
  file : Text → Option ModuleFile
  demangle : Text → Option Text

/-! ### The resolver -/

/-- A symbol, with the name by which it is indexed, which is no part of the program. -/
structure Symbol where
  name : Text
  address : ℕ
  size : ℕ
  module : Text
  key : Text
  deriving DecidableEq, Repr

structure SymbolResolver where
  symbols : List Symbol
  addrIndex : ℕ → Option ℕ
  nameIndex : Text → Option ℕ
  userSymbols : ℕ → Option Text

namespace SymbolResolver

def new : SymbolResolver where
  symbols := []
  addrIndex := fun _ ↦ none
  nameIndex := fun _ ↦ none
  userSymbols := fun _ ↦ none

/-- `clear`. -/
def clear (s : SymbolResolver) : SymbolResolver :=
  { s with symbols := [], addrIndex := fun _ ↦ none, nameIndex := fun _ ↦ none }

/-- A symbol is pushed and indexed, by its name where the name is new. -/
def push (symbol : Symbol) (s : SymbolResolver) : SymbolResolver :=
  { s with
    symbols := s.symbols ++ [symbol]
    addrIndex := Function.update s.addrIndex symbol.address (some s.symbols.length)
    nameIndex := if (s.nameIndex symbol.key).isSome then s.nameIndex
      else Function.update s.nameIndex symbol.key (some symbol.address) }

/-- The same, where the address has no symbol. -/
def pushNew (symbol : Symbol) (s : SymbolResolver) : SymbolResolver :=
  if (s.addrIndex symbol.address).isSome then s else s.push symbol

/-! ### Loading modules -/

/-- `parsePeExports`. -/
def parsePeExports (exports : List PEExport) (moduleName : Text) (baseAddr : ℕ) (s : SymbolResolver) :
    SymbolResolver :=
  exports.foldl (fun s e ↦
    if e.name = [] ∨ e.rva = 0 then s
    else s.pushNew ⟨e.name, (baseAddr + e.rva) % sizeModulus, 0, moduleName, e.name⟩) s

/-- A name as it is shown. -/
def shownName (files : SymbolFiles) (name : Text) : Text :=
  if ['_', 'Z'].isPrefixOf name then (files.demangle name).getD name else name

/-- The address of a value of an image. -/
def relocated (image : ElfImage) (baseAddr value : ℕ) : ℕ :=
  if image.pie then (value + baseAddr) % sizeModulus else value

/-- `processSymtab`: functions, objects and symbols without a type. -/
def processSymtab (files : SymbolFiles) (image : ElfImage) (moduleName : Text) (baseAddr : ℕ)
    (s : SymbolResolver) (symtab : ElfSymtab) : SymbolResolver :=
  if symtab.readable then
    symtab.syms.foldl (fun s sym ↦
      if sym.stName = 0 ∨ sym.stShndx = 0 ∨ symtab.strSize ≤ sym.stName then s
      else if sym.type ≠ 2 ∧ sym.type ≠ 1 ∧ sym.type ≠ 0 then s
      else if sym.name = [] then s
      else s.push ⟨shownName files sym.name, relocated image baseAddr sym.stValue, sym.stSize, moduleName,
        sym.name⟩) s
  else s

/-- `gotSlotName`: the function that the last relocation of a slot names. -/
def gotSlotName (files : SymbolFiles) (image : ElfImage) (slot : ℕ) : Option Text :=
  (image.relocations.reverse.find? fun rel ↦
    decide (rel.rOffset = slot) && rel.symbol.any fun name ↦ decide (name ≠ [])).bind fun rel ↦
      rel.symbol.map (shownName files)

/-- `processRelocations`. -/
def processRelocations (files : SymbolFiles) (image : ElfImage) (moduleName : Text) (baseAddr : ℕ)
    (s : SymbolResolver) : SymbolResolver :=
  image.relocations.foldl (fun s rel ↦
    match rel.symbol with
    | none | some [] => s
    | some name =>
      let got := shownName files name ++ "@got".toList
      s.pushNew ⟨got, relocated image baseAddr rel.rOffset, 8, moduleName, got⟩) s

/-- The pass over the PLT entries. -/
def processPlt (files : SymbolFiles) (image : ElfImage) (moduleName : Text) (baseAddr : ℕ)
    (s : SymbolResolver) : SymbolResolver :=
  image.plt.foldl (fun s entry ↦
    match gotSlotName files image entry.target with
    | none => s
    | some name =>
      let stub := name ++ "@plt".toList
      s.pushNew ⟨stub, relocated image baseAddr entry.address, entry.size, moduleName, stub⟩) s

/-- The symbol tables of an image. -/
def processSymtabs (files : SymbolFiles) (image : ElfImage) (moduleName : Text) (baseAddr : ℕ)
    (s : SymbolResolver) : SymbolResolver :=
  image.symtabs.foldl (processSymtab files image moduleName baseAddr) s

/-- The passes of `parseElfSymbols`, with what is done about a separate debug file. -/
def parseImage (files : SymbolFiles) (debug : Text → SymbolResolver → SymbolResolver)
    (file : Option ModuleFile) (moduleName : Text) (baseAddr : ℕ)
      (s : SymbolResolver) : SymbolResolver :=
  match file with
  | some (.elf64 image) =>
    let s := processSymtabs files image moduleName baseAddr s
    let s := if image.symtabs.any ElfSymtab.full then s
      else image.separateDebug.elim s fun dbg ↦ debug dbg s
    let s := processRelocations files image moduleName baseAddr s
    processPlt files image moduleName baseAddr s
  | some (.elf32 image) => processSymtabs files image moduleName baseAddr s
  | some (.pe _) | some .other | none => s

/-- `parseElfSymbols`; the debug file is parsed too, without one of its own. -/
def parseElfSymbols (files : SymbolFiles) (path moduleName : Text) (baseAddr : ℕ) (s : SymbolResolver) :
    SymbolResolver :=
  parseImage files (fun dbg s ↦
    if dbg = path then s
    else parseImage files (fun _ s ↦ s) (files.file dbg) moduleName baseAddr s)
    (files.file path) moduleName baseAddr s

/-- `loadModule`. -/
def loadModule (files : SymbolFiles) (path moduleName : Text) (baseAddr : ℕ) (s : SymbolResolver) :
    SymbolResolver :=
  match files.file path with
  | some (.pe exports) => parsePeExports exports moduleName baseAddr s
  | _ => parseElfSymbols files path moduleName baseAddr s

/-- `loadProcess`. -/
def loadProcess (files : SymbolFiles) (modules : List ModuleInfo) (s : SymbolResolver) : SymbolResolver :=
  modules.foldl (fun s m ↦
    if m.path.head? ≠ some '/' ∨ files.file m.path = none then s
    else parseElfSymbols files m.path m.name m.base s) s.clear

/-! ### Labels -/

/-- `addUserSymbol`. -/
def addUserSymbol (address : ℕ) (name : Text) (s : SymbolResolver) : SymbolResolver :=
  { s with
    userSymbols := Function.update s.userSymbols address (some name)
    nameIndex := Function.update s.nameIndex name (some address) }

/-- `removeUserSymbol`. -/
def removeUserSymbol (address : ℕ) (s : SymbolResolver) : SymbolResolver :=
  match s.userSymbols address with
  | some name =>
    { s with
      nameIndex := Function.update s.nameIndex name none
      userSymbols := Function.update s.userSymbols address none }
  | none => s

/-- `lookup`. -/
def lookup (s : SymbolResolver) (name : Text) : ℕ := (s.nameIndex name).getD 0

end SymbolResolver

/-- The calls that change a resolver. -/
inductive SymbolCall
  | addUserSymbol (address : ℕ) (name : Text)
  | removeUserSymbol (address : ℕ)
  | loadModule (path moduleName : Text) (baseAddr : ℕ)
  | loadProcess (modules : List ModuleInfo)
  | clear
  deriving DecidableEq, Repr

namespace SymbolResolver

def call (files : SymbolFiles) (s : SymbolResolver) : SymbolCall → SymbolResolver
  | .addUserSymbol address name => s.addUserSymbol address name
  | .removeUserSymbol address => s.removeUserSymbol address
  | .loadModule path moduleName baseAddr => s.loadModule files path moduleName baseAddr
  | .loadProcess modules => s.loadProcess files modules
  | .clear => s.clear

/-- The resolver after a sequence of calls, each with the files there are at its time. -/
def run (calls : List (SymbolFiles × SymbolCall)) : SymbolResolver :=
  calls.foldl (fun s c ↦ s.call c.1 c.2) new

end SymbolResolver

end Cecore.Symbols
