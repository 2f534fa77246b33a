import Cecore.Library.CheckedBuffer
import Cecore.Symbols.SymbolResolver

/-!
# ELF files

`parseElfSymbols` of `symbols/elf_symbols.cpp` as it reads a file: the headers, the symbol tables
(of 64-bit files, and of 32-bit files in `parseElf32Symbols`), the notes and the `.gnu_debuglink`
that lead to a separate debug file, the relocations and the PLT. Each section is loaded into a buffer
of its own, and every read of such a buffer is checked. What is read goes to the `SymbolResolver`.
-/

set_option autoImplicit false
set_option relaxedAutoImplicit false

namespace Cecore.Symbols.Elf

open Library.CheckedBuffer

/-! ### Layouts -/

/-- Where the fields stand that differ between 32-bit and 64-bit files; `word` is the size of an
address. -/
structure ElfClass where
  word : ℕ
  ehdrSize : ℕ
  eShoff : ℕ
  eShnum : ℕ
  shdrSize : ℕ
  shAddr : ℕ
  shOffset : ℕ
  shSize : ℕ
  shLink : ℕ
  shEntsize : ℕ
  symSize : ℕ
  stInfo : ℕ
  stShndx : ℕ
  stValue : ℕ
  stSize : ℕ
  deriving DecidableEq, Repr

/-- `Elf64_Ehdr`, `Elf64_Shdr` and `Elf64_Sym`. -/
def elf64 : ElfClass where
  word := 8
  ehdrSize := 64
  eShoff := 40
  eShnum := 60
  shdrSize := 64
  shAddr := 16
  shOffset := 24
  shSize := 32
  shLink := 40
  shEntsize := 56
  symSize := 24
  stInfo := 4
  stShndx := 6
  stValue := 8
  stSize := 16

/-- `Elf32_Ehdr`, `Elf32_Shdr` and `Elf32_Sym`. -/
def elf32 : ElfClass where
  word := 4
  ehdrSize := 52
  eShoff := 32
  eShnum := 48
  shdrSize := 40
  shAddr := 12
  shOffset := 16
  shSize := 20
  shLink := 24
  shEntsize := 36
  symSize := 16
  stInfo := 12
  stShndx := 14
  stValue := 4
  stSize := 8

def shtProgbits : ℕ := 1
def shtSymtab : ℕ := 2
def shtRela : ℕ := 4
def shtNote : ℕ := 7
def shtDynsym : ℕ := 11
def etDyn : ℕ := 3
def ntGnuBuildId : ℕ := 3
def relaSize : ℕ := 24
def nhdrSize : ℕ := 12

/-- A section header, with the fields that are read. -/
structure Shdr where
  name : ℕ
  type : ℕ
  addr : ℕ
  offset : ℕ
  size : ℕ
  link : ℕ
  entsize : ℕ
  deriving DecidableEq, Repr

structure Ehdr where
  type : ℕ
  shoff : ℕ
  shnum : ℕ
  shstrndx : ℕ
  deriving DecidableEq, Repr

/-! ### Buffers -/

/-- `seekg` and `read` of `n` bytes into a buffer of that size, none where the stream fails. -/
def readAt (b : Buffer) (offset n : ℕ) : Option Buffer :=
  if offset + n ≤ b.size then some ⟨n, fun i ↦ b.byte (offset + i)⟩ else none

/-- A buffer with its last byte set to zero. -/
def terminated (b : Buffer) : Buffer := ⟨b.size, fun i ↦ if i + 1 = b.size then 0 else b.byte i⟩

/-- The bounds test of a section against the size of the file, which does not wrap. -/
def inFile (b : Buffer) (sh : Shdr) : Bool := sh.offset ≤ b.size && sh.size ≤ b.size - sh.offset

/-- A C string of a buffer; one without an end is read on behind the buffer. -/
def cString (b : Buffer) (o : ℕ) : Checked Text :=
  if _h : o < b.size then do
    let c ← b.readNat 1 o
    if c = 0 then pure []
    else do
      let rest ← cString b (o + 1)
      pure (Char.ofNat c :: rest)
  else throw .outside
termination_by b.size - o

/-- `strcmp` with a literal is zero. -/
def strcmp (b : Buffer) : (o : ℕ) → Text → Checked Bool
  | o, [] => do
    let c ← b.readNat 1 o
    pure (decide (c = 0))
  | o, letter :: rest => do
    let c ← b.readNat 1 o
    if c ≠ letter.toNat then pure false else strcmp b (o + 1) rest

/-! ### Headers -/

def readEhdr (c : ElfClass) (header : Buffer) : Checked Ehdr := do
  let type ← header.readNat 2 16
  let shoff ← header.readNat c.word c.eShoff
  let shnum ← header.readNat 2 c.eShnum
  let shstrndx ← header.readNat 2 (c.eShnum + 2 : ℕ)
  pure ⟨type, shoff, shnum, shstrndx⟩

def readShdr (c : ElfClass) (table : Buffer) (k : ℕ) : Checked Shdr := do
  let name ← table.readNat 4 (k * c.shdrSize : ℕ)
  let type ← table.readNat 4 (k * c.shdrSize + 4 : ℕ)
  let addr ← table.readNat c.word (k * c.shdrSize + c.shAddr : ℕ)
  let offset ← table.readNat c.word (k * c.shdrSize + c.shOffset : ℕ)
  let size ← table.readNat c.word (k * c.shdrSize + c.shSize : ℕ)
  let link ← table.readNat 4 (k * c.shdrSize + c.shLink : ℕ)
  let entsize ← table.readNat c.word (k * c.shdrSize + c.shEntsize : ℕ)
  pure ⟨name, type, addr, offset, size, link, entsize⟩

/-- The header and the section headers behind it; none where the function returns. -/
def readHeaders (c : ElfClass) (b header : Buffer) : Checked (Option (Ehdr × List Shdr)) := do
  let ehdr ← readEhdr c header
  if ehdr.shoff = 0 ∨ ehdr.shnum = 0 then pure none
  else
    match readAt b ehdr.shoff (ehdr.shnum * c.shdrSize) with
    | none => pure none
    | some table => do
      let shdrs ← (List.range ehdr.shnum).mapM (readShdr c table)
      pure (some (ehdr, shdrs))

/-! ### Symbol tables -/

/-- The tables that `processSymtab` and `processRelocations` load: the strings, and the entries that
are `entrySize` bytes each. -/
def loadTables (b : Buffer) (entrySize : ℕ) (symShdr strShdr : Shdr) : Option (Buffer × Buffer) :=
  if inFile b strShdr && inFile b symShdr then
    match readAt b strShdr.offset strShdr.size,
      readAt b symShdr.offset (symShdr.size / entrySize * entrySize) with
    | some strtab, some syms => some (terminated strtab, syms)
    | _, _ => none
  else none

/-- Entry `k`. The name is looked up where the tests in front of it pass. -/
def readSym (c : ElfClass) (strtab syms : Buffer) (k : ℕ) : Checked ElfSym := do
  let stName ← syms.readNat 4 (k * c.symSize : ℕ)
  let stInfo ← syms.readNat 1 (k * c.symSize + c.stInfo : ℕ)
  let stShndx ← syms.readNat 2 (k * c.symSize + c.stShndx : ℕ)
  let stValue ← syms.readNat c.word (k * c.symSize + c.stValue : ℕ)
  let stSize ← syms.readNat c.word (k * c.symSize + c.stSize : ℕ)
  let type := stInfo % 16
  if stName = 0 ∨ stShndx = 0 ∨ strtab.size ≤ stName ∨ (type ≠ 2 ∧ type ≠ 1 ∧ type ≠ 0) then
    pure ⟨stName, stShndx, type, [], stValue, stSize⟩
  else do
    let name ← cString strtab stName
    pure ⟨stName, stShndx, type, name, stValue, stSize⟩

/-- `processSymtab`: what it reads of a table. -/
def readSymtab (c : ElfClass) (b : Buffer) (symShdr strShdr : Shdr) : Checked ElfSymtab :=
  let full := decide (symShdr.type = shtSymtab)
  if symShdr.entsize ≠ c.symSize then pure ⟨full, false, strShdr.size, []⟩
  else
    match loadTables b c.symSize symShdr strShdr with
    | none => pure ⟨full, false, strShdr.size, []⟩
    | some (strtab, syms) => do
      let entries ← (List.range (symShdr.size / c.symSize)).mapM (readSym c strtab syms)
      pure ⟨full, true, strShdr.size, entries⟩

/-- The section that is `SHT_DYNSYM` or `SHT_SYMTAB`, with its string table. -/
def symtabOf (shdrs : List Shdr) (sh : Shdr) : Option (Shdr × Shdr) :=
  if sh.type = shtDynsym ∨ sh.type = shtSymtab then (shdrs[sh.link]?).map fun str ↦ (sh, str)
  else none

def readSymtabs (c : ElfClass) (b : Buffer) (shdrs : List Shdr) : Checked (List ElfSymtab) :=
  (shdrs.filterMap (symtabOf shdrs)).mapM fun tables ↦ readSymtab c b tables.1 tables.2

/-! ### Separate debug files -/

/-- The size of a part of a note with its padding, in 32 bits. -/
def padded (size : ℕ) : ℕ := (size + 3) % 2 ^ 32 / 4 * 4

def hexDigit (digit : ℕ) : Char := ("0123456789abcdef".toList).getD digit '0'

/-- The path that a build id leads to. -/
def buildIdPath (desc : List UInt8) : Text :=
  let id := desc.flatMap fun byte ↦ [hexDigit (byte.toNat / 16), hexDigit (byte.toNat % 16)]
  "/usr/lib/debug/.build-id/".toList ++ id.take 2 ++ ['/'] ++ id.drop 2 ++ ".debug".toList

/-- The files: their contents, and which of them exist. -/
structure FileSystem where
  content : Text → Option Buffer
  exists_ : Text → Bool

/-- The debug file of a note of this name and content, by its build id. `memcmp` compares three
bytes, which may be more than the name has. -/
def noteDebugFile (fs : FileSystem) (buf : Buffer) (nameOff descOff namesz descsz type : ℕ) :
    Checked (Option Text) :=
  if type = ntGnuBuildId ∧ 3 ≤ namesz ∧ 2 ≤ descsz then do
    let owner ← buf.read nameOff 3
    if owner = [0x47, 0x4E, 0x55] then do
      let desc ← buf.read descOff descsz
      pure (if fs.exists_ (buildIdPath desc) then some (buildIdPath desc) else none)
    else pure none
  else pure none

/-- The walk over the notes of a section, from `off` on. -/
def noteWalk (fs : FileSystem) (buf : Buffer) (off : ℕ) : Checked (Option Text) :=
  if _h : off + nhdrSize ≤ buf.size then do
    let namesz ← buf.readNat 4 off
    let descsz ← buf.readNat 4 (off + 4 : ℕ)
    let type ← buf.readNat 4 (off + 8 : ℕ)
    let descOff := off + nhdrSize + padded namesz
    let next := descOff + padded descsz
    if buf.size < descOff ∨ buf.size - descOff < descsz then pure none
    else do
      let found ← noteDebugFile fs buf (off + nhdrSize) descOff namesz descsz type
      match found with
      | some path => pure (some path)
      | none => if _hnext : next ≤ off then pure none else noteWalk fs buf next
  else pure none
termination_by buf.size - off
decreasing_by
  rw [nhdrSize] at *
  omega

/-- The notes of a section that is loaded. -/
def loadNotes (b : Buffer) (sh : Shdr) : Option Buffer :=
  if sh.type ≠ shtNote ∨ inFile b sh = false ∨ sh.size < nhdrSize ∨ 2 ^ 20 < sh.size then none
  else readAt b sh.offset sh.size

/-- The first debug file that a build id leads to. -/
def buildIdFile (fs : FileSystem) (b : Buffer) : List Shdr → Checked (Option Text)
  | [] => pure none
  | sh :: rest =>
    match loadNotes b sh with
    | none => buildIdFile fs b rest
    | some buf => do
      match ← noteWalk fs buf 0 with
      | some path => pure (some path)
      | none => buildIdFile fs b rest

/-- `operator/` of a path. -/
def joinPath (dir name : Text) : Text :=
  if name.head? = some '/' ∨ dir = [] then name
  else if dir.getLast? = some '/' then dir ++ name else dir ++ '/' :: name

/-- `parent_path`. -/
def parentPath (path : Text) : Text :=
  let front := (path.reverse.dropWhile (· ≠ '/')).reverse
  let stripped := (front.reverse.dropWhile (· = '/')).reverse
  if stripped = [] then front.take 1 else stripped

/-- `relative_path`. -/
def relativePath (path : Text) : Text := path.dropWhile (· = '/')

/-- Where a `.gnu_debuglink` of this name is looked for. -/
def debugLinkPaths (origPath debugName : Text) : List Text :=
  let dir := parentPath origPath
  [joinPath dir debugName, joinPath (joinPath dir ".debug".toList) debugName,
    joinPath (joinPath "/usr/lib/debug".toList (relativePath dir)) debugName]

/-- The debug file that the content of a `.gnu_debuglink` section leads to. -/
def linkedFile (fs : FileSystem) (b : Buffer) (origPath : Text) (sh : Shdr) :
    Checked (Option Text) :=
  if inFile b sh = false ∨ sh.size < 5 ∨ 4096 < sh.size then pure none
  else
    match readAt b sh.offset sh.size with
    | none => pure none
    | some dl => do
      let debugName ← cString (terminated dl) 0
      pure (if debugName = [] then none
        else (debugLinkPaths origPath debugName).find? fs.exists_)

/-- The first section that is named `.gnu_debuglink` decides. -/
def findDebugLink (fs : FileSystem) (b names : Buffer) (origPath : Text) :
    List Shdr → Checked (Option Text)
  | [] => pure none
  | sh :: rest =>
    if names.size ≤ sh.name then findDebugLink fs b names origPath rest
    else do
      let same ← strcmp names sh.name ".gnu_debuglink".toList
      if same then linkedFile fs b origPath sh else findDebugLink fs b names origPath rest

/-- The names of the sections, with an end. -/
def sectionNames (b : Buffer) (ehdr : Ehdr) (shdrs : List Shdr) : Option Buffer :=
  match shdrs[ehdr.shstrndx]? with
  | none => none
  | some shstr =>
    if inFile b shstr then
      ((readAt b shstr.offset shstr.size).filter fun names ↦ names.size ≠ 0).map terminated
    else none

/-- `findSeparateDebugFile`; the empty path is none. -/
def findSeparateDebugFile (fs : FileSystem) (b : Buffer) (origPath : Text) (ehdr : Ehdr)
    (shdrs : List Shdr) : Checked (Option Text) := do
  match ← buildIdFile fs b shdrs with
  | some path => pure (some path)
  | none =>
    match (sectionNames b ehdr shdrs).filter fun names ↦ names.size < 2 ^ 20 with
    | none => pure none
    | some names => findDebugLink fs b names origPath shdrs

/-! ### Relocations and the PLT -/

/-- Relocation `k`, with the name of its symbol. -/
def readRelocation (strtab syms rels : Buffer) (numSyms k : ℕ) : Checked ElfRelocation := do
  let rOffset ← rels.readNat 8 (k * relaSize : ℕ)
  let rInfo ← rels.readNat 8 (k * relaSize + 8 : ℕ)
  let symIdx := rInfo / 2 ^ 32
  if symIdx = 0 ∨ numSyms ≤ symIdx then pure ⟨rOffset, none⟩
  else do
    let stName ← syms.readNat 4 (symIdx * elf64.symSize : ℕ)
    if stName = 0 ∨ strtab.size ≤ stName then pure ⟨rOffset, none⟩
    else do
      let name ← cString strtab stName
      pure ⟨rOffset, some name⟩

/-- `processRelocations`: what it reads of a section. -/
def readRelocations (b : Buffer) (shdrs : List Shdr) (relShdr : Shdr) :
    Checked (List ElfRelocation) :=
  if relShdr.entsize ≠ relaSize then pure []
  else
    match shdrs[relShdr.link]? with
    | none => pure []
    | some symShdr =>
      match shdrs[symShdr.link]? with
      | none => pure []
      | some strShdr =>
        if symShdr.entsize ≠ elf64.symSize ∨ inFile b relShdr = false then pure []
        else
          match loadTables b elf64.symSize symShdr strShdr,
            readAt b relShdr.offset (relShdr.size / relaSize * relaSize) with
          | some (strtab, syms), some rels =>
            (List.range (relShdr.size / relaSize)).mapM
              (readRelocation strtab syms rels (symShdr.size / elf64.symSize))
          | _, _ => pure []

/-- The first `ff 25` of an entry from `j` on. -/
def findJump (code : Buffer) (off entsz j : ℕ) : Checked (Option ℕ) :=
  if _h : j + 6 ≤ entsz then do
    let first ← code.readNat 1 (off + j : ℕ)
    if first ≠ 0xFF then findJump code off entsz (j + 1)
    else do
      let second ← code.readNat 1 (off + j + 1 : ℕ)
      if second ≠ 0x25 then findJump code off entsz (j + 1) else pure (some j)
  else pure none
termination_by entsz - j

/-- The slot that the jump of an entry goes through. -/
def readPltEntry (code : Buffer) (shAddr entsz off : ℕ) : Checked (Option PltEntry) := do
  match ← findJump code off entsz 0 with
  | none => pure none
  | some j => do
    let disp ← code.readInt 4 (off + j + 2 : ℕ)
    let target := ((shAddr + off + j + 6 : ℕ) + disp) % (sizeModulus : ℤ)
    pure (some ⟨(shAddr + off) % sizeModulus, entsz, target.toNat⟩)

/-- The loop over the entries, from `off` on. A first entry that is larger than the section ends it,
so `off + entsz` does not wrap. -/
def pltLoop (code : Buffer) (shAddr entsz off : ℕ) : Checked (List PltEntry) :=
  if _h : 0 < entsz ∧ off + entsz ≤ code.size then do
    let entry ← readPltEntry code shAddr entsz off
    let rest ← pltLoop code shAddr entsz (off + entsz)
    pure (entry.toList ++ rest)
  else pure []
termination_by code.size - off

/-- The entries of a section whose name begins with `.plt`. -/
def readPltSection (b names : Buffer) (sh : Shdr) : Checked (List PltEntry) :=
  if sh.type ≠ shtProgbits ∨ names.size ≤ sh.name then pure []
  else do
    let sname ← cString names sh.name
    if !".plt".toList.isPrefixOf sname || !inFile b sh then pure []
    else
      match readAt b sh.offset sh.size with
      | none => pure []
      | some code => pltLoop code sh.addr (if 8 ≤ sh.entsize then sh.entsize else 16) 0

/-- The PLT pass, which is made where a slot has a name. -/
def readPlt (b : Buffer) (ehdr : Ehdr) (shdrs : List Shdr) (relocations : List ElfRelocation) :
    Checked (List PltEntry) :=
  if relocations.any fun rel ↦ rel.symbol.any fun name ↦ decide (name ≠ []) then
    match sectionNames b ehdr shdrs with
    | none => pure []
    | some names => do
      let entries ← shdrs.mapM (readPltSection b names)
      pure entries.flatten
  else pure []

/-! ### Modules -/

/-- A separate debug file is looked for where there is no full symbol table. -/
def separateDebugFile (fs : FileSystem) (path : Text) (b : Buffer) (followDebugLink : Bool)
    (ehdr : Ehdr) (shdrs : List Shdr) (symtabs : List ElfSymtab) : Checked (Option Text) :=
  if !symtabs.any ElfSymtab.full && followDebugLink then
    findSeparateDebugFile fs b path ehdr shdrs
  else pure none

/-- The passes of `parseElfSymbols` over a 64-bit file. -/
def readElf64 (fs : FileSystem) (path : Text) (b : Buffer) (followDebugLink : Bool) (ehdr : Ehdr)
    (shdrs : List Shdr) : Checked ElfImage := do
  let symtabs ← readSymtabs elf64 b shdrs
  let separateDebug ← separateDebugFile fs path b followDebugLink ehdr shdrs symtabs
  let relocations ← (shdrs.filter fun sh ↦ decide (sh.type = shtRela)).mapM (readRelocations b shdrs)
  let plt ← readPlt b ehdr shdrs relocations.flatten
  pure ⟨decide (ehdr.type = etDyn), symtabs, separateDebug, relocations.flatten, plt⟩

/-- `parseElf32Symbols`: what it reads. -/
def readElf32 (b : Buffer) : Checked ModuleFile :=
  match readAt b 0 elf32.ehdrSize with
  | none => pure .other
  | some header => do
    match ← readHeaders elf32 b header with
    | none => pure .other
    | some (ehdr, shdrs) => do
      let symtabs ← readSymtabs elf32 b shdrs
      pure (.elf32 ⟨decide (ehdr.type = etDyn), symtabs, none, [], []⟩)

/-- `parseElfSymbols`: what it reads of a file. -/
def readModule (fs : FileSystem) (path : Text) (followDebugLink : Bool) :
    Checked (Option ModuleFile) :=
  match fs.content path with
  | none => pure none
  | some b =>
    match readAt b 0 elf64.ehdrSize with
    | none => pure (some .other)
    | some header => do
      let magic ← header.read 0 4
      let fileClass ← header.readNat 1 4
      if magic ≠ [0x7F, 0x45, 0x4C, 0x46] then pure (some .other)
      else if fileClass = 1 then do
        let file ← readElf32 b
        pure (some file)
      else if fileClass ≠ 2 then pure (some .other)
      else do
        match ← readHeaders elf64 b header with
        | none => pure (some .other)
        | some (ehdr, shdrs) => do
          let image ← readElf64 fs path b followDebugLink ehdr shdrs
          pure (some (.elf64 image))

/-- The debug file that is parsed behind the symbol tables of a file. -/
def debugFileOf (path : Text) : Option ModuleFile → Option Text
  | some (.elf64 image) => image.separateDebug.filter fun dbg ↦ decide (dbg ≠ path)
  | _ => none

/-- What is read of that debug file, which is not followed to another one. -/
def readDebugFile (fs : FileSystem) (path : Text) (file : Option ModuleFile) :
    Checked (Option ModuleFile) :=
  match debugFileOf path file with
  | none => pure none
  | some dbg => readModule fs dbg false

/-- `parseElfSymbols`, from the bytes of the file and of its debug file to the resolver. -/
def parseElfFile (fs : FileSystem) (demangle : Text → Option Text) (path moduleName : Text)
    (baseAddr : ℕ) (s : SymbolResolver) : Checked SymbolResolver := do
  let file ← readModule fs path true
  let debugFile ← readDebugFile fs path file
  let files : SymbolFiles := ⟨fun _ ↦ debugFile, demangle⟩
  pure (SymbolResolver.parseImage files (fun dbg s ↦
    if dbg = path then s
    else SymbolResolver.parseImage files (fun _ s ↦ s) (files.file dbg) moduleName baseAddr s)
    file moduleName baseAddr s)

end Cecore.Symbols.Elf
