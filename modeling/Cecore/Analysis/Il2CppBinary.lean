import Cecore.Analysis.Il2CppMetadata

/-!
# IL2CPP binaries

The resolvers of `il2cpp_binary.cpp`: they load a GameAssembly file, PE or ELF, find the tables of
the metadata in it by their counts, and read the fields, the types and the methods of every class.
The reads that the code makes without a test are checked here; addresses are 64-bit numbers.
-/

set_option autoImplicit false
set_option relaxedAutoImplicit false

namespace Cecore.Analysis.Il2Cpp

open Library.CheckedBuffer

/-! ### The image -/

/-- A sum of `uint64_t`. -/
def add64 (x y : ℕ) : ℕ := (x + y) % 2 ^ 64

def ascii (text : String) : List UInt8 := text.toList.map fun c ↦ UInt8.ofNat c.toNat

structure Segment where
  rva : ℕ
  vsize : ℕ
  fileOff : ℕ
  fileSize : ℕ
  deriving DecidableEq, Repr

structure Image where
  buf : Buffer
  imageBase : ℕ
  segs : List Segment

def inRange (b : Buffer) (off n : ℕ) : Bool := add64 off n ≤ b.size && off ≤ add64 off n

namespace Image

variable (img : Image)

def rvaToOff (rva : ℕ) : Option ℕ :=
  match img.segs.find? fun s ↦ s.rva ≤ rva && rva < add64 s.rva s.vsize with
  | none => none
  | some s =>
    let d := rva - s.rva
    if d < s.fileSize ∧ add64 s.fileOff d < img.buf.size then some (add64 s.fileOff d) else none

def vaToOff (va : ℕ) : Option ℕ :=
  if va < img.imageBase then none else img.rvaToOff (va - img.imageBase)

def vaValid (va : ℕ) : Bool := (img.vaToOff va).isSome

/-- `readPtrVA`, `readU32VA` and `readI32VA`, by the number of bytes. -/
def readVA (width va : ℕ) : Checked (Option ℕ) :=
  match img.vaToOff va with
  | none => pure none
  | some o =>
    if !inRange img.buf o width then pure none
    else do
      let value ← img.buf.readNat width o
      pure (some value)

/-- The loop of `readCStrVA`, with `maxLen` bytes left. -/
def cstrFrom (o : ℕ) : (maxLen : ℕ) → Checked (List UInt8)
  | 0 => pure []
  | maxLen + 1 =>
    if o < img.buf.size then do
      let c ← img.buf.readNat 1 o
      if c = 0 then pure []
      else do
        let rest ← cstrFrom (o + 1) maxLen
        pure (UInt8.ofNat c :: rest)
    else pure []

def readCStrVA (va : ℕ) : Checked (List UInt8) :=
  match img.vaToOff va with
  | none => pure []
  | some o => img.cstrFrom o 256

end Image

/-! ### Loading -/

/-- The sections, `left` of them, up to the first that does not fit the file. -/
def peSections (b : Buffer) (secTbl : ℕ) : (k left : ℕ) → Checked (List Segment)
  | _, 0 => pure []
  | k, left + 1 =>
    let so := add64 secTbl (k * 40)
    if !inRange b so 40 then pure []
    else do
      let vsize ← b.readNat 4 (so + 8)
      let vaddr ← b.readNat 4 (so + 12)
      let rawSize ← b.readNat 4 (so + 16)
      let rawPtr ← b.readNat 4 (so + 20)
      let rest ← peSections b secTbl (k + 1) left
      pure (⟨vaddr, max vsize rawSize, rawPtr, rawSize⟩ :: rest)

/-- `loadPE`: the image, or none where it returns false. -/
def loadPE (b : Buffer) : Checked (Option Image) :=
  if b.size < 0x40 then pure none
  else do
    let magic ← b.read 0 2
    if magic ≠ ascii "MZ" then pure none
    else do
      let e ← b.readNat 4 0x3C
      if !inRange b e 24 then pure none
      else do
        let signature ← b.read e 4
        if signature ≠ [0x50, 0x45, 0, 0] then pure none
        else do
          -- `e + 4` is a sum of `uint32_t`.
          let coff := (e + 4) % 2 ^ 32
          if !inRange b coff 20 then pure none
          else do
            let machine ← b.readNat 2 coff
            if machine ≠ 0x8664 then pure none
            else do
              let nSec ← b.readNat 2 (coff + 2)
              let optSize ← b.readNat 2 (coff + 16)
              let opt := coff + 20
              if !inRange b opt optSize then pure none
              else do
                let optMagic ← b.readNat 2 opt
                if optMagic ≠ 0x20B then pure none
                else do
                  let imageBase ← b.readNat 8 (opt + 24)
                  let segs ← peSections b (opt + optSize) 0 nSec
                  pure (if segs.isEmpty then none else some ⟨b, imageBase, segs⟩)

/-- The program headers, `left` of them, up to the first that does not fit the file: those that are
loaded. -/
def elfSegments (b : Buffer) (phoff phentsize : ℕ) : (k left : ℕ) → Checked (List Segment)
  | _, 0 => pure []
  | k, left + 1 =>
    let po := add64 phoff (k * phentsize)
    if !inRange b po 56 then pure []
    else do
      let type ← b.readNat 4 po
      if type ≠ 1 then elfSegments b phoff phentsize (k + 1) left
      else do
        let off ← b.readNat 8 (po + 8)
        let vaddr ← b.readNat 8 (po + 16)
        let filesz ← b.readNat 8 (po + 32)
        let memsz ← b.readNat 8 (po + 40)
        let rest ← elfSegments b phoff phentsize (k + 1) left
        pure (⟨vaddr, max memsz filesz, off, filesz⟩ :: rest)

/-- `loadELF64`. -/
def loadELF64 (b : Buffer) : Checked (Option Image) :=
  if b.size < 0x40 then pure none
  else do
    let magic ← b.read 0 4
    if magic ≠ [0x7F, 0x45, 0x4C, 0x46] then pure none
    else do
      let elfClass ← b.readNat 1 4
      if elfClass ≠ 2 then pure none
      else do
        let phoff ← b.readNat 8 0x20
        let phentsize ← b.readNat 2 0x36
        let phnum ← b.readNat 2 0x38
        let segs ← elfSegments b phoff phentsize 0 phnum
        pure (if segs.isEmpty then none else some ⟨b, 0, segs⟩)

/-- `loadPE(img) || loadELF64(img)`. -/
def loadImage (b : Buffer) : Checked (Option Image) := do
  match ← loadPE b with
  | some img => pure (some img)
  | none => loadELF64 b

/-! ### Finding the tables -/

/-- `for (size_t p = begin; p + width <= stop; p += 8)`, with a body that reads at `p` first. -/
def scanWords {α : Type} (b : Buffer) (width stop : ℕ) (body : ℕ → Checked (Option α)) (p : ℕ) :
    Checked (Option α) :=
  if add64 p width ≤ stop then
    if _h : p < b.size then do
      match ← body p with
      | some found => pure (some found)
      | none => scanWords b width stop body (p + 8)
    else throw .outside
  else pure none
termination_by b.size - p
decreasing_by omega

/-- The first segment in which something is found. -/
def firstFound {α : Type} (scan : Segment → Checked (Option α)) :
    List Segment → Checked (Option α)
  | [] => pure none
  | s :: rest => do
    match ← scan s with
    | some found => pure (some found)
    | none => firstFound scan rest

/-- The entries of an array of pointers that are zero or valid, and all that were read; `left` of
them to go. -/
def plausibleEntries (img : Image) (foVA : ℕ) : (k left ok tot : ℕ) → Checked (ℕ × ℕ)
  | _, 0, ok, tot => pure (ok, tot)
  | k, left + 1, ok, tot => do
    match ← img.readVA 8 (add64 foVA (k * 8)) with
    | none => pure (ok, tot)
    | some e =>
      plausibleEntries img foVA (k + 1) left (if e = 0 ∨ img.vaValid e then ok + 1 else ok) (tot + 1)

def kMR_typesCount : ℕ := 0x30
def kMR_types : ℕ := 0x38
def kMR_fieldOffsetsCount : ℕ := 0x50
def kMR_fieldOffsets : ℕ := 0x58

/-- The body of the scan for the metadata registration. -/
def registrationAt (img : Image) (nTypes p : ℕ) : Checked (Option ℕ) := do
  let want := nTypes % 2 ^ 32
  let fieldOffsetsCount ← img.buf.readNat 4 p
  if fieldOffsetsCount ≠ want then pure none
  else do
    let typeDefSizesCount ← img.buf.readNat 4 (p + 0x10)
    if typeDefSizesCount ≠ want then pure none
    else do
      let foVA ← img.buf.readNat 8 (p + 8)
      if !img.vaValid foVA then pure none
      else do
        let (ok, tot) ← plausibleEntries img foVA 0 (min nTypes 256) 0 0
        if tot = 0 ∨ ok * 5 < tot * 4 then pure none
        else if p < kMR_fieldOffsetsCount then pure none
        else do
          let base := p - kMR_fieldOffsetsCount
          if !inRange img.buf base 0x70 then pure none
          else do
            let typesCount ← img.buf.readInt 4 (base + kMR_typesCount)
            let typesVA ← img.buf.readNat 8 (base + kMR_types)
            if typesCount < Library.LittleEndian.signedOf 4 want ∨ 50000000 < typesCount then
              pure none
            else if !img.vaValid typesVA then pure none
            else pure (some base)

def registrationIn (img : Image) (nTypes : ℕ) (s : Segment) : Checked (Option ℕ) :=
  if s.fileSize < 0x70 then pure none
  else scanWords img.buf 0x18 (min (add64 s.fileOff s.fileSize) img.buf.size)
    (registrationAt img nTypes) s.fileOff

def findMetadataRegistration (img : Image) (nTypes : ℕ) : Checked (Option ℕ) :=
  firstFound (registrationIn img nTypes) img.segs

def kCGM_moduleName : ℕ := 0x00
def kCGM_methodCount : ℕ := 0x08
def kCGM_methodPointers : ℕ := 0x10

def looksLikeModuleName (s : List UInt8) : Bool :=
  4 < s.length && s.drop (s.length - 4) == ascii ".dll"

/-- The modules of an array that have a name, and all that were read; `left` of them to go. -/
def namedModules (img : Image) (arrVA : ℕ) : (i left ok tot : ℕ) → Checked (ℕ × ℕ)
  | _, 0, ok, tot => pure (ok, tot)
  | i, left + 1, ok, tot => do
    match ← img.readVA 8 (add64 arrVA (i * 8)) with
    | none => pure (ok, tot)
    | some m =>
      if m = 0 ∨ !img.vaValid m then namedModules img arrVA (i + 1) left ok (tot + 1)
      else do
        match ← img.readVA 8 (add64 m kCGM_moduleName) with
        | none => namedModules img arrVA (i + 1) left ok (tot + 1)
        | some nmp =>
          if !img.vaValid nmp then namedModules img arrVA (i + 1) left ok (tot + 1)
          else do
            let name ← img.readCStrVA nmp
            namedModules img arrVA (i + 1) left (if looksLikeModuleName name then ok + 1 else ok)
              (tot + 1)

/-- The body of the scan for the modules. -/
def modulesAt (img : Image) (imageCount p : ℕ) : Checked (Option ℕ) := do
  let count ← img.buf.readNat 8 p
  if count ≠ imageCount then pure none
  else do
    let arrVA ← img.buf.readNat 8 (p + 8)
    if !img.vaValid arrVA then pure none
    else do
      let (ok, tot) ← namedModules img arrVA 0 (min imageCount 32) 0 0
      pure (if 8 ≤ tot ∧ tot * 4 ≤ ok * 5 then some arrVA else none)

def modulesIn (img : Image) (imageCount : ℕ) (s : Segment) : Checked (Option ℕ) :=
  if s.fileSize < 16 then pure none
  else scanWords img.buf 16 (min (add64 s.fileOff s.fileSize) img.buf.size)
    (modulesAt img imageCount) s.fileOff

def findCodeGenModules (img : Image) (imageCount : ℕ) : Checked (Option ℕ) :=
  firstFound (modulesIn img imageCount) img.segs

end Cecore.Analysis.Il2Cpp
