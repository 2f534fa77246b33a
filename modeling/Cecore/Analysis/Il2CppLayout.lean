import Cecore.Analysis.Il2CppBinary

/-!
# Layouts of IL2CPP classes

What `il2cpp_binary.cpp` makes of the tables it has found: the fields of every class with their
offsets and the names of their types, the class it derives from, and its methods; the methods of one
class; and the fields of an object, inherited ones included.
-/

set_option autoImplicit false
set_option relaxedAutoImplicit false

namespace Cecore.Analysis.Il2Cpp

open Library.CheckedBuffer Library.LittleEndian

/-! ### Names of types -/

def TypeDef.fullName (t : TypeDef) : List UInt8 :=
  if t.namespaceName.isEmpty then t.name else t.namespaceName ++ ascii "." ++ t.name

/-- What is read from the metadata registration. -/
structure Registration where
  fieldOffsetsVA : ℕ
  typesVA : ℕ
  typesCount : ℤ
  deriving DecidableEq, Repr

def kType_attrs : ℕ := 0x08
def kFIELD_STATIC : ℕ := 0x0010
def kFIELD_LITERAL : ℕ := 0x0040

/-- The `Il2CppType*` of a type index, or 0. -/
def typeVAForIndex (img : Image) (reg : Registration) (typeIndex : ℤ) : Checked ℕ :=
  if typeIndex < 0 ∨ reg.typesCount ≤ typeIndex then pure 0
  else do
    let tp ← img.readVA 8 (add64 reg.typesVA (typeIndex.toNat * 8))
    pure (tp.getD 0)

def typeWordAt (img : Image) (typeVA : ℕ) : Checked ℕ :=
  if typeVA = 0 then pure 0
  else do
    let a ← img.readVA 4 (add64 typeVA kType_attrs)
    pure (a.getD 0)

/-- Bits 16 to 23 of the word of a type: its `Il2CppTypeEnum`. -/
def typeEnumOf (word : ℕ) : ℕ := (word >>> 16) &&& 0xFF

/-- The type definition that the data of a type record names, taken as an `int32_t`. -/
def klassOf (types : List TypeDef) (data : ℕ) : Option TypeDef :=
  let klass := signedOf 4 (data % 2 ^ 32)
  if 0 ≤ klass then types[klass.toNat]? else none

/-- The types that have a name of their own. -/
def builtinName (e : ℕ) : Option (List UInt8) :=
  match e with
  | 0x01 => some (ascii "System.Void")
  | 0x02 => some (ascii "System.Boolean")
  | 0x03 => some (ascii "System.Char")
  | 0x04 => some (ascii "System.SByte")
  | 0x05 => some (ascii "System.Byte")
  | 0x06 => some (ascii "System.Int16")
  | 0x07 => some (ascii "System.UInt16")
  | 0x08 => some (ascii "System.Int32")
  | 0x09 => some (ascii "System.UInt32")
  | 0x0A => some (ascii "System.Int64")
  | 0x0B => some (ascii "System.UInt64")
  | 0x0C => some (ascii "System.Single")
  | 0x0D => some (ascii "System.Double")
  | 0x0E => some (ascii "System.String")
  | 0x18 => some (ascii "System.IntPtr")
  | 0x19 => some (ascii "System.UIntPtr")
  | 0x1C => some (ascii "System.Object")
  | 0x16 => some (ascii "System.TypedReference")
  | 0x13 => some (ascii "T")
  | 0x1E => some (ascii "T")
  | _ => none

def isDigit (c : UInt8) : Bool := 0x30 ≤ c && c ≤ 0x39

/-- The open generic's name without its arity: what follows the last grave accent is cut off with
it, if that is digits. -/
def arityStem (base : List UInt8) : List UInt8 :=
  let arity := base.reverse.takeWhile (· != 0x60)
  if base.contains 0x60 && !arity.isEmpty && arity.all isDigit then
    base.take (base.length - arity.length - 1)
  else base

/-- `args += an`, behind a comma if there are some already. -/
def appendArg (args an : List UInt8) : List UInt8 :=
  if args.isEmpty then an else args ++ ascii ", " ++ an

/-- `nameOfTypeVA` at depth `6 - left`. -/
def nameOfTypeVA (img : Image) (types : List TypeDef) :
    (left typeVA : ℕ) → Checked (List UInt8)
  | 0, _ => pure []
  | left + 1, typeVA =>
    if typeVA = 0 then pure []
    else do
      let word ← typeWordAt img typeVA
      let dataOpt ← img.readVA 8 typeVA
      let data := dataOpt.getD 0
      match typeEnumOf word with
      | 0x11 | 0x12 => pure (((klassOf types data).map TypeDef.fullName).getD [])
      | 0x0F => do
        let n ← nameOfTypeVA img types left data
        pure (if n.isEmpty then ascii "void*" else n ++ ascii "*")
      | 0x1D => do
        let n ← nameOfTypeVA img types left data
        pure ((if n.isEmpty then ascii "System.Object" else n) ++ ascii "[]")
      | 0x14 => do
        let etp ← img.readVA 8 data
        let n ← etp.elim (pure []) (nameOfTypeVA img types left)
        pure ((if n.isEmpty then ascii "System.Object" else n) ++ ascii "[]")
      | 0x15 => do
        let gtp ← img.readVA 8 data
        let base ← gtp.elim (pure []) (nameOfTypeVA img types left)
        if base.isEmpty then pure []
        else do
          let instVA := (← img.readVA 8 (add64 data 8)).getD 0
          if instVA = 0 then pure base
          else do
            let argc := (← img.readVA 4 instVA).getD 0
            let argvVA ← img.readVA 8 (add64 instVA 8)
            if argvVA.isNone ∨ argc = 0 ∨ 32 < argc then pure base
            else do
              let names ← (List.range argc).mapM fun a ↦ do
                let at_ ← img.readVA 8 (add64 (argvVA.getD 0) (a * 8))
                let an ← at_.elim (pure []) (nameOfTypeVA img types left)
                pure (if an.isEmpty then ascii "?" else an)
              pure (arityStem base ++ ascii "<" ++ names.foldl appendArg [] ++ ascii ">")
      | e => pure ((builtinName e).getD [])

/-! ### The layout of the classes -/

structure ResolvedField where
  name : List UInt8
  offset : ℤ := 0
  isStatic : Bool
  isConst : Bool
  typeEnum : ℕ
  typeName : List UInt8
  declaringType : List UInt8 := []
  deriving DecidableEq, Repr

structure ResolvedMethod where
  name : List UInt8
  rva : ℕ
  deriving DecidableEq, Repr

structure ClassLayout where
  image : List UInt8
  namespaceName : List UInt8
  name : List UInt8
  parentName : List UInt8
  fields : List ResolvedField
  methods : List ResolvedMethod := []
  deriving DecidableEq, Repr

def ClassLayout.fullName (c : ClassLayout) : List UInt8 :=
  if c.namespaceName.isEmpty then c.name else c.namespaceName ++ ascii "." ++ c.name

structure BinaryLayout where
  ok : Bool := false
  error : List UInt8 := []
  classes : List ClassLayout := []
  deriving DecidableEq, Repr

/-- The image that owns a type: the first whose stretch it lies in. -/
def imageNameForType (images : List ImageDef) (ti : ℕ) : List UInt8 :=
  match images.find? fun im ↦ im.typeStart ≤ ti && ti < im.typeStart + im.typeCount with
  | none => []
  | some im => im.name

/-- The name of the class that type definitions with this parent index derive from. -/
def parentNameOf (img : Image) (reg : Registration) (types : List TypeDef) (parentTypeIndex : ℤ) :
    Checked (List UInt8) :=
  if parentTypeIndex < 0 then pure []
  else do
    let pva ← typeVAForIndex img reg parentTypeIndex
    if pva = 0 then pure []
    else do
      let d ← img.readVA 8 pva
      pure (((d.bind (klassOf types)).map TypeDef.fullName).getD [])

/-- Field `i` of a type, with the entry of the type in the table of field offsets. -/
def resolvedField (img : Image) (reg : Registration) (types : List TypeDef) (entryVA : Option ℕ)
    (f : FieldDef) (i : ℕ) : Checked ResolvedField := do
  let typeVA ← typeVAForIndex img reg f.typeIndex
  let typeWord ← typeWordAt img typeVA
  let typeName ← nameOfTypeVA img types 6 typeVA
  let o ← if entryVA.getD 0 = 0 then pure none
    else img.readVA 4 (add64 (entryVA.getD 0) (i * 4))
  pure {
    name := f.name
    offset := (o.map (signedOf 4)).getD 0
    isStatic := typeWord &&& kFIELD_STATIC != 0
    isConst := typeWord &&& kFIELD_LITERAL != 0
    typeEnum := typeEnumOf typeWord
    typeName }

/-- Class `t`, still without methods. -/
def classLayout (img : Image) (reg : Registration) (md : Metadata) (mt : TypeDef) (t : ℕ) :
    Checked ClassLayout := do
  let parentName ← parentNameOf img reg md.types mt.parentTypeIndex
  let entryVA ← img.readVA 8 (add64 reg.fieldOffsetsVA (t * 8))
  let fields ← mt.fields.zipIdx.mapM fun (f, i) ↦ resolvedField img reg md.types entryVA f i
  pure {
    image := imageNameForType md.images t
    namespaceName := mt.namespaceName
    name := mt.name
    parentName
    fields }

/-! ### Methods -/

/-- Entry `k` of the modules, with its name; none where one of the pointers cannot be followed. -/
def moduleName (img : Image) (arrVA k : ℕ) : Checked (Option (ℕ × List UInt8)) := do
  let m := (← img.readVA 8 (add64 arrVA (k * 8))).getD 0
  if m = 0 then pure none
  else do
    match ← img.readVA 8 (add64 m kCGM_moduleName) with
    | none => pure none
    | some nmp =>
      let name ← img.readCStrVA nmp
      pure (some (m, name))

/-- The number of methods of a module, and where its table of them is. -/
def moduleTable (img : Image) (m : ℕ) : Checked (ℕ × ℕ) := do
  let mc ← img.readVA 8 (add64 m kCGM_methodCount)
  let mp ← img.readVA 8 (add64 m kCGM_methodPointers)
  pure (mc.getD 0, mp.getD 0)

/-- The code of a method by its token, none where it has none. -/
def resolvedMethod (img : Image) (table : ℕ × ℕ) (method : MethodDef) :
    Checked (Option ResolvedMethod) :=
  let rid := method.token &&& 0x00FFFFFF
  if rid = 0 ∨ table.1 < rid then pure none
  else do
    let fp := (← img.readVA 8 (add64 table.2 ((rid - 1) * 8))).getD 0
    if fp = 0 ∨ !img.vaValid fp then pure none
    else pure (some ⟨method.name, fp - img.imageBase⟩)

def resolvedMethods (img : Image) (table : ℕ × ℕ) (methods : List MethodDef) :
    Checked (List ResolvedMethod) := do
  let found ← methods.mapM (resolvedMethod img table)
  pure found.reduceOption

/-- The map from the names of the modules to their tables; a later module replaces an earlier one.
Entry `k` is the next, `left` of them to go. -/
def collectModules (img : Image) (arrVA : ℕ) :
    (k left : ℕ) → List (List UInt8 × ℕ × ℕ) → Checked (List (List UInt8 × ℕ × ℕ))
  | _, 0, mods => pure mods
  | k, left + 1, mods => do
    match ← moduleName img arrVA k with
    | none => collectModules img arrVA (k + 1) left mods
    | some (m, name) => do
      let table ← moduleTable img m
      collectModules img arrVA (k + 1) left
        (if !name.isEmpty && table.2 != 0 then (name, table) :: mods else mods)

/-- A class with its methods. -/
def withMethods (img : Image) (mods : List (List UInt8 × ℕ × ℕ)) (cl : ClassLayout) (mt : TypeDef) :
    Checked ClassLayout :=
  if mt.methods.isEmpty then pure cl
  else
    match mods.lookup cl.image with
    | none => pure cl
    | some table => do
      let methods ← resolvedMethods img table mt.methods
      pure { cl with methods }

/-- The layout by a registration that was found at the offset `mr`. -/
def layoutAt (img : Image) (md : Metadata) (mr : ℕ) : Checked BinaryLayout :=
  if !inRange img.buf (mr + 0x60 + 4) 0 then pure { error := ascii "registration truncated" }
  else do
    let fieldOffsetsVA ← img.buf.readNat 8 (mr + kMR_fieldOffsets)
    let typesVA ← img.buf.readNat 8 (mr + kMR_types)
    let typesCount ← img.buf.readInt 4 (mr + kMR_typesCount)
    let reg : Registration := { fieldOffsetsVA, typesVA, typesCount := max 0 typesCount }
    let classes ← md.types.zipIdx.mapM fun (mt, t) ↦ classLayout img reg md mt t
    match ← findCodeGenModules img md.images.length with
    | none => pure { ok := true, classes }
    | some arrVA => do
      let mods ← collectModules img arrVA 0 md.images.length []
      let classes ← (classes.zip md.types).mapM fun (cl, mt) ↦ withMethods img mods cl mt
      pure { ok := true, classes }

/-- `resolveIl2CppLayout`. The files that can be opened are given. -/
def resolveIl2CppLayout (files : List UInt8 → Option Buffer) (md : Metadata)
    (binaryPath : List UInt8) : Checked BinaryLayout :=
  if !md.tablesDecoded then
    pure { error := ascii "metadata tables not decoded (unsupported version)" }
  else
    match files binaryPath with
    | none => pure { error := ascii "cannot open binary: " ++ binaryPath }
    | some b =>
      if b.size < 0x40 then pure { error := ascii "binary too small" }
      else do
        match ← loadImage b with
        | none =>
          pure { error := ascii "unrecognized binary (need x86-64 PE32+ or ELF64 GameAssembly)" }
        | some img =>
          match ← findMetadataRegistration img md.types.length with
          | none =>
            pure { error := ascii "Il2CppMetadataRegistration not found (unsupported build?)" }
          | some mr => layoutAt img md mr

/-- The first type of a full name, else the first of a bare name. -/
def findClass (types : List TypeDef) (className : List UInt8) : Option (TypeDef × ℕ) :=
  match types.zipIdx.find? fun (t, _) ↦ t.fullName == className with
  | some found => some found
  | none => types.zipIdx.find? fun (t, _) ↦ t.name == className

/-- The table of the first module of a name, or zeros. Entry `k` is the next, `left` of them to
go. -/
def moduleNamed (img : Image) (arrVA : ℕ) (imageName : List UInt8) :
    (k left : ℕ) → Checked (ℕ × ℕ)
  | _, 0 => pure (0, 0)
  | k, left + 1 => do
    match ← moduleName img arrVA k with
    | none => moduleNamed img arrVA imageName (k + 1) left
    | some (m, name) =>
      if name ≠ imageName then moduleNamed img arrVA imageName (k + 1) left
      else moduleTable img m

/-- `resolveIl2CppMethods`. -/
def resolveIl2CppMethods (files : List UInt8 → Option Buffer) (md : Metadata)
    (binaryPath className : List UInt8) : Checked (List ResolvedMethod) :=
  if !md.tablesDecoded then pure []
  else
    match findClass md.types className with
    | none => pure []
    | some (cls, classIndex) =>
      let imageName := imageNameForType md.images classIndex
      if cls.methods.isEmpty ∨ imageName.isEmpty then pure []
      else
        match files binaryPath with
        | none => pure []
        | some b => do
          match ← loadImage b with
          | none => pure []
          | some img =>
            match ← findCodeGenModules img md.images.length with
            | none => pure []
            | some arrVA => do
              let table ← moduleNamed img arrVA imageName 0 md.images.length
              if table.2 = 0 then pure []
              else resolvedMethods img table cls.methods

/-! ### The fields of an object -/

/-- `byName`: the first class of each name. -/
def classNamed (layout : BinaryLayout) (name : List UInt8) : Option ClassLayout :=
  layout.classes.find? fun c ↦ c.fullName == name

/-- The loop over the ancestors, with `left` more that may be added to the chain: a name that was
seen ends it. -/
def chainFrom (layout : BinaryLayout) : (left : ℕ) → List (List UInt8) → ClassLayout →
    List ClassLayout
  | 0, _, _ => []
  | left + 1, seen, c =>
    if seen.contains c.fullName then []
    else c ::
      (if c.parentName.isEmpty then [] else
        match classNamed layout c.parentName with
        | none => []
        | some p => chainFrom layout left (c.fullName :: seen) p)

/-- The fields of a class that are part of its objects. -/
def objectFields (c : ClassLayout) : List ResolvedField :=
  (c.fields.filter fun f ↦ !(f.isStatic || f.isConst)).map fun f ↦
    { f with declaringType := c.fullName }

/-- `il2cppObjectFieldLayout`: the chain may grow to 65 classes. -/
def il2cppObjectFieldLayout (layout : BinaryLayout) (classFullName : List UInt8) :
    List ResolvedField :=
  match classNamed layout classFullName with
  | none => []
  | some c =>
    ((chainFrom layout 65 [] c).reverse.flatMap objectFields).mergeSort
      fun a b ↦ a.offset ≤ b.offset

end Cecore.Analysis.Il2Cpp
