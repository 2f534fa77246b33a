import Cecore.Analysis.Il2CppBounds

/-!
# The two resolvers of methods

`resolveIl2CppLayout` resolves the methods of all classes by a map from the names of the modules to
their tables, and `resolveIl2CppMethods` those of one class by a search for the module. The map holds
the last module of a name that has a table, the search stops at the first one of the name.
-/

set_option autoImplicit false
set_option relaxedAutoImplicit false

namespace Cecore.Analysis.Il2Cpp

open Library.CheckedBuffer

/-! ### The modules, as a list -/

/-- What a computation that may find nothing has found. -/
def valueOf {α : Type} : Checked (Option α) → Option α
  | .ok found => found
  | .error _ => none

/-- Entry `k` of the array of modules: its name and its table. -/
def moduleEntry (img : Image) (arrVA k : ℕ) : Option (List UInt8 × ℕ × ℕ) :=
  valueOf do
    match ← moduleName img arrVA k with
    | none => pure none
    | some (m, name) => do
      let table ← moduleTable img m
      pure (some (name, table))

/-- The modules of an array of `n` that can be read, in order. -/
def moduleEntries (img : Image) (arrVA n : ℕ) : List (List UInt8 × ℕ × ℕ) :=
  (List.range n).filterMap (moduleEntry img arrVA)

/-- A module that the map takes in. -/
def hasTable (entry : List UInt8 × ℕ × ℕ) : Bool := !entry.1.isEmpty && entry.2.2 != 0

/-- The table of the first module of a name, if there is one. -/
def firstTable (entries : List (List UInt8 × ℕ × ℕ)) (name : List UInt8) : ℕ × ℕ :=
  (entries.lookup name).getD (0, 0)

/-- The table of the last module of a name that has one. -/
def lastTable (entries : List (List UInt8 × ℕ × ℕ)) (name : List UInt8) : Option (ℕ × ℕ) :=
  (entries.filter hasTable).reverse.lookup name

/-- The methods that have code by a table. -/
def methodsBy (img : Image) (table : ℕ × ℕ) (methods : List MethodDef) : List ResolvedMethod :=
  methods.filterMap fun method ↦ valueOf (resolvedMethod img table method)

section

variable {img : Image}

theorem moduleEntry_none {arrVA k : ℕ} (h : moduleName img arrVA k = .ok none) :
    moduleEntry img arrVA k = none := by
  rw [moduleEntry, h]
  rfl

theorem moduleEntry_some {arrVA k m : ℕ} {name : List UInt8} {table : ℕ × ℕ}
    (h : moduleName img arrVA k = .ok (some (m, name))) (htable : moduleTable img m = .ok table) :
    moduleEntry img arrVA k = some (name, table) := by
  rw [moduleEntry, h, ok_bind]
  dsimp only
  rw [htable]
  rfl

/-- The map holds the modules with a table, the last one in front. -/
theorem collectModules_eq (arrVA k left : ℕ) (mods : List (List UInt8 × ℕ × ℕ)) :
    collectModules img arrVA k left mods =
      .ok ((((List.range' k left).filterMap (moduleEntry img arrVA)).filter hasTable).reverse ++
        mods) := by
  induction left generalizing k mods with
  | zero => rfl
  | succ left ih =>
    obtain ⟨entry, hentry, -⟩ := @moduleName_runs img arrVA k
    rw [collectModules, List.range'_succ, List.filterMap_cons, hentry]
    cases entry with
    | none =>
      rw [moduleEntry_none hentry]
      exact ih (k + 1) mods
    | some entry =>
      obtain ⟨m, name⟩ := entry
      obtain ⟨table, htable, -⟩ := @moduleTable_runs img m
      rw [moduleEntry_some hentry htable]
      change moduleTable img m >>= _ = _
      rw [htable]
      refine (ih ..).trans ?_
      by_cases hin : hasTable (name, table) = true
      · dsimp only
        rw [List.filter_cons_of_pos hin, List.reverse_cons, List.append_assoc,
          if_pos (show (!name.isEmpty && table.2 != 0) = true from hin)]
        rfl
      · dsimp only
        rw [List.filter_cons_of_neg hin,
          if_neg (show ¬(!name.isEmpty && table.2 != 0) = true from hin)]

/-- The search stops at the first module of the name. -/
theorem moduleNamed_eq (arrVA : ℕ) (imageName : List UInt8) (k left : ℕ) :
    moduleNamed img arrVA imageName k left =
      .ok (firstTable ((List.range' k left).filterMap (moduleEntry img arrVA)) imageName) := by
  induction left generalizing k with
  | zero => rfl
  | succ left ih =>
    obtain ⟨entry, hentry, -⟩ := @moduleName_runs img arrVA k
    rw [moduleNamed, List.range'_succ, List.filterMap_cons, hentry]
    cases entry with
    | none =>
      rw [moduleEntry_none hentry]
      exact ih (k + 1)
    | some entry =>
      obtain ⟨m, name⟩ := entry
      obtain ⟨table, htable, -⟩ := @moduleTable_runs img m
      rw [moduleEntry_some hentry htable]
      change (if _ then _ else _) = _
      dsimp only
      rw [firstTable, List.lookup_cons]
      by_cases hname : name = imageName
      · rw [if_neg (not_not.mpr hname), htable, hname, beq_self_eq_true]
        rfl
      · rw [if_pos hname, beq_eq_false_iff_ne.mpr (Ne.symm hname)]
        exact ih (k + 1)

theorem resolvedMethods_eq (table : ℕ × ℕ) (methods : List MethodDef) :
    resolvedMethods img table methods = .ok (methodsBy img table methods) := by
  have hmap : methods.mapM (resolvedMethod img table) =
      .ok (methods.map fun method ↦ valueOf (resolvedMethod img table method)) := by
    refine mapM_eq_ok_iff.mpr ?_
    rw [List.forall₂_map_right_iff, List.forall₂_same]
    intro method _
    obtain ⟨found, hfound, -⟩ := @resolvedMethod_runs img table method
    rw [hfound]
    rfl
  rw [resolvedMethods, hmap]
  change Except.ok ((methods.map _).filterMap id) = _
  rw [List.filterMap_map]
  rfl

/-! ### The classes of a layout -/

/-- What the layout takes from a registration at the offset `mr`. -/
def registrationOf (img : Image) (mr : ℕ) : Registration where
  fieldOffsetsVA := img.buf.nat 8 (mr + kMR_fieldOffsets)
  typesVA := img.buf.nat 8 (mr + kMR_types)
  typesCount := max 0 (img.buf.int 4 (mr + kMR_typesCount))

/-- The methods of a type in a layout. -/
def layoutMethods (img : Image) (md : Metadata) (image : List UInt8) (methods : List MethodDef) :
    List ResolvedMethod :=
  match valueOf (findCodeGenModules img md.images.length) with
  | none => []
  | some arrVA =>
    ((lastTable (moduleEntries img arrVA md.images.length) image).map fun table ↦
      methodsBy img table methods).getD []

/-- A class of a layout, by the type and its number. -/
structure ClassOf (img : Image) (reg : Registration) (md : Metadata) (entry : TypeDef × ℕ)
    (cl : ClassLayout) : Prop where
  name : cl.name = entry.1.name
  namespaceName : cl.namespaceName = entry.1.namespaceName
  image : cl.image = imageNameForType md.images entry.2
  parentName : parentNameOf img reg md.types entry.1.parentTypeIndex = .ok cl.parentName
  fields : ∃ cl', classLayout img reg md entry.1 entry.2 = .ok cl' ∧ cl'.fields = cl.fields
  methods : cl.methods = layoutMethods img md cl.image entry.1.methods

theorem ClassOf.fullName {reg : Registration} {md : Metadata} {entry : TypeDef × ℕ}
    {cl : ClassLayout} (h : ClassOf img reg md entry cl) : cl.fullName = entry.1.fullName := by
  rw [ClassLayout.fullName, TypeDef.fullName, h.name, h.namespaceName]

/-- A class as it stands before its methods are resolved. -/
structure Unresolved (img : Image) (reg : Registration) (md : Metadata) (entry : TypeDef × ℕ)
    (cl : ClassLayout) : Prop where
  name : cl.name = entry.1.name
  namespaceName : cl.namespaceName = entry.1.namespaceName
  image : cl.image = imageNameForType md.images entry.2
  parentName : parentNameOf img reg md.types entry.1.parentTypeIndex = .ok cl.parentName
  made : classLayout img reg md entry.1 entry.2 = .ok cl
  methods : cl.methods = []

theorem classLayout_unresolved {reg : Registration} {md : Metadata} {mt : TypeDef} {t : ℕ}
    {cl : ClassLayout} (h : classLayout img reg md mt t = .ok cl) :
    Unresolved img reg md (mt, t) cl := by
  have hmade := h
  obtain ⟨parentName, hparent, h⟩ := bind_eq_ok_iff.mp h
  obtain ⟨entryVA, -, h⟩ := bind_eq_ok_iff.mp h
  obtain ⟨fields, -, h⟩ := bind_eq_ok_iff.mp h
  cases h
  exact ⟨rfl, rfl, rfl, hparent, hmade, rfl⟩

theorem map_methodsBy_nil (table : Option (ℕ × ℕ)) :
    (table.map fun table ↦ methodsBy img table []).getD [] = [] := by
  cases table with
  | none => rfl
  | some table => rfl

theorem withMethods_eq (mods : List (List UInt8 × ℕ × ℕ)) {cl : ClassLayout}
    (hcl : cl.methods = []) (mt : TypeDef) :
    withMethods img mods cl mt = .ok { cl with
      methods := ((mods.lookup cl.image).map fun table ↦ methodsBy img table mt.methods).getD [] } := by
  rw [withMethods]
  by_cases hempty : mt.methods.isEmpty = true
  · rw [if_pos hempty, List.isEmpty_iff.mp hempty]
    rw [map_methodsBy_nil, ← hcl]
    rfl
  · rw [if_neg hempty]
    cases mods.lookup cl.image with
    | none =>
      dsimp only [Option.map_none, Option.getD_none]
      rw [← hcl]
      rfl
    | some table =>
      dsimp only
      rw [resolvedMethods_eq]
      rfl

/-- Each class comes from the one made of its type. -/
theorem forall₂_zip {α β γ δ : Type} {r : α × β → γ → Prop} {s : γ × α → δ → Prop}
    {items : List (α × β)} {mids : List γ} {results : List δ} (hmids : List.Forall₂ r items mids)
    (h : List.Forall₂ s (mids.zip (items.map Prod.fst)) results) :
    List.Forall₂ (fun item result ↦ ∃ mid, r item mid ∧ s (mid, item.1) result) items results := by
  induction hmids generalizing results with
  | nil =>
    cases h
    exact .nil
  | cons hfirst _ ih =>
    cases h with
    | cons hs hrest => exact .cons ⟨_, hfirst, hs⟩ (ih hrest)

/-- The classes of a layout are those of the types, in order; the modules have been looked for. -/
theorem layoutAt_classes {md : Metadata} {mr : ℕ} {layout : BinaryLayout}
    (h : layoutAt img md mr = .ok layout) (hok : layout.ok = true) :
    (∃ found, findCodeGenModules img md.images.length = .ok found) ∧
      List.Forall₂ (ClassOf img (registrationOf img mr) md) md.types.zipIdx layout.classes := by
  rw [layoutAt] at h
  split at h
  · cases h
    cases hok
  obtain ⟨fieldOffsetsVA, hfieldOffsets, h⟩ := bind_eq_ok_iff.mp h
  obtain ⟨typesVA, htypes, h⟩ := bind_eq_ok_iff.mp h
  obtain ⟨typesCount, hcount, h⟩ := bind_eq_ok_iff.mp h
  obtain ⟨classes, hclasses, h⟩ := bind_eq_ok_iff.mp h
  obtain ⟨found, hfound, h⟩ := bind_eq_ok_iff.mp h
  have hreg : registrationOf img mr = ⟨fieldOffsetsVA, typesVA, max 0 typesCount⟩ := by
    rw [registrationOf, Buffer.eq_of_readNat (mr + kMR_fieldOffsets) hfieldOffsets,
      Buffer.eq_of_readNat (mr + kMR_types) htypes,
      Buffer.eq_of_readInt (mr + kMR_typesCount) hcount]
  rw [hreg]
  refine ⟨⟨found, hfound⟩, ?_⟩
  have hunresolved : List.Forall₂ (Unresolved img ⟨fieldOffsetsVA, typesVA, max 0 typesCount⟩ md)
      md.types.zipIdx classes :=
    (mapM_eq_ok_iff.mp hclasses).imp fun entry cl hcl ↦ classLayout_unresolved hcl
  cases found with
  | none =>
    cases h
    refine hunresolved.imp fun entry cl hcl ↦
      ⟨hcl.name, hcl.namespaceName, hcl.image, hcl.parentName, ⟨cl, hcl.made, rfl⟩, ?_⟩
    rw [layoutMethods, hfound]
    exact hcl.methods
  | some arrVA =>
    obtain ⟨mods, hmods, h⟩ := bind_eq_ok_iff.mp h
    obtain ⟨resolved, hresolved, h⟩ := bind_eq_ok_iff.mp h
    cases h
    rw [collectModules_eq, List.append_nil, ← List.range_eq_range'] at hmods
    cases hmods
    rw [mapM_eq_ok_iff, ← List.zipIdx_map_fst 0 md.types] at hresolved
    refine (forall₂_zip hunresolved hresolved).imp ?_
    rintro entry cl' ⟨cl, hcl, hresult⟩
    have hwith := (withMethods_eq _ hcl.methods entry.1).symm.trans hresult
    cases hwith
    refine ⟨hcl.name, hcl.namespaceName, hcl.image, hcl.parentName, ⟨cl, hcl.made, rfl⟩, ?_⟩
    rw [layoutMethods, hfound]
    rfl

/-- Where a layout comes from. -/
theorem resolveIl2CppLayout_ok {files : List UInt8 → Option Buffer} {md : Metadata}
    {binaryPath : List UInt8} {layout : BinaryLayout}
    (h : resolveIl2CppLayout files md binaryPath = .ok layout) (hok : layout.ok = true) :
    md.tablesDecoded = true ∧ ∃ b img mr, files binaryPath = some b ∧
      loadImage b = .ok (some img) ∧
      findMetadataRegistration img md.types.length = .ok (some mr) ∧
      layoutAt img md mr = .ok layout := by
  rw [resolveIl2CppLayout] at h
  split at h
  · cases h
    cases hok
  next hdecoded =>
  rw [Bool.not_eq_true, Bool.not_eq_false'] at hdecoded
  split at h
  · cases h
    cases hok
  next b hb =>
  split at h
  · cases h
    cases hok
  obtain ⟨loaded, hload, h⟩ := bind_eq_ok_iff.mp h
  cases loaded with
  | none =>
    cases h
    cases hok
  | some img =>
    obtain ⟨found, hfound, h⟩ := bind_eq_ok_iff.mp h
    cases found with
    | none =>
      cases h
      cases hok
    | some mr => exact ⟨hdecoded, b, img, mr, hb, hload, hfound, h⟩

/-! ### Agreement -/

/-- The first item on which two predicates of related lists hold is related to the first of the other
list. -/
theorem find?_rel {α β : Type} {r : α → β → Prop} {p : α → Bool} {q : β → Bool}
    (hpq : ∀ a b, r a b → p a = q b) {items : List α} {results : List β}
    (h : List.Forall₂ r items results) : Option.Rel r (items.find? p) (results.find? q) := by
  induction h with
  | nil => exact .none
  | cons hfirst _ ih =>
    rw [List.find?_cons, List.find?_cons, hpq _ _ hfirst]
    split
    · exact .some hfirst
    · exact ih

/-- The first module of an image and the last one of it that has a table give methods the same
code. -/
def TablesAgree (img : Image) (entries : List (List UInt8 × ℕ × ℕ)) (imageName : List UInt8)
    (methods : List MethodDef) : Prop :=
  (if (firstTable entries imageName).2 = 0 then []
    else methodsBy img (firstTable entries imageName) methods) =
  ((lastTable entries imageName).map fun table ↦ methodsBy img table methods).getD []

theorem tablesAgree_nil (entries : List (List UInt8 × ℕ × ℕ)) (imageName : List UInt8) :
    TablesAgree img entries imageName [] := by
  rw [TablesAgree, map_methodsBy_nil]
  split
  · rfl
  · rfl

section

variable {files : List UInt8 → Option Buffer} {md : Metadata} {binaryPath className : List UInt8}

/-- What is resolved for a class with methods and an image. -/
theorem resolveIl2CppMethods_eq {b : Buffer} {cls : TypeDef} {i : ℕ} {found : Option ℕ}
    (hdecoded : md.tablesDecoded = true) (hclass : findClass md.types className = some (cls, i))
    (hb : files binaryPath = some b) (hload : loadImage b = .ok (some img))
    (hfound : findCodeGenModules img md.images.length = .ok found)
    (hmethods : cls.methods ≠ []) (himage : imageNameForType md.images i ≠ []) :
    resolveIl2CppMethods files md binaryPath className = .ok (found.elim [] fun arrVA ↦
      let table := firstTable (moduleEntries img arrVA md.images.length)
        (imageNameForType md.images i)
      if table.2 = 0 then [] else methodsBy img table cls.methods) := by
  have hnonempty : ¬(cls.methods.isEmpty ∨ (imageNameForType md.images i).isEmpty) := by
    rw [List.isEmpty_iff, List.isEmpty_iff]
    exact not_or.mpr ⟨hmethods, himage⟩
  rw [resolveIl2CppMethods, hdecoded, if_neg (by decide), hclass]
  dsimp only
  rw [if_neg hnonempty, hb]
  dsimp only
  rw [hload, ok_bind]
  dsimp only
  rw [hfound]
  cases found with
  | none => rfl
  | some arrVA =>
    change moduleNamed img arrVA _ 0 md.images.length >>= _ = _
    rw [moduleNamed_eq, ← List.range_eq_range', ← moduleEntries]
    change (if _ then _ else _) = _
    rw [resolvedMethods_eq]
    dsimp only [Option.elim_some]
    split
    · rfl
    · rfl

theorem resolveIl2CppMethods_none {cls : TypeDef} {i : ℕ}
    (hclass : findClass md.types className = some (cls, i))
    (h : cls.methods = [] ∨ imageNameForType md.images i = []) :
    resolveIl2CppMethods files md binaryPath className = .ok [] := by
  rw [resolveIl2CppMethods, hclass]
  split
  · rfl
  · dsimp only
    rw [if_pos (by rwa [List.isEmpty_iff, List.isEmpty_iff])]
    rfl

theorem lastTable_nil (entries : List (List UInt8 × ℕ × ℕ)) : lastTable entries [] = none := by
  rw [lastTable, List.lookup_eq_none_iff]
  intro entry hentry
  rw [List.mem_reverse, List.mem_filter, hasTable, Bool.and_eq_true] at hentry
  cases hname : entry.1 with
  | nil =>
    rw [hname] at hentry
    cases hentry.2.1
  | cons c name => rfl

/-- The first class of a name comes from the first type of the name. -/
theorem classNamed_eq_some {reg : Registration} {layout : BinaryLayout} {c : ClassLayout}
    (hclasses : List.Forall₂ (ClassOf img reg md) md.types.zipIdx layout.classes)
    (hclass : classNamed layout className = some c) :
    ∃ entry, (md.types.zipIdx.find? fun (t, _) ↦ t.fullName == className) = some entry ∧
      ClassOf img reg md entry c := by
  have hrel := find?_rel (p := fun (t, _) ↦ t.fullName == className)
    (q := fun c ↦ c.fullName == className) (fun entry cl hcl ↦ by rw [hcl.fullName]) hclasses
  rw [← classNamed, hclass] at hrel
  cases hfind : md.types.zipIdx.find? fun (t, _) ↦ t.fullName == className with
  | none =>
    rw [hfind] at hrel
    cases hrel
  | some entry =>
    rw [hfind] at hrel
    cases hrel with
    | some hcl => exact ⟨entry, rfl, hcl⟩

end

end

theorem mem_of_lookup {entries : List (List UInt8 × ℕ × ℕ)} {name : List UInt8} {table : ℕ × ℕ}
    (h : entries.lookup name = some table) : (name, table) ∈ entries := by
  obtain ⟨before, after, rfl, -⟩ := List.lookup_eq_some_iff.mp h
  exact List.mem_append_right before List.mem_cons_self

/-- If all modules of a name have the same table, the two resolvers use it. -/
theorem tablesAgree_of_same {img : Image} {entries : List (List UInt8 × ℕ × ℕ)}
    {imageName : List UInt8} (hname : imageName ≠ []) (methods : List MethodDef)
    (hsame : ∀ e ∈ entries, ∀ e' ∈ entries, e.1 = imageName → e'.1 = imageName → e.2 = e'.2) :
    TablesAgree img entries imageName methods := by
  have hmem : ∀ e, e ∈ (entries.filter hasTable).reverse ↔ e ∈ entries ∧ hasTable e = true := by
    intro e
    rw [List.mem_reverse, List.mem_filter]
  rw [TablesAgree, firstTable]
  cases hfirst : entries.lookup imageName with
  | none =>
    have hlast : lastTable entries imageName = none :=
      List.lookup_eq_none_iff.mpr fun e he ↦ List.lookup_eq_none_iff.mp hfirst e ((hmem e).mp he).1
    rw [hlast]
    rfl
  | some table =>
    have hin := mem_of_lookup hfirst
    dsimp only [Option.getD_some]
    by_cases hzero : table.2 = 0
    · have hlast : lastTable entries imageName = none := by
        refine List.lookup_eq_none_iff.mpr fun e he ↦ bne_iff_ne.mpr fun heq ↦ ?_
        obtain ⟨hentry, htable⟩ := (hmem e).mp he
        rw [hasTable, ← hsame _ hin e hentry rfl heq.symm, hzero, Bool.and_eq_true] at htable
        cases htable.2
      rw [hlast, if_pos hzero]
      rfl
    · have htable : hasTable (imageName, table) = true := by
        rw [hasTable, Bool.and_eq_true, bne_iff_ne]
        refine ⟨?_, hzero⟩
        cases imageName with
        | nil => exact absurd rfl hname
        | cons c name => rfl
      have hsome : ((entries.filter hasTable).reverse.lookup imageName).isSome = true :=
        List.lookup_isSome_iff.mpr ⟨_, (hmem _).mpr ⟨hin, htable⟩, beq_self_eq_true _⟩
      obtain ⟨last, hlast⟩ := Option.isSome_iff_exists.mp hsome
      have heq : table = last := hsame _ hin _ ((hmem _).mp (mem_of_lookup hlast)).1 rfl rfl
      rw [lastTable, hlast, if_neg hzero, heq]
      rfl

/-- An ELF file with eight modules named `a.dll`, of which the last has another table. -/
def twoTables : Buffer :=
  .ofWords 46 [(0, 0x2464C457F), (4, 0x40), (6, 0x38000000000000), (7, 1),
    -- the program header
    (8, 0x500000001), (9, 0xC8), (10, 0xC8), (12, 0xA8), (13, 0xA8),
    -- the registration, at 0x78
    (21, 8), (22, 0xC8), (25, 8), (26, 0xE8), (27, 8),
    -- the array of modules, the two modules and their tables
    (29, 0x128), (30, 0x128), (31, 0x128), (32, 0x128), (33, 0x128), (34, 0x128), (35, 0x128),
    (36, 0x140), (37, 0x168), (38, 1), (39, 0x158), (40, 0x168), (41, 1), (42, 0x160),
    (43, 0x158), (44, 0x160), (45, 0x6C6C642E61)]

def twoTablesImage : Image := ⟨twoTables, 0, [⟨0xC8, 0xA8, 0xC8, 0xA8⟩]⟩

/-- The type with a method. -/
def twoTablesClass : TypeDef := ⟨ascii "A", [], [], [⟨ascii "m", 0x06000001⟩], 0, -1⟩

/-- Eight types, of which the first has a method, and eight images, of which the first has the
types. -/
def twoTablesMetadata : Metadata where
  version := 31
  strings := []
  stringLiterals := []
  tablesDecoded := true
  types := twoTablesClass :: List.replicate 7 ⟨ascii "B", [], [], [], 0, -1⟩
  images := ⟨ascii "a.dll", 0, 8⟩ :: List.replicate 7 ⟨[], 0, 0⟩

def twoTablesLayout : BinaryLayout where
  ok := true
  classes := ⟨ascii "a.dll", [], ascii "A", [], [], [⟨ascii "m", 0x160⟩]⟩ ::
    List.replicate 7 ⟨ascii "a.dll", [], ascii "B", [], [], []⟩

theorem twoTables_modules : findCodeGenModules twoTablesImage 8 = .ok (some 0xE8) := by
  rw [findCodeGenModules, twoTablesImage, firstFound, modulesIn, if_neg (by decide), scanWords]
  rfl

theorem twoTables_registration : findMetadataRegistration twoTablesImage 8 = .ok (some 0x78) := by
  rw [findMetadataRegistration, twoTablesImage, firstFound, registrationIn, if_neg (by decide),
    scanWords]
  rfl

theorem twoTables_layout :
    resolveIl2CppLayout (fun _ ↦ some twoTables) twoTablesMetadata [] = .ok twoTablesLayout := by
  rw [resolveIl2CppLayout, if_neg (by decide)]
  dsimp only
  rw [if_neg (by decide)]
  refine bind_eq_ok_iff.mpr ⟨some twoTablesImage, rfl, ?_⟩
  refine bind_eq_ok_iff.mpr ⟨some 0x78, twoTables_registration, ?_⟩
  dsimp only
  rw [layoutAt, if_neg (by decide)]
  refine bind_eq_ok_iff.mpr ⟨0xE8, rfl, ?_⟩
  refine bind_eq_ok_iff.mpr ⟨0xC8, rfl, ?_⟩
  refine bind_eq_ok_iff.mpr ⟨8, rfl, ?_⟩
  refine bind_eq_ok_iff.mpr ⟨twoTablesLayout.classes.map fun c ↦ { c with methods := [] }, rfl, ?_⟩
  exact bind_eq_ok_iff.mpr ⟨some 0xE8, twoTables_modules, rfl⟩

theorem twoTables_methods :
    resolveIl2CppMethods (fun _ ↦ some twoTables) twoTablesMetadata [] (ascii "A") =
      .ok [⟨ascii "m", 0x158⟩] := by
  have hclass : findClass twoTablesMetadata.types (ascii "A") = some (twoTablesClass, 0) := by
    decide
  have hload : loadImage twoTables = .ok (some twoTablesImage) := rfl
  have htable : firstTable (moduleEntries twoTablesImage 0xE8 8) (ascii "a.dll") = (1, 0x158) := by
    decide
  have hcode : methodsBy twoTablesImage (1, 0x158) twoTablesClass.methods =
      [⟨ascii "m", 0x158⟩] := by
    decide
  refine (resolveIl2CppMethods_eq rfl hclass rfl hload twoTables_modules (by decide)
    (by decide)).trans ?_
  have hname : imageNameForType twoTablesMetadata.images 0 = ascii "a.dll" := by decide
  rw [Option.elim_some, hname]
  change Except.ok (if (firstTable (moduleEntries twoTablesImage 0xE8 8) _).2 = 0 then _ else _) = _
  rw [htable, if_neg (by decide)]
  exact congrArg Except.ok hcode

end Cecore.Analysis.Il2Cpp
