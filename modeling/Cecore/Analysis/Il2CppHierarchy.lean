import Cecore.Analysis.Il2CppMethods
import Cecore.Library.Ancestry

/-!
# Inherited fields

A type's parent is an index in the metadata, which leads to a record of a type in the binary. The
layout keeps the parent's name, and `il2cppObjectFieldLayout` follows the names. Where each name leads
to the type that it was taken from, the fields of an object are those of the type and its ancestors.
-/

set_option autoImplicit false
set_option relaxedAutoImplicit false

namespace Cecore.Analysis.Il2Cpp

open Library Library.CheckedBuffer Library.LittleEndian

/-! ### The hierarchy -/

/-- The payload of a type record, taken as the index of a type definition. -/
def klassIndexOf (types : List TypeDef) (data : ℕ) : Option ℕ :=
  let klass := signedOf 4 (data % 2 ^ 32)
  if 0 ≤ klass ∧ klass.toNat < types.length then some klass.toNat else none

def payloadIndex (img : Image) (types : List TypeDef) (typeVA : ℕ) : Option ℕ :=
  (img.wordAt 8 typeVA).bind (klassIndexOf types)

/-- The type definition that a record stands for. The payload of an instance of a generic class leads
to the record of the open type. -/
def definitionOf (img : Image) (types : List TypeDef) (typeVA : ℕ) : Option ℕ :=
  if typeEnumOf ((img.wordAt 4 (add64 typeVA kType_attrs)).getD 0) = 0x15 then
    ((img.wordAt 8 typeVA).bind (img.wordAt 8)).bind fun gtp ↦
      if gtp = 0 then none else payloadIndex img types gtp
  else payloadIndex img types typeVA

/-- The record of a type index, or 0. -/
def recordOf (img : Image) (reg : Registration) (typeIndex : ℤ) : ℕ :=
  if typeIndex < 0 ∨ reg.typesCount ≤ typeIndex then 0
  else (img.wordAt 8 (add64 reg.typesVA (typeIndex.toNat * 8))).getD 0

/-- The parent of type `i`, by a way to make out the type definition of a record. -/
def parentBy (index : ℕ → Option ℕ) (img : Image) (reg : Registration) (types : List TypeDef)
    (i : ℕ) : Option ℕ :=
  types[i]?.bind fun mt ↦
    if recordOf img reg mt.parentTypeIndex = 0 then none
    else index (recordOf img reg mt.parentTypeIndex)

/-- The type that type `i` derives from. -/
def parentOf (img : Image) (reg : Registration) (types : List TypeDef) : ℕ → Option ℕ :=
  parentBy (definitionOf img types) img reg types

/-- The type of which the layout takes the name as the parent's. -/
def payloadParent (img : Image) (reg : Registration) (types : List TypeDef) : ℕ → Option ℕ :=
  parentBy (payloadIndex img types) img reg types

/-- The types of a chain can be found by their names: each is the first of its name, and the payload
of its parent's record is the parent's index, if it has a parent, which has a name. -/
structure NamesLead (img : Image) (reg : Registration) (types : List TypeDef) (chain : List ℕ) :
    Prop where
  first : ∀ i ∈ chain, ∀ mt, types[i]? = some mt → ∀ j < i, ∀ other, types[j]? = some other →
    other.fullName ≠ mt.fullName
  plain : ∀ i ∈ chain, payloadParent img reg types i = parentOf img reg types i
  named : ∀ i ∈ chain, ∀ p, parentOf img reg types i = some p → ∀ mt, types[p]? = some mt →
    mt.fullName ≠ []

/-- The fields of type `i` that are part of its objects. -/
def instanceFields (img : Image) (reg : Registration) (md : Metadata) (i : ℕ) :
    List ResolvedField :=
  match md.types[i]? with
  | none => []
  | some mt =>
    match classLayout img reg md mt i with
    | .ok cl => objectFields cl
    | .error _ => []

/-! ### The walk by names -/

section

variable {img : Image} {reg : Registration} {md : Metadata} {layout : BinaryLayout}

theorem klassOf_eq (types : List TypeDef) (data : ℕ) :
    klassOf types data = (klassIndexOf types data).bind fun i ↦ types[i]? := by
  rw [klassOf, klassIndexOf]
  by_cases hpos : 0 ≤ signedOf 4 (data % 2 ^ 32)
  · rw [if_pos hpos]
    by_cases hlt : (signedOf 4 (data % 2 ^ 32)).toNat < types.length
    · rw [if_pos ⟨hpos, hlt⟩]
      rfl
    · rw [if_neg fun h ↦ hlt h.2, List.getElem?_eq_none (not_lt.mp hlt)]
      rfl
  · rw [if_neg hpos, if_neg fun h ↦ hpos h.1]
    rfl

theorem klassIndexOf_lt {types : List TypeDef} {data i : ℕ} (h : klassIndexOf types data = some i) :
    i < types.length := by
  rw [klassIndexOf] at h
  split at h
  · next hin =>
    cases h
    exact hin.2
  · cases h

theorem typeVAForIndex_eq (typeIndex : ℤ) :
    typeVAForIndex img reg typeIndex = .ok (recordOf img reg typeIndex) := by
  rw [typeVAForIndex, recordOf]
  split
  · rfl
  · rw [Image.readVA_eq (by decide)]
    rfl

/-- The name of the parent is that of the type whose index is the record's payload. -/
theorem parentNameOf_eq {i : ℕ} {mt : TypeDef} (hmt : md.types[i]? = some mt) :
    parentNameOf img reg md.types mt.parentTypeIndex =
      .ok ((((payloadParent img reg md.types i).bind fun p ↦ md.types[p]?).map
        TypeDef.fullName).getD []) := by
  rw [parentNameOf, payloadParent, parentBy, hmt, typeVAForIndex_eq, Option.bind_some]
  split
  · next hneg =>
    have hzero : recordOf img reg mt.parentTypeIndex = 0 := if_pos (.inl hneg)
    rw [if_pos hzero]
    rfl
  · change (if _ then _ else _) = _
    split
    · rfl
    · rw [Image.readVA_eq (by decide), payloadIndex]
      cases img.wordAt 8 (recordOf img reg mt.parentTypeIndex) with
      | none => rfl
      | some data =>
        rw [Option.bind_some, ← klassOf_eq]
        rfl

theorem class_of_type (hclasses : List.Forall₂ (ClassOf img reg md) md.types.zipIdx layout.classes)
    {i : ℕ} {mt : TypeDef} (hmt : md.types[i]? = some mt) :
    ∃ c, layout.classes[i]? = some c ∧ ClassOf img reg md (mt, i) c := by
  obtain ⟨hi, hget⟩ := List.getElem?_eq_some_iff.mp hmt
  have hlen := hclasses.length_eq
  rw [List.length_zipIdx] at hlen
  have hrel := hclasses.get (by rwa [List.length_zipIdx]) (hlen ▸ hi)
  rw [List.get_eq_getElem, List.get_eq_getElem, List.getElem_zipIdx, Nat.zero_add] at hrel
  dsimp only at hrel
  rw [hget] at hrel
  exact ⟨_, List.getElem?_eq_getElem (hlen ▸ hi), hrel⟩

/-- The first type of a name is found by it. -/
theorem classNamed_of_first
    (hclasses : List.Forall₂ (ClassOf img reg md) md.types.zipIdx layout.classes) {i : ℕ}
    {mt : TypeDef}
    (hfirst : ∀ j < i, ∀ other, md.types[j]? = some other → other.fullName ≠ mt.fullName)
    {c : ClassLayout} (hc : layout.classes[i]? = some c) (hcl : ClassOf img reg md (mt, i) c) :
    classNamed layout mt.fullName = some c := by
  obtain ⟨hi, hget⟩ := List.getElem?_eq_some_iff.mp hc
  have hlen := hclasses.length_eq
  rw [List.length_zipIdx] at hlen
  refine List.find?_eq_some_iff_getElem.mpr ⟨?_, i, hi, hget, fun j hj ↦ ?_⟩
  · rw [hcl.fullName]
    exact beq_self_eq_true _
  · have hother : md.types[j]? = some md.types[j] := List.getElem?_eq_getElem (by omega)
    obtain ⟨c', hc', hcl'⟩ := class_of_type hclasses hother
    rw [List.getElem?_eq_getElem (by omega)] at hc'
    cases hc'
    rw [hcl'.fullName, Bool.not_eq_true', beq_eq_false_iff_ne]
    exact hfirst j hj _ hother

theorem objectFields_eq {i : ℕ} {mt : TypeDef} {c : ClassLayout} (hmt : md.types[i]? = some mt)
    (hcl : ClassOf img reg md (mt, i) c) : objectFields c = instanceFields img reg md i := by
  obtain ⟨cl', hmade, hfields⟩ := hcl.fields
  have hname : cl'.fullName = c.fullName := by
    rw [hcl.fullName, ClassLayout.fullName, TypeDef.fullName, (classLayout_unresolved hmade).name,
      (classLayout_unresolved hmade).namespaceName]
  rw [instanceFields, hmt]
  dsimp only
  rw [hmade]
  dsimp only
  rw [objectFields, objectFields, hfields, hname]

/-- Two types of a chain whose names lead to them have different names. -/
theorem NamesLead.names_ne {chain : List ℕ} (h : NamesLead img reg md.types chain) {i j : ℕ}
    (hi : i ∈ chain) (hj : j ∈ chain) (hne : i ≠ j) {mt other : TypeDef}
    (hmt : md.types[i]? = some mt) (hother : md.types[j]? = some other) :
    other.fullName ≠ mt.fullName := by
  rcases Nat.lt_or_gt_of_ne hne with hlt | hlt
  · exact fun heq ↦ h.first j hj other hother i hlt mt hmt heq.symm
  · exact h.first i hi mt hmt j hlt other hother

theorem NamesLead.tail {i : ℕ} {chain : List ℕ}
    (h : NamesLead img reg md.types (i :: chain)) : NamesLead img reg md.types chain where
  first j hj := h.first j (List.mem_cons_of_mem _ hj)
  plain j hj := h.plain j (List.mem_cons_of_mem _ hj)
  named j hj := h.named j (List.mem_cons_of_mem _ hj)

theorem definitionOf_lt {types : List TypeDef} {typeVA i : ℕ}
    (h : definitionOf img types typeVA = some i) : i < types.length := by
  have hpayload : ∀ {va : ℕ}, payloadIndex img types va = some i → i < types.length := by
    intro va h
    obtain ⟨data, -, hdata⟩ := Option.bind_eq_some_iff.mp h
    exact klassIndexOf_lt hdata
  rw [definitionOf] at h
  split at h
  · obtain ⟨gtp, -, h⟩ := Option.bind_eq_some_iff.mp h
    split at h
    · cases h
    · exact hpayload h
  · exact hpayload h

theorem parentOf_lt {types : List TypeDef} {i p : ℕ} (h : parentOf img reg types i = some p) :
    p < types.length := by
  obtain ⟨mt, -, h⟩ := Option.bind_eq_some_iff.mp h
  split at h
  · cases h
  · exact definitionOf_lt h

theorem chainFrom_succ (layout : BinaryLayout) (left : ℕ) {seen : List (List UInt8)}
    {c : ClassLayout} (hseen : c.fullName ∉ seen) :
    chainFrom layout (left + 1) seen c = c ::
      (if c.parentName.isEmpty then [] else
        match classNamed layout c.parentName with
        | none => []
        | some p => chainFrom layout left (c.fullName :: seen) p) := by
  have hnew : ¬seen.contains c.fullName = true := by
    rwa [List.contains_iff_mem]
  rw [chainFrom]
  exact if_neg hnew

/-- The walk by names goes through the chain. -/
theorem chainFrom_eq (hclasses : List.Forall₂ (ClassOf img reg md) md.types.zipIdx layout.classes)
    {t : ℕ} {chain : List ℕ} (hchain : Ancestry (parentOf img reg md.types) t chain)
    (hlead : NamesLead img reg md.types chain) {left : ℕ} (hleft : chain.length ≤ left)
    {seen : List (List UInt8)} {mt : TypeDef} (hmt : md.types[t]? = some mt) {c : ClassLayout}
    (hcl : ClassOf img reg md (mt, t) c)
    (hseen : ∀ i ∈ chain, ∀ mt, md.types[i]? = some mt → mt.fullName ∉ seen) :
    (chainFrom layout left seen c).map objectFields = chain.map (instanceFields img reg md) := by
  induction hchain generalizing left seen mt c with
  | @root t hroot =>
    obtain ⟨left, rfl⟩ : ∃ n, left = n + 1 := Nat.exists_eq_succ_of_ne_zero (by
      rw [List.length_singleton] at hleft
      omega)
    have hnew : c.fullName ∉ seen := by
      rw [hcl.fullName]
      exact hseen t List.mem_cons_self mt hmt
    have hparent : c.parentName = [] := by
      have hname := hcl.parentName
      rw [parentNameOf_eq hmt, hlead.plain t List.mem_cons_self, hroot] at hname
      exact (Except.ok.inj hname).symm
    rw [chainFrom_succ layout left hnew, hparent, List.map_cons, objectFields_eq hmt hcl]
    rfl
  | @child t p chain hparent hrest ih =>
    obtain ⟨left, rfl⟩ : ∃ n, left = n + 1 := Nat.exists_eq_succ_of_ne_zero (by
      rw [List.length_cons] at hleft
      omega)
    have hpmem : p ∈ chain := by
      cases hrest with
      | root => exact List.mem_cons_self
      | child => exact List.mem_cons_self
    have hpt := parentOf_lt hparent
    obtain ⟨pt, hpt⟩ : ∃ pt, md.types[p]? = some pt := ⟨_, List.getElem?_eq_getElem hpt⟩
    obtain ⟨pc, hpc, hpcl⟩ := class_of_type hclasses hpt
    have hnew : c.fullName ∉ seen := by
      rw [hcl.fullName]
      exact hseen t List.mem_cons_self mt hmt
    have hname : c.parentName = pt.fullName := by
      have hname := hcl.parentName
      rw [parentNameOf_eq hmt, hlead.plain t List.mem_cons_self, hparent, Option.bind_some, hpt]
        at hname
      exact (Except.ok.inj hname).symm
    have hnamed : ¬pt.fullName.isEmpty = true := by
      rw [List.isEmpty_iff]
      exact hlead.named t List.mem_cons_self p hparent pt hpt
    have hfound : classNamed layout pt.fullName = some pc :=
      classNamed_of_first hclasses (hlead.first p (List.mem_cons_of_mem _ hpmem) pt hpt) hpc hpcl
    rw [chainFrom_succ layout left hnew, hname, if_neg hnamed, hfound, List.map_cons, List.map_cons,
      objectFields_eq hmt hcl]
    refine congrArg _ (ih (hlead.tail) ?_ hpt hpcl ?_)
    · rw [List.length_cons] at hleft
      omega
    · intro i hi it hit
      rw [List.mem_cons, not_or, hcl.fullName]
      have hne : t ≠ i := by
        rintro rfl
        exact (List.nodup_cons.mp (Ancestry.child hparent hrest).nodup).1 hi
      exact ⟨hlead.names_ne List.mem_cons_self (List.mem_cons_of_mem _ hi) hne hmt hit,
        hseen i (List.mem_cons_of_mem _ hi) it hit⟩

/-- The fields of a type and its ancestors, the furthest ancestor's first. -/
def inheritedFields (img : Image) (reg : Registration) (md : Metadata) (chain : List ℕ) :
    List ResolvedField :=
  chain.reverse.flatMap (instanceFields img reg md)

/-- Where the names lead through the ancestors of a type, its object's fields are its own and theirs,
ordered by offset, base classes first. -/
theorem il2cppObjectFieldLayout_inherits {files : List UInt8 → Option Buffer}
    {binaryPath : List UInt8} {b : Buffer} {mr t : ℕ} {chain : List ℕ} {mt : TypeDef}
    (hlayout : resolveIl2CppLayout files md binaryPath = .ok layout) (hok : layout.ok = true)
    (hb : files binaryPath = some b) (hload : loadImage b = .ok (some img))
    (hmr : findMetadataRegistration img md.types.length = .ok (some mr))
    (hmt : md.types[t]? = some mt)
    (hchain : Ancestry (parentOf img (registrationOf img mr) md.types) t chain)
    (hdeep : chain.length ≤ 65) (hlead : NamesLead img (registrationOf img mr) md.types chain) :
    StablyOrdered ResolvedField.offset (inheritedFields img (registrationOf img mr) md chain)
      (il2cppObjectFieldLayout layout mt.fullName) := by
  obtain ⟨-, b', img', mr', hb', hload', hmr', hat⟩ := resolveIl2CppLayout_ok hlayout hok
  rw [hb] at hb'
  cases hb'
  rw [hload] at hload'
  cases hload'
  rw [hmr] at hmr'
  cases hmr'
  have hclasses := (layoutAt_classes hat hok).2
  obtain ⟨c, hc, hcl⟩ := class_of_type hclasses hmt
  have htmem : t ∈ chain := by
    cases hchain with
    | root => exact List.mem_cons_self
    | child => exact List.mem_cons_self
  have hfields := chainFrom_eq hclasses hchain hlead hdeep hmt hcl fun i _ mt _ ↦ List.not_mem_nil
  rw [il2cppObjectFieldLayout, classNamed_of_first hclasses (hlead.first t htmem mt hmt) hc hcl,
    inheritedFields, List.flatMap_def, List.map_reverse, ← hfields, ← List.map_reverse,
    ← List.flatMap_def]
  exact stablyOrdered_mergeSort _ _

end

/-! ### A class whose parent shares its name -/

/-- An ELF file with a registration whose type 0 has the payload 1, and offsets of fields. -/
def hierarchyFile : Buffer :=
  .ofWords 47 [(0, 0x2464C457F), (4, 0x40), (6, 0x38000000000000), (7, 1),
    -- the program header
    (8, 0x500000001), (9, 0xC8), (10, 0xC8), (12, 0xB0), (13, 0xB0),
    -- the registration, at 0x78
    (21, 8), (22, 0x170), (25, 8), (26, 0xE8), (27, 8),
    -- the array of modules, which is that of the field offsets too
    (29, 0x128), (30, 0x128), (31, 0x128), (32, 0x128), (33, 0x128), (34, 0x128), (35, 0x128),
    (36, 0x128), (37, 0x168), (38, 1), (39, 0x158), (45, 0x6C6C642E61),
    -- the array of types
    (46, 0x130)]

def hierarchyImage : Image := ⟨hierarchyFile, 0, [⟨0xC8, 0xB0, 0xC8, 0xB0⟩]⟩

/-- Type 2 derives from type 1, which has this name; type 0 is named `A`. -/
def hierarchyMetadata (name : List UInt8) : Metadata where
  version := 31
  strings := []
  stringLiterals := []
  tablesDecoded := true
  types := ⟨ascii "A", [], [⟨ascii "x", -1, 0⟩], [], 0, -1⟩ ::
    ⟨name, [], [⟨ascii "y", -1, 0⟩], [], 0, -1⟩ ::
    ⟨ascii "C", [], [⟨ascii "z", -1, 0⟩], [], 0, 0⟩ ::
    List.replicate 5 ⟨ascii "E", [], [], [], 0, -1⟩
  images := List.replicate 8 ⟨ascii "a.dll", 0, 8⟩

def hierarchyField (name : String) : ResolvedField :=
  ⟨ascii name, 0x168, false, false, 0, [], []⟩

def hierarchyLayout (name : List UInt8) : BinaryLayout where
  ok := true
  classes := ⟨ascii "a.dll", [], ascii "A", [], [hierarchyField "x"], []⟩ ::
    ⟨ascii "a.dll", [], name, [], [hierarchyField "y"], []⟩ ::
    ⟨ascii "a.dll", [], ascii "C", name, [hierarchyField "z"], []⟩ ::
    List.replicate 5 ⟨ascii "a.dll", [], ascii "E", [], [], []⟩

theorem hierarchy_registration :
    findMetadataRegistration hierarchyImage 8 = .ok (some 0x78) := by
  rw [findMetadataRegistration, hierarchyImage, firstFound, registrationIn, if_neg (by decide),
    scanWords]
  rfl

theorem hierarchy_modules : findCodeGenModules hierarchyImage 8 = .ok (some 0xE8) := by
  rw [findCodeGenModules, hierarchyImage, firstFound, modulesIn, if_neg (by decide), scanWords]
  rfl

theorem hierarchy_layout (name : List UInt8) :
    resolveIl2CppLayout (fun _ ↦ some hierarchyFile) (hierarchyMetadata name) [] =
      .ok (hierarchyLayout name) := by
  have hdecoded : ¬(!(hierarchyMetadata name).tablesDecoded) = true := Bool.false_ne_true
  rw [resolveIl2CppLayout, if_neg hdecoded]
  dsimp only
  rw [if_neg (by decide)]
  refine bind_eq_ok_iff.mpr ⟨some hierarchyImage, rfl, ?_⟩
  refine bind_eq_ok_iff.mpr ⟨some 0x78, hierarchy_registration, ?_⟩
  dsimp only
  rw [layoutAt, if_neg (by decide)]
  refine bind_eq_ok_iff.mpr ⟨0xE8, rfl, ?_⟩
  refine bind_eq_ok_iff.mpr ⟨0x170, rfl, ?_⟩
  refine bind_eq_ok_iff.mpr ⟨8, rfl, ?_⟩
  refine bind_eq_ok_iff.mpr ⟨(hierarchyLayout name).classes, rfl, ?_⟩
  exact bind_eq_ok_iff.mpr ⟨some 0xE8, hierarchy_modules, rfl⟩

/-- Only type 2 has a parent. -/
theorem hierarchy_parents (name : List UInt8) :
    parentOf hierarchyImage (registrationOf hierarchyImage 0x78) (hierarchyMetadata name).types =
      fun i ↦ if i = 2 then some 1 else none := by
  funext i
  match i with
  | 0 => rfl
  | 1 => rfl
  | 2 => rfl
  | i + 3 =>
    have hrest : (hierarchyMetadata name).types[i + 3]? =
        if i < 5 then some ⟨ascii "E", [], [], [], 0, -1⟩ else none := List.getElem?_replicate
    have hother : (if i + 3 = 2 then some 1 else none) = (none : Option ℕ) := if_neg (by omega)
    rw [parentOf, parentBy, hrest, hother]
    split
    · rfl
    · rfl

theorem hierarchy_chain (name : List UInt8) :
    Ancestry (parentOf hierarchyImage (registrationOf hierarchyImage 0x78)
      (hierarchyMetadata name).types) 2 [2, 1] := by
  rw [hierarchy_parents]
  exact .child rfl (.root rfl)

theorem hierarchy_inherited (name : List UInt8) :
    inheritedFields hierarchyImage (registrationOf hierarchyImage 0x78) (hierarchyMetadata name)
      [2, 1] = [{ hierarchyField "y" with declaringType := name },
        { hierarchyField "z" with declaringType := ascii "C" }] := rfl

/-- With another name of the parent, the object has the parent's field and its own. -/
theorem il2cppObjectFieldLayout_inherits_distinct :
    StablyOrdered ResolvedField.offset
      [{ hierarchyField "y" with declaringType := ascii "B" },
        { hierarchyField "z" with declaringType := ascii "C" }]
      (il2cppObjectFieldLayout (hierarchyLayout (ascii "B")) (ascii "C")) := by
  have hmt : (hierarchyMetadata (ascii "B")).types[2]? =
      some ⟨ascii "C", [], [⟨ascii "z", -1, 0⟩], [], 0, 0⟩ := rfl
  refine il2cppObjectFieldLayout_inherits (hierarchy_layout (ascii "B")) rfl rfl rfl
    hierarchy_registration hmt (hierarchy_chain (ascii "B")) (by decide) ⟨?_, ?_, ?_⟩
  · intro i hi mt hmt j hj other hother
    rw [List.mem_cons, List.mem_singleton] at hi
    rcases hi with rfl | rfl
    · cases hmt
      match j with
      | 0 =>
        cases hother
        decide
      | 1 =>
        cases hother
        decide
    · cases hmt
      match j with
      | 0 =>
        cases hother
        decide
  · intro i hi
    rw [List.mem_cons, List.mem_singleton] at hi
    rcases hi with rfl | rfl
    · rfl
    · rfl
  · intro i hi p hp mt hmt
    rw [List.mem_cons, List.mem_singleton] at hi
    rcases hi with rfl | rfl
    · cases hp
      cases hmt
      decide
    · cases hp

/-- With the name of another type, the object has that type's field in place of the parent's. The
hierarchy is acyclic, and one deep. -/
theorem shared_name_misleads :
    ∃ files md layout img mr chain, resolveIl2CppLayout files md [] = .ok layout ∧
      layout.ok = true ∧ ((files []).map loadImage) = some (.ok (some img)) ∧
      findMetadataRegistration img md.types.length = .ok (some mr) ∧
      (∀ i < md.types.length, ∃ chain, chain.length ≤ 2 ∧
        Ancestry (parentOf img (registrationOf img mr) md.types) i chain) ∧
      Ancestry (parentOf img (registrationOf img mr) md.types) 2 chain ∧
      ∃ mt, md.types[2]? = some mt ∧ ¬StablyOrdered ResolvedField.offset
        (inheritedFields img (registrationOf img mr) md chain)
        (il2cppObjectFieldLayout layout mt.fullName) := by
  refine ⟨fun _ ↦ some hierarchyFile, hierarchyMetadata (ascii "A"), hierarchyLayout (ascii "A"),
    hierarchyImage, 0x78, [2, 1], hierarchy_layout _, rfl, rfl, hierarchy_registration, ?_,
    hierarchy_chain _, _, rfl, fun h ↦ ?_⟩
  · intro i _
    rw [hierarchy_parents]
    by_cases hi : i = 2
    · exact ⟨[i, 1], le_rfl, .child (if_pos hi) (.root rfl)⟩
    · exact ⟨[i], Nat.le_succ 1, .root (if_neg hi)⟩
  · have hx : { hierarchyField "x" with declaringType := ascii "A" } ∈
        il2cppObjectFieldLayout (hierarchyLayout (ascii "A")) (ascii "C") :=
      (List.mergeSort_perm ..).mem_iff.mpr (by decide)
    rw [hierarchy_inherited] at h
    exact absurd (h.perm.mem_iff.mp hx) (by decide)

end Cecore.Analysis.Il2Cpp
