import Cecore.AutoAsm.Text
import Cecore.Core.Types
import Cecore.Library.RecordLayout
import Cecore.Table.XmlText
import Mathlib.Data.List.DropRight
import Mathlib.Data.List.Sort

/-!
# C++ structures from dissected ones

`generateCppStruct` writes the fields of a structure as members, in the order of their offsets,
with bytes of padding between them. It counts a field with the size it was given, where a compiler
counts the type that it was given and the alignment of the next one.
-/

set_option autoImplicit false
set_option relaxedAutoImplicit false

namespace Cecore.Analysis

open Library.RecordLayout

/-! ### The generator -/

structure StructureField where
  name : Text
  offset : ℕ
  type : ValueType
  size : ℕ
  nestedStructure : Text := []
  deriving DecidableEq, Repr

structure StructureDefinition where
  name : Text
  size : ℕ
  fields : List StructureField
  deriving DecidableEq, Repr

/-- The loop of `sanitizeIdentifier` over the characters, with what is written so far. -/
def identifierFrom (out : Text) : Text → Text
  | [] => out
  | c :: rest =>
    if Table.isAlnum c ∨ c = '_' then identifierFrom (out ++ [c]) rest
    else if out ≠ [] ∧ out.getLast? ≠ some '_' then identifierFrom (out ++ ['_']) rest
    else identifierFrom out rest

def sanitizeIdentifier (input fallback : Text) : Text :=
  let out := (identifierFrom [] input).rdropWhile (· = '_')
  let out := if out = [] then fallback else out
  if out.head?.any isDigit then '_' :: out else out

/-- The type of a member. -/
inductive CppType
  | uint8
  | int16
  | int32
  | int64
  | uintptr
  | float
  | double
  | bytes (count : ℕ)
  | nested (name : Text)
  deriving DecidableEq, Repr

def cppTypeFor (type : ValueType) (size : ℕ) : CppType :=
  match type with
  | .byte => .uint8
  | .int16 => .int16
  | .int32 => .int32
  | .int64 => .int64
  | .pointer => .uintptr
  | .float => .float
  | .double => .double
  | _ => .bytes (max 1 size)

def defaultSizeFor (type : ValueType) (explicitSize : ℕ) : ℕ :=
  if explicitSize ≠ 0 then explicitSize
  else match type with
    | .byte => 1
    | .int16 => 2
    | .int32 | .float => 4
    | .int64 | .pointer | .double => 8
    | _ => 1

def StructureField.fieldSize (field : StructureField) : ℕ := defaultSizeFor field.type field.size

def StructureField.cppName (field : StructureField) : Text :=
  sanitizeIdentifier field.name ("field_".toList ++ decimal field.offset)

def StructureField.cppType (field : StructureField) : CppType :=
  if field.nestedStructure = [] then cppTypeFor field.type field.fieldSize
  else .nested (sanitizeIdentifier field.nestedStructure "NestedStruct".toList)

/-- A line between the braces. -/
inductive StructLine
  | omitted (name : Text) (offset cursor : ℕ)
  | pad (index size : ℕ)
  | member (type : CppType) (name : Text) (offset : ℕ)
  deriving DecidableEq, Repr

/-- `std::max(cursor, field.offset + fieldSize)`, with the cursor at the field. -/
def StructureField.cursorAfter (field : StructureField) : ℕ :=
  max field.offset ((field.offset + field.fieldSize) % sizeModulus)

/-- The loop over the sorted fields, and the padding at the end. -/
def fieldLines (structSize : ℕ) : (cursor padIndex : ℕ) → List StructureField → List StructLine
  | cursor, padIndex, [] =>
    if cursor < structSize then [.pad padIndex (structSize - cursor)] else []
  | cursor, padIndex, field :: rest =>
    if field.offset < cursor then
      .omitted field.cppName field.offset cursor :: fieldLines structSize cursor padIndex rest
    else
      let member := StructLine.member field.cppType field.cppName field.offset
      if cursor < field.offset then
        .pad padIndex (field.offset - cursor) :: member ::
          fieldLines structSize field.cursorAfter (padIndex + 1) rest
      else member :: fieldLines structSize field.cursorAfter padIndex rest

/-- `std::stable_sort` by offset. -/
def StructureDefinition.sorted (s : StructureDefinition) : List StructureField :=
  s.fields.insertionSort fun lhs rhs ↦ lhs.offset ≤ rhs.offset

def StructureDefinition.lines (s : StructureDefinition) : List StructLine :=
  fieldLines s.size 0 0 s.sorted

def hex (value : ℕ) : Text := "0x".toList ++ AutoAsm.formatHex value

/-- A type as it stands in front of the name of the member, and behind it. -/
def CppType.text : CppType → Text × Text
  | .uint8 => ("uint8_t".toList, [])
  | .int16 => ("int16_t".toList, [])
  | .int32 => ("int32_t".toList, [])
  | .int64 => ("int64_t".toList, [])
  | .uintptr => ("uintptr_t".toList, [])
  | .float => ("float".toList, [])
  | .double => ("double".toList, [])
  | .bytes count => ("uint8_t".toList, "[".toList ++ decimal count ++ "]".toList)
  | .nested name => (name, [])

def StructLine.text : StructLine → Text
  | .omitted name offset cursor =>
    "    // ".toList ++ name ++ " at ".toList ++ hex offset ++
      " overlaps previous field (ends at ".toList ++ hex cursor ++
      "); omitted to preserve layout\n".toList
  | .pad index size =>
    "    uint8_t _pad".toList ++ decimal index ++ "[".toList ++ hex size ++ "];\n".toList
  | .member type name offset =>
    "    ".toList ++ type.text.1 ++ " ".toList ++ name ++ type.text.2 ++ "; // ".toList ++
      hex offset ++ "\n".toList

def generateCppStruct (s : StructureDefinition) : Text :=
  "#include <cstdint>\n\nstruct ".toList ++
    sanitizeIdentifier s.name "GeneratedStruct".toList ++ " \x7b\n".toList ++
    s.lines.flatMap StructLine.text ++ "\x7d;\n".toList

/-! ### What a compiler makes of it -/

/-- Size and alignment on x86-64, of a nested structure as it is declared. -/
def CppType.layout (nested : Text → Member) : CppType → Member
  | .uint8 => ⟨1, 1, one_pos⟩
  | .int16 => ⟨2, 2, two_pos⟩
  | .int32 | .float => ⟨4, 4, four_pos⟩
  | .int64 | .uintptr | .double => ⟨8, 8, by decide⟩
  | .bytes count => ⟨count, 1, one_pos⟩
  | .nested name => nested name

/-- The member that a line declares, with the offset in its comment. -/
def StructLine.declared (nested : Text → Member) : StructLine → Option (Option ℕ × Member)
  | .omitted _ _ _ => none
  | .pad _ size => some (none, (CppType.bytes size).layout nested)
  | .member type _ offset => some (some offset, type.layout nested)

/-- Each member that has an offset in its comment stands there. -/
def AsCommented (placed : List (Option ℕ × ℕ)) : Prop :=
  ∀ place ∈ placed, ∀ commented ∈ place.1, commented = place.2

/-- The members stand where their comments say, and the structure has its size where that is large
enough for every field. -/
structure Dissected (nested : Text → Member) (s : StructureDefinition) : Prop where
  offsets : AsCommented (place 0 (s.lines.filterMap (StructLine.declared nested)))
  size : (∀ field ∈ s.fields, field.offset + field.fieldSize ≤ s.size) →
    total (s.lines.filterMap (StructLine.declared nested)) = s.size

/-! ### When the two agree -/

/-- What a compiler counts for a field. -/
def StructureField.layout (field : StructureField) : Member :=
  (cppTypeFor field.type field.fieldSize).layout fun _ ↦ ⟨1, 1, one_pos⟩

/-- The fields that do not overlap one in front of them. -/
def kept : (cursor : ℕ) → List StructureField → List StructureField
  | _, [] => []
  | cursor, field :: rest =>
    if field.offset < cursor then kept cursor rest else field :: kept field.cursorAfter rest

def StructureDefinition.emitted (s : StructureDefinition) : List StructureField := kept 0 s.sorted

/-- The field is counted with the size of its type and less than an alignment of padding. -/
def StructureField.Fills (field : StructureField) (align : ℕ) : Prop :=
  field.offset + field.fieldSize < sizeModulus ∧ field.layout.size ≤ field.fieldSize ∧
    field.fieldSize < field.layout.size + align

def largestAlign (fields : List StructureField) : ℕ :=
  fields.foldr (fun field largest ↦ max field.layout.align largest) 1

/-- Every member is aligned and filled up to the next one, and the last one up to the end of a
structure that has a size of its own and is aligned with its members. -/
structure NaturalLayout (s : StructureDefinition) : Prop where
  aligned : ∀ field ∈ s.emitted, field.layout.align ∣ field.offset
  filled : s.emitted.IsChain fun field next ↦ field.Fills next.layout.align
  size : (∀ field ∈ s.fields, field.offset + field.fieldSize ≤ s.size) →
    0 < s.size ∧ largestAlign s.emitted ∣ s.size ∧
      ∀ field ∈ s.emitted.getLast?, field.Fills (largestAlign s.emitted)

/-! ### Sizes of fields -/

theorem layout_cppTypeFor (nested other : Text → Member) (type : ValueType) (size : ℕ) :
    (cppTypeFor type size).layout nested = (cppTypeFor type size).layout other := by
  cases type <;> rfl

theorem StructureField.layout_cppType {field : StructureField} (hplain : field.nestedStructure = [])
    (nested : Text → Member) : field.cppType.layout nested = field.layout := by
  rw [cppType, if_pos hplain, layout]
  exact layout_cppTypeFor ..

theorem StructureField.layout_size_pos (field : StructureField) : 0 < field.layout.size := by
  rw [layout]
  cases field.type <;> simp [cppTypeFor, CppType.layout]

theorem StructureField.fieldSize_pos (field : StructureField) : 0 < field.fieldSize := by
  unfold fieldSize defaultSizeFor
  by_cases hexplicit : field.size ≠ 0
  · rw [if_pos hexplicit]
    omega
  · rw [if_neg hexplicit]
    generalize field.type = type
    cases type <;> decide

/-- Offset and size are numbers of the machine. -/
def StructureField.Sized (field : StructureField) : Prop :=
  field.offset < sizeModulus ∧ field.size < sizeModulus

instance (field : StructureField) : Decidable field.Sized := inferInstanceAs (Decidable (_ ∧ _))

theorem StructureField.Sized.fieldSize_lt {field : StructureField} (h : field.Sized) :
    field.fieldSize < sizeModulus := by
  unfold fieldSize defaultSizeFor
  by_cases hexplicit : field.size ≠ 0
  · rw [if_pos hexplicit]
    exact h.2
  · rw [if_neg hexplicit]
    generalize field.type = type
    cases type <;> decide

theorem StructureField.cursorAfter_of_lt {field : StructureField}
    (h : field.offset + field.fieldSize < sizeModulus) :
    field.cursorAfter = field.offset + field.fieldSize := by
  rw [cursorAfter, Nat.mod_eq_of_lt h]
  omega

/-- The cursor is where the type ends, or less than an alignment behind it. -/
theorem StructureField.fills_iff {field : StructureField} (hsized : field.Sized) (align : ℕ) :
    field.Fills align ↔ field.offset + field.layout.size ≤ field.cursorAfter ∧
      field.cursorAfter < field.offset + field.layout.size + align := by
  have hpos := field.layout_size_pos
  have hsize := hsized.fieldSize_lt
  by_cases hwrap : field.offset + field.fieldSize < sizeModulus
  · rw [cursorAfter_of_lt hwrap, Fills]
    constructor
    · rintro ⟨-, hlow, hhigh⟩
      exact ⟨by omega, by omega⟩
    · rintro ⟨hlow, hhigh⟩
      exact ⟨hwrap, by omega, by omega⟩
  · have hmod : (field.offset + field.fieldSize) % sizeModulus =
        field.offset + field.fieldSize - sizeModulus := by
      rw [Nat.mod_eq_sub_mod (not_lt.mp hwrap), Nat.mod_eq_of_lt]
      have := hsized.1
      omega
    have hcursor : field.cursorAfter = field.offset := by
      rw [cursorAfter, hmod]
      omega
    constructor
    · rintro ⟨h, -⟩
      exact absurd h hwrap
    · rintro ⟨hlow, -⟩
      omega

/-! ### The members, one after the other -/

/-- Each field is aligned, and the cursor is at the end of the member before it, or less than its
alignment further on. -/
def StepsRight : (start cursor : ℕ) → List StructureField → Prop
  | _, _, [] => True
  | start, cursor, field :: rest =>
    (field.layout.align ∣ field.offset ∧ start ≤ cursor ∧ cursor < start + field.layout.align) ∧
      StepsRight (field.offset + field.layout.size) field.cursorAfter rest

/-- The end of the last member, and the cursor there. -/
def lastEnd : (start cursor : ℕ) → List StructureField → ℕ × ℕ
  | start, cursor, [] => (start, cursor)
  | _, _, field :: rest => lastEnd (field.offset + field.layout.size) field.cursorAfter rest

theorem roundUp_gap_iff {start cursor offset align : ℕ} (halign : 0 < align)
    (hcursor : cursor ≤ offset) : roundUp (start + (offset - cursor)) align = offset ↔
      align ∣ offset ∧ start ≤ cursor ∧ cursor < start + align := by
  rw [roundUp_eq_iff halign]
  constructor
  · rintro ⟨hdvd, hlow, hhigh⟩
    exact ⟨hdvd, by omega, by omega⟩
  · rintro ⟨hdvd, hlow, hhigh⟩
    exact ⟨hdvd, by omega, by omega⟩

section

variable {nested : Text → Member} {structSize : ℕ}

/-- The declarations that the loop writes. -/
def declarations (nested : Text → Member) (structSize cursor padIndex : ℕ)
    (fields : List StructureField) : List (Option ℕ × Member) :=
  (fieldLines structSize cursor padIndex fields).filterMap (StructLine.declared nested)

theorem declarations_omitted {cursor padIndex : ℕ} {field : StructureField}
    {rest : List StructureField} (h : field.offset < cursor) :
    declarations nested structSize cursor padIndex (field :: rest) =
      declarations nested structSize cursor padIndex rest := by
  rw [declarations, fieldLines, if_pos h, List.filterMap_cons_none rfl, declarations]

/-- A field that is kept is one declaration, behind its padding. -/
theorem declarations_kept {cursor padIndex : ℕ} {field : StructureField}
    {rest : List StructureField} (hplain : field.nestedStructure = []) (h : ¬field.offset < cursor) :
    declarations nested structSize cursor padIndex (field :: rest) =
        (some field.offset, field.layout) ::
          declarations nested structSize field.cursorAfter padIndex rest ∧ cursor = field.offset ∨
      declarations nested structSize cursor padIndex (field :: rest) =
        (none, ⟨field.offset - cursor, 1, one_pos⟩) :: (some field.offset, field.layout) ::
          declarations nested structSize field.cursorAfter (padIndex + 1) rest := by
  rw [← StructureField.layout_cppType hplain nested, declarations, fieldLines, if_neg h]
  dsimp only
  split
  · right
    rfl
  · left
    exact ⟨rfl, by omega⟩

theorem asCommented_none {start : ℕ} {placed : List (Option ℕ × ℕ)} :
    AsCommented ((none, start) :: placed) ↔ AsCommented placed := by
  simp [AsCommented]

theorem asCommented_some {commented start : ℕ} {placed : List (Option ℕ × ℕ)} :
    AsCommented ((some commented, start) :: placed) ↔ commented = start ∧ AsCommented placed := by
  simp [AsCommented]

/-- The comments are right exactly if every step is. -/
theorem asCommented_iff {fields : List StructureField}
    (hplain : ∀ field ∈ fields, field.nestedStructure = []) (start cursor padIndex : ℕ) :
    AsCommented (place start (declarations nested structSize cursor padIndex fields)) ↔
      StepsRight start cursor (kept cursor fields) := by
  induction fields generalizing start cursor padIndex with
  | nil =>
    rw [declarations, fieldLines, kept, StepsRight]
    split <;> simp [StructLine.declared, place, AsCommented]
  | cons field rest ih =>
    have hrest := ih fun other hother ↦ hplain other (List.mem_cons_of_mem _ hother)
    by_cases hskip : field.offset < cursor
    · rw [declarations_omitted hskip, kept, if_pos hskip]
      exact hrest start cursor padIndex
    · have hstep : roundUp (start + (field.offset - cursor)) field.layout.align = field.offset ↔ _ :=
        roundUp_gap_iff field.layout.align_pos (not_lt.mp hskip)
      rw [kept, if_neg hskip, StepsRight, ← hstep]
      rcases @declarations_kept nested structSize _ padIndex _ rest
          (hplain field List.mem_cons_self) hskip with ⟨hdeclared, hcursor⟩ | hdeclared
      · rw [hdeclared, place, asCommented_some, hcursor, Nat.sub_self, Nat.add_zero, eq_comm]
        refine and_congr_right fun hat ↦ ?_
        rw [hat]
        exact hrest _ _ _
      · rw [hdeclared, place, asCommented_none, place, asCommented_some, roundUp_one, eq_comm]
        refine and_congr_right fun hat ↦ ?_
        rw [hat]
        exact hrest _ _ _

/-- Where the steps are right the members end with the last one, and the padding behind it. -/
theorem endOf_declarations {fields : List StructureField}
    (hplain : ∀ field ∈ fields, field.nestedStructure = []) (start cursor padIndex : ℕ)
    (hsteps : StepsRight start cursor (kept cursor fields)) :
    endOf start (declarations nested structSize cursor padIndex fields) =
      (lastEnd start cursor (kept cursor fields)).1 +
        (structSize - (lastEnd start cursor (kept cursor fields)).2) := by
  induction fields generalizing start cursor padIndex with
  | nil =>
    rw [declarations, fieldLines, kept, lastEnd]
    split
    · simp [StructLine.declared, CppType.layout, endOf]
    · next h =>
      have hnone : structSize - cursor = 0 := by omega
      simp [endOf, hnone]
  | cons field rest ih =>
    have hrest := ih fun other hother ↦ hplain other (List.mem_cons_of_mem _ hother)
    by_cases hskip : field.offset < cursor
    · rw [kept, if_pos hskip] at hsteps ⊢
      rw [declarations_omitted hskip]
      exact hrest start cursor padIndex hsteps
    · rw [kept, if_neg hskip, StepsRight] at hsteps
      have hat := (roundUp_gap_iff field.layout.align_pos (not_lt.mp hskip)).mpr hsteps.1
      rw [kept, if_neg hskip, lastEnd]
      rcases @declarations_kept nested structSize _ padIndex _ rest
          (hplain field List.mem_cons_self) hskip with ⟨hdeclared, hcursor⟩ | hdeclared
      · rw [hcursor, Nat.sub_self, Nat.add_zero] at hat
        rw [hdeclared, endOf, hat]
        exact hrest _ _ _ hsteps.2
      · rw [hdeclared, endOf, roundUp_one, endOf, hat]
        exact hrest _ _ _ hsteps.2

theorem largestAlign_pos (fields : List StructureField) : 0 < largestAlign fields := by
  induction fields with
  | nil => exact one_pos
  | cons field rest ih => exact lt_max_of_lt_right ih

theorem maxAlign_declarations {fields : List StructureField}
    (hplain : ∀ field ∈ fields, field.nestedStructure = []) (cursor padIndex : ℕ) :
    maxAlign (declarations nested structSize cursor padIndex fields) =
      largestAlign (kept cursor fields) := by
  induction fields generalizing cursor padIndex with
  | nil =>
    rw [declarations, fieldLines, kept]
    split <;> rfl
  | cons field rest ih =>
    have hrest := ih fun other hother ↦ hplain other (List.mem_cons_of_mem _ hother)
    by_cases hskip : field.offset < cursor
    · rw [declarations_omitted hskip, kept, if_pos hskip]
      exact hrest cursor padIndex
    · rw [kept, if_neg hskip]
      have hcons : largestAlign (field :: kept field.cursorAfter rest) =
          max field.layout.align (largestAlign (kept field.cursorAfter rest)) := rfl
      rw [hcons]
      rcases @declarations_kept nested structSize _ padIndex _ rest
          (hplain field List.mem_cons_self) hskip with ⟨hdeclared, -⟩ | hdeclared
      · rw [hdeclared, maxAlign_cons, hrest]
      · rw [hdeclared, maxAlign_cons, maxAlign_cons, hrest]
        have hpos := field.layout.align_pos
        exact max_eq_right (le_max_of_le_left hpos)

theorem declarations_eq_nil_iff {fields : List StructureField}
    (hplain : ∀ field ∈ fields, field.nestedStructure = []) (cursor padIndex : ℕ) :
    declarations nested structSize cursor padIndex fields = [] ↔
      kept cursor fields = [] ∧ structSize ≤ cursor := by
  induction fields generalizing cursor padIndex with
  | nil =>
    rw [declarations, fieldLines, kept]
    split
    · next h => simp [StructLine.declared, h]
    · next h => simpa using h
  | cons field rest ih =>
    by_cases hskip : field.offset < cursor
    · rw [declarations_omitted hskip, kept, if_pos hskip]
      exact ih (fun other hother ↦ hplain other (List.mem_cons_of_mem _ hother)) cursor padIndex
    · rw [kept, if_neg hskip]
      rcases @declarations_kept nested structSize _ padIndex _ rest
          (hplain field List.mem_cons_self) hskip with ⟨hdeclared, -⟩ | hdeclared
      · simp [hdeclared]
      · simp [hdeclared]

end

/-! ### The agreement -/

theorem forall_mem_kept {p : StructureField → Prop} {fields : List StructureField}
    (h : ∀ field ∈ fields, p field) (cursor : ℕ) : ∀ field ∈ kept cursor fields, p field := by
  induction fields generalizing cursor with
  | nil => exact fun field hfield ↦ absurd hfield (List.not_mem_nil)
  | cons field rest ih =>
    have hrest := ih fun other hother ↦ h other (List.mem_cons_of_mem _ hother)
    rw [kept]
    split
    · exact hrest cursor
    · intro other hother
      rcases List.mem_cons.mp hother with rfl | hother
      · exact h other List.mem_cons_self
      · exact hrest _ other hother

/-- The steps are right from the first field on if the members are aligned and filled. -/
theorem stepsRight_iff {fields : List StructureField} (hsized : ∀ field ∈ fields, field.Sized)
    (start cursor : ℕ) : StepsRight start cursor fields ↔
      (∀ field ∈ fields, field.layout.align ∣ field.offset) ∧
        (fields.IsChain fun field next ↦ field.Fills next.layout.align) ∧
        ∀ field ∈ fields.head?, start ≤ cursor ∧ cursor < start + field.layout.align := by
  induction fields generalizing start cursor with
  | nil => simp [StepsRight]
  | cons field rest ih =>
    rw [StepsRight, ih fun other hother ↦ hsized other (List.mem_cons_of_mem _ hother)]
    have hchain : (field :: rest).IsChain (fun field next ↦ field.Fills next.layout.align) ↔
        (rest.IsChain fun field next ↦ field.Fills next.layout.align) ∧
          ∀ next ∈ rest.head?, field.Fills next.layout.align := by
      cases rest with
      | nil => simp
      | cons next rest => simp [List.isChain_cons_cons, and_comm]
    rw [hchain]
    simp only [StructureField.fills_iff (hsized field List.mem_cons_self), List.forall_mem_cons,
      List.head?_cons, Option.mem_some_iff, forall_eq']
    tauto

theorem lastEnd_eq (start cursor : ℕ) (fields : List StructureField) :
    lastEnd start cursor fields = match fields.getLast? with
      | none => (start, cursor)
      | some last => (last.offset + last.layout.size, last.cursorAfter) := by
  induction fields generalizing start cursor with
  | nil => rfl
  | cons field rest ih =>
    rw [lastEnd, ih, List.getLast?_cons]
    cases rest.getLast? <;> rfl

theorem mem_sorted {s : StructureDefinition} {field : StructureField} :
    field ∈ s.sorted ↔ field ∈ s.fields := List.mem_insertionSort _

/-- Where the comments are right, the size of the structure is. -/
theorem total_eq_iff {nested : Text → Member} {s : StructureDefinition}
    (hplain : ∀ field ∈ s.fields, field.nestedStructure = [])
    (hsized : ∀ field ∈ s.fields, field.Sized) (hsize : s.size < sizeModulus)
    (hsteps : StepsRight 0 0 s.emitted)
    (hfits : ∀ field ∈ s.fields, field.offset + field.fieldSize ≤ s.size) :
    total (s.lines.filterMap (StructLine.declared nested)) = s.size ↔
      0 < s.size ∧ largestAlign s.emitted ∣ s.size ∧
        ∀ field ∈ s.emitted.getLast?, field.Fills (largestAlign s.emitted) := by
  have hsorted : ∀ field ∈ s.sorted, field.nestedStructure = [] := fun field hfield ↦
    hplain field (mem_sorted.mp hfield)
  have hmem : ∀ field ∈ s.emitted, field ∈ s.fields :=
    forall_mem_kept (fun field hfield ↦ mem_sorted.mp hfield) 0
  have hdeclared : s.lines.filterMap (StructLine.declared nested) =
      declarations nested s.size 0 0 s.sorted := rfl
  have hend := @endOf_declarations nested s.size _ hsorted 0 0 0 hsteps
  have halign := @maxAlign_declarations nested s.size _ hsorted 0 0
  have hempty := @declarations_eq_nil_iff nested s.size _ hsorted 0 0
  rw [hdeclared]
  by_cases hzero : s.size = 0
  · have hnone : kept 0 s.sorted = [] := by
      refine List.eq_nil_iff_forall_not_mem.mpr fun field hfield ↦ ?_
      have hle := hfits field (hmem field hfield)
      have hpos := field.fieldSize_pos
      omega
    rw [total, hempty.mpr ⟨hnone, hzero.le⟩, hzero]
    constructor
    · intro h
      simp at h
    · rintro ⟨h, -⟩
      exact absurd h (lt_irrefl 0)
  · have hsome : ¬(declarations nested s.size 0 0 s.sorted).isEmpty = true := by
      rw [List.isEmpty_iff, hempty]
      rintro ⟨-, h⟩
      omega
    rw [total, if_neg hsome, halign, hend, roundUp_eq_iff (largestAlign_pos _)]
    change _ ∣ _ ∧ (lastEnd 0 0 s.emitted).1 + (s.size - (lastEnd 0 0 s.emitted).2) ≤ s.size ∧
      s.size < (lastEnd 0 0 s.emitted).1 + (s.size - (lastEnd 0 0 s.emitted).2) +
        largestAlign s.emitted ↔ _
    have hlarge := largestAlign_pos s.emitted
    rw [and_iff_right (show 0 < s.size by omega)]
    refine and_congr_right fun _ ↦ ?_
    rw [lastEnd_eq]
    cases hlast : s.emitted.getLast? with
    | none => simp [hlarge]
    | some last =>
      have hin := hmem last (List.mem_of_getLast? hlast)
      have hle := hfits last hin
      have hcursor := StructureField.cursorAfter_of_lt (hle.trans_lt hsize)
      simp only [Option.mem_some_iff, forall_eq', StructureField.fills_iff (hsized last hin)]
      omega

/-- A compiler lays the structure out as it was dissected exactly if every member is aligned and
filled. -/
theorem dissected_iff (nested : Text → Member) {s : StructureDefinition}
    (hplain : ∀ field ∈ s.fields, field.nestedStructure = [])
    (hsized : ∀ field ∈ s.fields, field.Sized) (hsize : s.size < sizeModulus) :
    Dissected nested s ↔ NaturalLayout s := by
  have hsorted : ∀ field ∈ s.sorted, field.nestedStructure = [] := fun field hfield ↦
    hplain field (mem_sorted.mp hfield)
  have hemitted : ∀ field ∈ s.emitted, field.Sized :=
    forall_mem_kept (fun field hfield ↦ hsized field (mem_sorted.mp hfield)) 0
  have hoffsets : AsCommented (place 0 (s.lines.filterMap (StructLine.declared nested))) ↔
      StepsRight 0 0 s.emitted := asCommented_iff hsorted 0 0 0
  have hsteps : StepsRight 0 0 s.emitted ↔
      (∀ field ∈ s.emitted, field.layout.align ∣ field.offset) ∧
        s.emitted.IsChain fun field next ↦ field.Fills next.layout.align := by
    rw [stepsRight_iff hemitted]
    refine and_congr_right fun _ ↦ and_iff_left fun field _ ↦ ?_
    exact ⟨le_rfl, by simpa using field.layout.align_pos⟩
  constructor
  · intro h
    have hright := hoffsets.mp h.offsets
    exact ⟨(hsteps.mp hright).1, (hsteps.mp hright).2, fun hfits ↦
      (total_eq_iff hplain hsized hsize hright hfits).mp (h.size hfits)⟩
  · intro h
    have hright := hsteps.mpr ⟨h.aligned, h.filled⟩
    exact ⟨hoffsets.mpr hright, fun hfits ↦
      (total_eq_iff hplain hsized hsize hright hfits).mpr (h.size hfits)⟩

/-- No nested structures are declared. -/
def noNested (_ : Text) : Member := ⟨1, 1, one_pos⟩

theorem dissected_iff_pair :
    let s : StructureDefinition :=
      ⟨"Player State".toList, 16, [⟨"target".toList, 8, .pointer, 8, []⟩,
        ⟨"health".toList, 0, .int32, 4, []⟩]⟩
    Dissected noNested s ↔ NaturalLayout s :=
  dissected_iff noNested (by decide) (by decide) (by decide)

/-- A number at offset one is laid out at offset four. -/
theorem unaligned_not_dissected : ¬Dissected noNested
    ⟨"Packed".toList, 5, [⟨"value".toList, 1, .int32, 4, []⟩]⟩ := by
  intro h
  have hplace := h.offsets (some 1, 4) (by decide) 1 rfl
  exact absurd hplace (by decide)

end Cecore.Analysis
