import Cecore.Library.CheckedBuffer

/-!
# IL2CPP metadata

`parseIl2CppMetadata` reads a `global-metadata.dat` that nobody vouches for: two pools of strings,
and for the versions it knows the tables of types, fields, methods and images. Every read is
checked against the buffer here, and every signed sum against 32 bits.
-/

set_option autoImplicit false
set_option relaxedAutoImplicit false

namespace Cecore.Analysis

open Library.CheckedBuffer

/-! ### The parser -/

namespace Il2Cpp

def kIl2CppMagic : ℕ := 0xFAB11BAF

def kOffSanity : ℤ := 0
def kOffVersion : ℤ := 4
def kOffStrLit : ℤ := 8
def kOffStrLitSize : ℤ := 12
def kOffStrLitData : ℤ := 16
def kOffStrLitDataSize : ℤ := 20
def kOffString : ℤ := 24
def kOffStringSize : ℤ := 28
def kMinHeader : ℕ := 32

def kOffMethods : ℤ := 0x30
def kOffFields : ℤ := 0x60
def kOffTypeDefs : ℤ := 0xA0
def kOffImages : ℤ := 0xA8
def kTableHeaderEnd : ℕ := 0xB0

structure TableLayout where
  typeDefSize : ℕ
  tdNameOff : ℕ
  tdNamespaceOff : ℕ
  tdFieldStartOff : ℕ
  tdFieldCountOff : ℕ
  tdMethodStartOff : ℕ
  tdMethodCountOff : ℕ
  tdTokenOff : ℕ
  tdParentOff : ℕ
  imageSize : ℕ
  imgNameOff : ℕ
  imgTypeStartOff : ℕ
  imgTypeCountOff : ℕ
  deriving DecidableEq, Repr

def kFieldRecSize : ℕ := 12
def kFieldNameOff : ℕ := 0
def kFieldTypeOff : ℕ := 4
def kFieldTokenOff : ℕ := 8

def kLayoutByrefless : TableLayout where
  typeDefSize := 0x58
  tdNameOff := 0x00
  tdNamespaceOff := 0x04
  tdFieldStartOff := 0x20
  tdFieldCountOff := 0x44
  tdMethodStartOff := 0x24
  tdMethodCountOff := 0x40
  tdTokenOff := 0x54
  tdParentOff := 0x10
  imageSize := 0x28
  imgNameOff := 0x00
  imgTypeStartOff := 0x08
  imgTypeCountOff := 0x0C

def layoutFor (version : ℤ) : Option TableLayout :=
  if version = 27 ∨ version = 28 ∨ version = 29 ∨ version = 30 ∨ version = 31 then
    some kLayoutByrefless
  else none

structure FieldDef where
  name : List UInt8
  typeIndex : ℤ
  token : ℕ
  deriving DecidableEq, Repr

structure MethodDef where
  name : List UInt8
  token : ℕ
  deriving DecidableEq, Repr

structure TypeDef where
  name : List UInt8
  namespaceName : List UInt8
  fields : List FieldDef := []
  methods : List MethodDef := []
  token : ℕ
  parentTypeIndex : ℤ
  deriving DecidableEq, Repr

structure ImageDef where
  name : List UInt8
  typeStart : ℕ := 0
  typeCount : ℕ := 0
  deriving DecidableEq, Repr

structure Metadata where
  version : ℤ
  strings : List (List UInt8)
  stringLiterals : List (List UInt8)
  tablesDecoded : Bool := false
  types : List TypeDef := []
  images : List ImageDef := []
  deriving DecidableEq, Repr

/-- `[off, off + size)` lies in the buffer. -/
def regionValid (off size : ℤ) (total : ℕ) : Bool :=
  0 ≤ off && 0 ≤ size && off + size ≤ total

/-- A value of `int32_t`. -/
def FitsI32 (x : ℤ) : Prop := -2 ^ 31 ≤ x ∧ x < 2 ^ 31

instance (x : ℤ) : Decidable (FitsI32 x) := inferInstanceAs (Decidable (_ ∧ _))

/-- `strnlen`. -/
def strnlen (b : Buffer) : (position : ℤ) → (maxLen : ℕ) → Checked ℕ
  | _, 0 => pure 0
  | position, maxLen + 1 => do
    let c ← b.readNat 1 position
    if c = 0 then pure 0
    else do
      let len ← strnlen b (position + 1) maxLen
      pure (len + 1)

def stringAt (b : Buffer) (strOff strSize idx : ℤ) : Checked (List UInt8) :=
  if idx < 0 ∨ strSize ≤ idx then pure []
  else do
    let len ← strnlen b (strOff + idx) (strSize - idx).toNat
    b.read (strOff + idx) len

/-- The loop over the identifiers, from `i` on: an unterminated tail is the last. -/
def stringPool (b : Buffer) (strOff strSize i : ℤ) : Checked (List (List UInt8)) :=
  if _h : i < strSize then do
    let maxLen := (strSize - i).toNat
    let len ← strnlen b (strOff + i) maxLen
    let s ← b.read (strOff + i) len
    if len = maxLen then pure [s]
    else if FitsI32 (len + 1) ∧ FitsI32 (i + (len + 1)) then do
      let rest ← stringPool b strOff strSize (i + (len + 1))
      pure (s :: rest)
    else throw .overflow
  else pure []
termination_by (strSize - i).toNat
decreasing_by omega

/-- An entry of the literal table, none where it is malformed. -/
def literalAt (b : Buffer) (litOff litDataOff litDataSize i : ℤ) : Checked (Option (List UInt8)) := do
  let length ← b.readNat 4 (litOff + i)
  let dataIndex ← b.readInt 4 (litOff + i + 4)
  if dataIndex < 0 ∨ litDataSize < dataIndex + length then pure none
  else do
    let s ← b.read (litDataOff + dataIndex) length
    pure (some s)

/-- The loop over the literals: `i + 8 <= litSize; i += 8`. -/
def literalPool (b : Buffer) (litOff litSize litDataOff litDataSize i : ℤ) :
    Checked (List (List UInt8)) :=
  if ¬FitsI32 (i + 8) then throw .overflow
  else if _h : i + 8 ≤ litSize then do
    let entry ← literalAt b litOff litDataOff litDataSize i
    let rest ← literalPool b litOff litSize litDataOff litDataSize (i + 8)
    pure (entry.toList ++ rest)
  else pure []
termination_by (litSize - i).toNat
decreasing_by omega

/-- Record `k` of the field table. -/
def fieldRecord (b : Buffer) (strOff strSize fieldsOff : ℤ) (k : ℕ) : Checked FieldDef := do
  let rec_ := fieldsOff + (k * kFieldRecSize : ℕ)
  let nameIndex ← b.readInt 4 (rec_ + kFieldNameOff)
  let name ← stringAt b strOff strSize nameIndex
  let typeIndex ← b.readInt 4 (rec_ + kFieldTypeOff)
  let token ← b.readNat 4 (rec_ + kFieldTokenOff)
  pure { name, typeIndex, token }

/-- Record `k` of the type table, with its stretch of the fields, if that is one. -/
def typeRecord (b : Buffer) (L : TableLayout) (strOff strSize tdOff : ℤ) (allFields : List FieldDef)
    (k : ℕ) : Checked TypeDef := do
  let rec_ := tdOff + (k * L.typeDefSize : ℕ)
  let nameIndex ← b.readInt 4 (rec_ + L.tdNameOff)
  let name ← stringAt b strOff strSize nameIndex
  let namespaceIndex ← b.readInt 4 (rec_ + L.tdNamespaceOff)
  let namespaceName ← stringAt b strOff strSize namespaceIndex
  let token ← b.readNat 4 (rec_ + L.tdTokenOff)
  let parentTypeIndex ← b.readInt 4 (rec_ + L.tdParentOff)
  let fieldStart ← b.readInt 4 (rec_ + L.tdFieldStartOff)
  let fieldCount ← b.readNat 2 (rec_ + L.tdFieldCountOff)
  let fields := if 0 ≤ fieldStart ∧ fieldStart + fieldCount ≤ allFields.length then
    (allFields.drop fieldStart.toNat).take fieldCount else []
  pure { name, namespaceName, fields, token, parentTypeIndex }

/-- Record `k` of the image table: a stretch of types, if that is one. -/
def imageRecord (b : Buffer) (L : TableLayout) (strOff strSize imgOff : ℤ) (nTypes k : ℕ) :
    Checked ImageDef := do
  let rec_ := imgOff + (k * L.imageSize : ℕ)
  let nameIndex ← b.readInt 4 (rec_ + L.imgNameOff)
  let name ← stringAt b strOff strSize nameIndex
  let typeStart ← b.readNat 4 (rec_ + L.imgTypeStartOff)
  let typeCount ← b.readNat 4 (rec_ + L.imgTypeCountOff)
  pure (if typeStart + typeCount ≤ nTypes then { name, typeStart, typeCount } else { name })

/-- The token of a method definition in the first record, at a multiple of four. -/
def findToken (b : Buffer) (mOff : ℤ) (recSize o : ℕ) : Checked (Option ℕ) :=
  if _h : 8 ≤ recSize ∧ o + 4 ≤ recSize then do
    let v ← b.readNat 4 (mOff + o)
    if v >>> 24 = 0x06 ∧ v &&& 0xFFFFFF ≠ 0 then pure (some o)
    else findToken b mOff recSize (o + 4)
  else pure none
termination_by recSize - o
decreasing_by omega

/-- Record `n` of the method table. -/
def methodRecord (b : Buffer) (strOff strSize mOff : ℤ) (recSize tokenOff n : ℕ) :
    Checked MethodDef := do
  let mrec := mOff + (n * recSize : ℕ)
  let nameIndex ← b.readInt 4 mrec
  let name ← stringAt b strOff strSize nameIndex
  let token ← b.readNat 4 (mrec + tokenOff)
  pure { name, token }

/-- The methods of type `k`, if they are a stretch of the table. -/
def methodsOfType (b : Buffer) (L : TableLayout) (strOff strSize tdOff mOff : ℤ)
    (totalMethods recSize tokenOff k : ℕ) : Checked (List MethodDef) := do
  let trec := tdOff + (k * L.typeDefSize : ℕ)
  let mStart ← b.readInt 4 (trec + L.tdMethodStartOff)
  let mCount ← b.readNat 2 (trec + L.tdMethodCountOff)
  if mStart < 0 ∨ totalMethods < mStart + mCount then pure []
  else
    (List.range' mStart.toNat mCount).mapM
      (methodRecord b strOff strSize mOff recSize tokenOff)

/-- The sum of the counts that stand in the records of a table, as `uint64_t`. -/
def sumCounts (b : Buffer) (width : ℕ) (off : ℤ) (recordSize countOff n : ℕ) : Checked ℕ :=
  (List.range n).foldlM (fun total k ↦ do
    let count ← b.readNat width (off + (k * recordSize : ℕ) + countOff)
    pure ((total + count) % 2 ^ 64)) 0

/-- The methods of every type; none without a method table that can be made out. -/
def methodTable (b : Buffer) (L : TableLayout) (strOff strSize tdOff : ℤ) (nTypes : ℕ) :
    Checked (List (List MethodDef)) :=
  if b.size < 0x38 then pure (List.replicate nTypes [])
  else do
    let mOff ← b.readInt 4 kOffMethods
    let mSize ← b.readInt 4 (kOffMethods + 4)
    if !regionValid mOff mSize b.size || mSize ≤ 0 then pure (List.replicate nTypes [])
    else do
      let totalMethods ← sumCounts b 2 tdOff L.typeDefSize L.tdMethodCountOff nTypes
      if totalMethods = 0 ∨ mSize.toNat % totalMethods ≠ 0 then pure (List.replicate nTypes [])
      else do
        let recSize := mSize.toNat / totalMethods
        match ← findToken b mOff recSize 0 with
        | none => pure (List.replicate nTypes [])
        | some tokenOff =>
          (List.range nTypes).mapM
            (methodsOfType b L strOff strSize tdOff mOff totalMethods recSize tokenOff)

/-- `md.types.max_size()`, of records of 120 bytes: `reserve` throws for more. -/
def maxTypes : ℕ := (2 ^ 63 - 1) / 120

/-- `decodeTables` from the regions on: the sizes of the tables have to agree. -/
def decodeRecords (b : Buffer) (L : TableLayout)
    (strOff strSize fieldsOff fieldsSize tdOff tdSize imgOff imgSize : ℤ) :
    Checked (Option (List TypeDef × List ImageDef)) := do
  let nImages := imgSize.toNat / L.imageSize
  let totalTypes ← sumCounts b 4 imgOff L.imageSize L.imgTypeCountOff nImages
  if totalTypes = 0 then pure none
  else if tdSize.toNat ≠ totalTypes * L.typeDefSize % 2 ^ 64 then pure none
  else do
    let nFields := fieldsSize.toNat / kFieldRecSize
    let allFields ← (List.range nFields).mapM (fieldRecord b strOff strSize fieldsOff)
    if maxTypes < totalTypes then throw .thrown
    else do
      let types ← (List.range totalTypes).mapM (typeRecord b L strOff strSize tdOff allFields)
      let methods ← methodTable b L strOff strSize tdOff totalTypes
      let images ← (List.range nImages).mapM (imageRecord b L strOff strSize imgOff totalTypes)
      pure (some (types.zipWith (fun t methods ↦ { t with methods }) methods, images))

/-- `decodeTables`: the types and the images, or none where it returns false. -/
def decodeTables (b : Buffer) (version strOff strSize : ℤ) :
    Checked (Option (List TypeDef × List ImageDef)) :=
  match layoutFor version with
  | none => pure none
  | some L =>
    if b.size < kTableHeaderEnd then pure none
    else do
      let fieldsOff ← b.readInt 4 kOffFields
      let fieldsSize ← b.readInt 4 (kOffFields + 4)
      let tdOff ← b.readInt 4 kOffTypeDefs
      let tdSize ← b.readInt 4 (kOffTypeDefs + 4)
      let imgOff ← b.readInt 4 kOffImages
      let imgSize ← b.readInt 4 (kOffImages + 4)
      if !regionValid fieldsOff fieldsSize b.size || !regionValid tdOff tdSize b.size ||
          !regionValid imgOff imgSize b.size then pure none
      else decodeRecords b L strOff strSize fieldsOff fieldsSize tdOff tdSize imgOff imgSize

/-- `parseIl2CppMetadata` from the tables on, which may fail without harm. -/
def withTables (b : Buffer) (md : Metadata) (strOff strSize : ℤ) : Checked (Option Metadata) := do
  match ← decodeTables b md.version strOff strSize with
  | none => pure (some md)
  | some (types, images) => pure (some { md with tablesDecoded := true, types, images })

/-- `parseIl2CppMetadata`. -/
def parseIl2CppMetadata (b : Buffer) : Checked (Option Metadata) :=
  if b.size < kMinHeader then pure none
  else do
    let sanity ← b.readNat 4 kOffSanity
    if sanity ≠ kIl2CppMagic then pure none
    else do
      let version ← b.readInt 4 kOffVersion
      let strOff ← b.readInt 4 kOffString
      let strSize ← b.readInt 4 kOffStringSize
      if !regionValid strOff strSize b.size then pure none
      else do
        let strings ← stringPool b strOff strSize 0
        let litOff ← b.readInt 4 kOffStrLit
        let litSize ← b.readInt 4 kOffStrLitSize
        let litDataOff ← b.readInt 4 kOffStrLitData
        let litDataSize ← b.readInt 4 kOffStrLitDataSize
        if regionValid litOff litSize b.size && regionValid litDataOff litDataSize b.size then do
          let stringLiterals ← literalPool b litOff litSize litDataOff litDataSize 0
          withTables b { version, strings, stringLiterals } strOff strSize
        else withTables b { version, strings, stringLiterals := [] } strOff strSize

end Il2Cpp

/-! ### Strings -/

namespace Il2Cpp

variable {b : Buffer}

/-- A stretch of the buffer, by offset and size. -/
def Inside (b : Buffer) (off size : ℤ) : Prop := 0 ≤ off ∧ 0 ≤ size ∧ off + size ≤ b.size

instance (b : Buffer) (off size : ℤ) : Decidable (Inside b off size) :=
  inferInstanceAs (Decidable (_ ∧ _))

theorem regionValid_iff {off size : ℤ} : regionValid off size b.size = true ↔ Inside b off size := by
  simp only [regionValid, Inside, Bool.and_eq_true, decide_eq_true_iff, and_assoc]

/-- A field of the header. -/
def header (b : Buffer) (off : ℤ) : ℤ := b.int 4 off.toNat

theorem readHeader_ok {off : ℤ} (hlow : 0 ≤ off) (hhigh : off + 4 ≤ b.size) :
    b.readInt 4 off = .ok (header b off) := Buffer.readInt_ok hlow hhigh

theorem header_fits (b : Buffer) (off : ℤ) : FitsI32 (header b off) := by
  have h : b.nat 4 off.toNat < 256 ^ 4 := Buffer.nat_lt _ _
  rw [FitsI32, header, Buffer.int, Library.LittleEndian.signedOf]
  split <;> omega

theorem strnlen_runs {position : ℤ} {maxLen : ℕ} (hlow : 0 ≤ position)
    (hhigh : position + maxLen ≤ b.size) : Runs (strnlen b position maxLen) (· ≤ maxLen) := by
  induction maxLen generalizing position with
  | zero => exact .ret le_rfl
  | succ maxLen ih =>
    rw [strnlen, Buffer.readNat_ok hlow (by push_cast at hhigh ⊢; omega), ok_bind]
    split
    · exact .ret (Nat.zero_le _)
    · refine (ih (by omega) (by push_cast at hhigh; omega)).bind fun len hlen ↦ ?_
      exact .ret (Nat.succ_le_succ hlen)

theorem stringAt_runs {strOff strSize : ℤ} (hregion : Inside b strOff strSize) (idx : ℤ) :
    Runs (stringAt b strOff strSize idx) fun _ ↦ True := by
  obtain ⟨hoff, -, hend⟩ := hregion
  rw [stringAt]
  split
  · exact .ret trivial
  · next hin =>
    obtain ⟨hlow, hhigh⟩ := not_or.mp hin
    refine (strnlen_runs (by omega) (by omega)).bind fun len hlen ↦ ?_
    rw [Buffer.read_ok (by omega) (by omega)]
    exact ⟨_, rfl, trivial⟩

theorem stringPool_runs {strOff strSize : ℤ} (hregion : Inside b strOff strSize)
    (hsize : FitsI32 strSize) {i : ℤ} (hi : 0 ≤ i) :
    Runs (stringPool b strOff strSize i) fun _ ↦ True := by
  obtain ⟨hoff, hpos, hend⟩ := hregion
  induction hn : (strSize - i).toNat using Nat.strong_induction_on generalizing i with
  | h n ih =>
    rw [stringPool]
    split
    · next hlt =>
      refine (strnlen_runs (by omega) (by omega)).bind fun len hlen ↦ ?_
      rw [Buffer.read_ok (by omega) (by omega), ok_bind]
      split
      · exact .ret trivial
      · next hshort =>
        have hnext : i + (len + 1) ≤ strSize := by omega
        have hfits : FitsI32 (len + 1) ∧ FitsI32 (i + (len + 1)) := by
          obtain ⟨-, hmax⟩ := hsize
          exact ⟨⟨by omega, by omega⟩, by omega, by omega⟩
        rw [if_pos hfits]
        refine (@ih (strSize - (i + (len + 1))).toNat (by omega) (i + (len + 1)) (by omega) rfl).bind
          fun rest _ ↦ ?_
        exact .ret trivial
    · exact .ret trivial

theorem literalAt_runs {litOff litSize litDataOff litDataSize i : ℤ}
    (hregion : Inside b litOff litSize) (hdata : Inside b litDataOff litDataSize) (hi : 0 ≤ i)
    (hroom : i + 8 ≤ litSize) : Runs (literalAt b litOff litDataOff litDataSize i) fun _ ↦ True := by
  obtain ⟨hoff, -, hend⟩ := hregion
  obtain ⟨hdataOff, -, hdataEnd⟩ := hdata
  rw [literalAt, Buffer.readNat_ok (by omega) (by push_cast; omega), ok_bind]
  rw [Buffer.readInt_ok (by omega) (by push_cast; omega), ok_bind]
  split
  · exact .ret trivial
  · next hin =>
    obtain ⟨hlow, hhigh⟩ := not_or.mp hin
    rw [Buffer.read_ok (by omega) (by omega)]
    exact ⟨_, rfl, trivial⟩

theorem literalPool_runs {litOff litSize litDataOff litDataSize i : ℤ}
    (hregion : Inside b litOff litSize) (hdata : Inside b litDataOff litDataSize)
    (hsize : litSize < 2 ^ 31 - 8) (hi : 0 ≤ i) (hle : i ≤ litSize) :
    Runs (literalPool b litOff litSize litDataOff litDataSize i) fun _ ↦ True := by
  induction hn : (litSize - i).toNat using Nat.strong_induction_on generalizing i with
  | h n ih =>
    have hfits : FitsI32 (i + 8) := ⟨by omega, by omega⟩
    rw [literalPool, if_neg (not_not.mpr hfits)]
    split
    · next hroom =>
      refine (literalAt_runs hregion hdata hi hroom).bind fun entry _ ↦ ?_
      refine (@ih (litSize - (i + 8)).toNat (by omega) (i + 8) (by omega) hroom rfl).bind
        fun rest _ ↦ ?_
      exact .ret trivial
    · exact .ret trivial

/-- A literal table that reaches within eight of the largest number: the loop does not stop in
front of it. -/
theorem literalPool_overflow {litOff litSize litDataOff litDataSize : ℤ}
    (hregion : Inside b litOff litSize) (hdata : Inside b litDataOff litDataSize)
    (hsize : 2 ^ 31 - 8 ≤ litSize) (left : ℕ) {i : ℤ} (hi : i = 2 ^ 31 - 8 - 8 * left)
    (hnonneg : 0 ≤ i) : literalPool b litOff litSize litDataOff litDataSize i = .error .overflow := by
  induction left generalizing i with
  | zero =>
    have hlarge : ¬FitsI32 (i + 8) := by
      rintro ⟨-, hlt⟩
      omega
    rw [literalPool, if_pos hlarge]
    rfl
  | succ left ih =>
    have hfits : FitsI32 (i + 8) := ⟨by omega, by push_cast at hi; omega⟩
    have hroom : i + 8 ≤ litSize := by push_cast at hi; omega
    rw [literalPool, if_neg (not_not.mpr hfits), dif_pos hroom]
    obtain ⟨entry, hentry, -⟩ := literalAt_runs hregion hdata hnonneg hroom
    rw [hentry, @ih (i + 8) (by push_cast at hi; omega) (by omega)]
    rfl

/-! ### Tables -/

/-- A number in record `k` of a table that holds that record. -/
theorem readNat_record {off size : ℤ} (hregion : Inside b off size) {k recordSize width : ℕ}
    (hk : ((k + 1) * recordSize : ℕ) ≤ size) {place : ℕ} (hplace : place + width ≤ recordSize) :
    b.readNat width (off + (k * recordSize : ℕ) + place) =
      .ok (b.nat width (off + (k * recordSize : ℕ) + place).toNat) := by
  obtain ⟨hoff, -, hend⟩ := hregion
  rw [Nat.succ_mul] at hk
  exact Buffer.readNat_ok (by omega) (by omega)

theorem readInt_record {off size : ℤ} (hregion : Inside b off size) {k recordSize width : ℕ}
    (hk : ((k + 1) * recordSize : ℕ) ≤ size) {place : ℕ} (hplace : place + width ≤ recordSize) :
    b.readInt width (off + (k * recordSize : ℕ) + place) =
      .ok (b.int width (off + (k * recordSize : ℕ) + place).toNat) := by
  obtain ⟨hoff, -, hend⟩ := hregion
  rw [Nat.succ_mul] at hk
  exact Buffer.readInt_ok (by omega) (by omega)

/-- The records in front of the end of a table are in it. -/
theorem record_le {k n recordSize : ℕ} {size : ℤ} (hk : k < n)
    (hn : ((n * recordSize : ℕ) : ℤ) ≤ size) : (((k + 1) * recordSize : ℕ) : ℤ) ≤ size := by
  have hle : (k + 1) * recordSize ≤ n * recordSize := Nat.mul_le_mul_right _ hk
  exact le_trans (by exact_mod_cast hle) hn

theorem sumCounts_runs {off size : ℤ} (hregion : Inside b off size) {width recordSize countOff n : ℕ}
    (hn : (n * recordSize : ℕ) ≤ size) (hcount : countOff + width ≤ recordSize) :
    Runs (sumCounts b width off recordSize countOff n) fun _ ↦ True := by
  refine runs_foldlM trivial fun k hk total _ ↦ ?_
  rw [readNat_record hregion (record_le (List.mem_range.mp hk) hn) hcount]
  exact ⟨_, rfl, trivial⟩

variable {strOff strSize : ℤ} (hstrings : Inside b strOff strSize)

include hstrings

theorem fieldRecord_runs {off size : ℤ} (hregion : Inside b off size) {k : ℕ}
    (hk : ((k + 1) * kFieldRecSize : ℕ) ≤ size) :
    Runs (fieldRecord b strOff strSize off k) fun _ ↦ True := by
  rw [fieldRecord]
  rw [readInt_record hregion hk (by decide), ok_bind]
  refine (stringAt_runs hstrings _).bind fun name _ ↦ ?_
  rw [readInt_record hregion hk (by decide), readNat_record hregion hk (by decide)]
  exact ⟨_, rfl, trivial⟩

/-- A type has a stretch of the fields, which may be none of them. -/
theorem typeRecord_runs {off size : ℤ} (hregion : Inside b off size) {k : ℕ}
    (hk : ((k + 1) * kLayoutByrefless.typeDefSize : ℕ) ≤ size) (allFields : List FieldDef) :
    Runs (typeRecord b kLayoutByrefless strOff strSize off allFields k) fun t ↦
      ∃ start count, start + count ≤ allFields.length ∧
        t.fields = (allFields.drop start).take count := by
  rw [typeRecord]
  dsimp only
  rw [readInt_record hregion hk (by decide), ok_bind]
  refine (stringAt_runs hstrings _).bind fun name _ ↦ ?_
  rw [readInt_record hregion hk (by decide), ok_bind]
  refine (stringAt_runs hstrings _).bind fun namespaceName _ ↦ ?_
  rw [readNat_record hregion hk (by decide), readInt_record hregion hk (by decide),
    readInt_record hregion hk (by decide), readNat_record hregion hk (by decide)]
  refine .ret ?_
  dsimp only
  split
  · next h => exact ⟨_, _, by omega, rfl⟩
  · exact ⟨0, 0, Nat.zero_le _, by simp⟩

theorem imageRecord_runs {off size : ℤ} (hregion : Inside b off size) {k : ℕ}
    (hk : ((k + 1) * kLayoutByrefless.imageSize : ℕ) ≤ size) (nTypes : ℕ) :
    Runs (imageRecord b kLayoutByrefless strOff strSize off nTypes k) fun image ↦
      image.typeStart + image.typeCount ≤ nTypes := by
  rw [imageRecord]
  rw [readInt_record hregion hk (by decide), ok_bind]
  refine (stringAt_runs hstrings _).bind fun name _ ↦ ?_
  rw [readNat_record hregion hk (by decide), readNat_record hregion hk (by decide)]
  refine .ret ?_
  split
  · next h => exact h
  · exact Nat.zero_le _

omit hstrings in
/-- The token that is found lies in the record. -/
theorem findToken_runs {mOff mSize : ℤ} (hregion : Inside b mOff mSize) {recSize : ℕ}
    (hrecord : (recSize : ℤ) ≤ mSize) (o : ℕ) :
    Runs (findToken b mOff recSize o) fun found ↦ ∀ tokenOff ∈ found,
      8 ≤ recSize ∧ tokenOff + 4 ≤ recSize := by
  induction hn : recSize - o using Nat.strong_induction_on generalizing o with
  | h n ih =>
    rw [findToken]
    split
    · next hin =>
      obtain ⟨hoff, -, hend⟩ := hregion
      rw [Buffer.readNat_ok (by omega) (by push_cast; omega), ok_bind]
      split
      · refine .ret ?_
        rintro tokenOff ⟨⟩
        exact hin
      · exact ih (recSize - (o + 4)) (by omega) (o + 4) rfl
    · refine .ret ?_
      rintro tokenOff ⟨⟩

theorem methodRecord_runs {mOff mSize : ℤ} (hregion : Inside b mOff mSize)
    {n recSize tokenOff : ℕ} (hn : ((n + 1) * recSize : ℕ) ≤ mSize) (hsize : 8 ≤ recSize)
    (htoken : tokenOff + 4 ≤ recSize) :
    Runs (methodRecord b strOff strSize mOff recSize tokenOff n) fun _ ↦ True := by
  have hname := readInt_record hregion hn (show 0 + 4 ≤ recSize by omega)
  rw [Nat.cast_zero, add_zero] at hname
  rw [methodRecord, hname, ok_bind]
  refine (stringAt_runs hstrings _).bind fun name _ ↦ ?_
  rw [readNat_record hregion hn htoken]
  exact ⟨_, rfl, trivial⟩

/-- The methods are consecutive records of a table. -/
def MethodStretch (b : Buffer) (strOff strSize mOff : ℤ) (total recSize tokenOff : ℕ)
    (methods : List MethodDef) : Prop :=
  ∃ start count, start + count ≤ total ∧
    (List.range' start count).mapM (methodRecord b strOff strSize mOff recSize tokenOff) = .ok methods

omit hstrings in
theorem methodStretch_nil (mOff : ℤ) (total recSize tokenOff : ℕ) :
    MethodStretch b strOff strSize mOff total recSize tokenOff [] :=
  ⟨0, 0, Nat.zero_le _, rfl⟩

theorem methodsOfType_runs {tdOff tdSize mOff mSize : ℤ} (htypes : Inside b tdOff tdSize)
    (hmethods : Inside b mOff mSize) {k total recSize tokenOff : ℕ}
    (hk : ((k + 1) * kLayoutByrefless.typeDefSize : ℕ) ≤ tdSize)
    (htotal : ((total * recSize : ℕ) : ℤ) ≤ mSize) (hsize : 8 ≤ recSize)
    (htoken : tokenOff + 4 ≤ recSize) :
    Runs (methodsOfType b kLayoutByrefless strOff strSize tdOff mOff total recSize tokenOff k)
      (MethodStretch b strOff strSize mOff total recSize tokenOff) := by
  have hstart := readInt_record htypes hk (show kLayoutByrefless.tdMethodStartOff + 4 ≤ _ by decide)
  have hcount := readNat_record htypes hk (show kLayoutByrefless.tdMethodCountOff + 2 ≤ _ by decide)
  generalize b.int 4 _ = mStart at hstart
  generalize b.nat 2 _ = mCount at hcount
  rw [methodsOfType, hstart, ok_bind, hcount, ok_bind]
  split
  · exact .ret (methodStretch_nil ..)
  · next hin =>
    obtain ⟨hlow, hhigh⟩ := not_or.mp hin
    have hle : mStart.toNat + mCount ≤ total := by omega
    obtain ⟨methods, hresult, -⟩ := @runs_mapM _ _ (methodRecord b strOff strSize mOff recSize tokenOff)
      (List.range' mStart.toNat mCount) (fun _ _ ↦ True) fun n hn ↦ by
        obtain ⟨-, hlt⟩ := List.mem_range'_1.mp hn
        exact methodRecord_runs hstrings hmethods (record_le (by omega) htotal) hsize htoken
    exact ⟨methods, hresult, _, _, hle, hresult⟩

/-- Every type has consecutive records of one table. -/
theorem methodTable_runs {tdOff tdSize : ℤ} (htypes : Inside b tdOff tdSize) {nTypes : ℕ}
    (hsize : ((nTypes * kLayoutByrefless.typeDefSize : ℕ) : ℤ) ≤ tdSize) :
    Runs (methodTable b kLayoutByrefless strOff strSize tdOff nTypes) fun tables ↦
      tables.length = nTypes ∧ ∃ total recSize tokenOff,
        ((total * recSize : ℕ) : ℤ) ≤ max 0 (header b (kOffMethods + 4)) ∧ ∀ methods ∈ tables,
          MethodStretch b strOff strSize (header b kOffMethods) total recSize tokenOff methods := by
  have hnone : Runs (pure (List.replicate nTypes [])) fun tables : List (List MethodDef) ↦
      tables.length = nTypes ∧ ∃ total recSize tokenOff,
        ((total * recSize : ℕ) : ℤ) ≤ max 0 (header b (kOffMethods + 4)) ∧ ∀ methods ∈ tables,
          MethodStretch b strOff strSize (header b kOffMethods) total recSize tokenOff methods := by
    refine .ret ⟨List.length_replicate, 0, 0, 0, by simp, ?_⟩
    intro methods hmethods
    rw [List.eq_of_mem_replicate hmethods]
    exact methodStretch_nil ..
  rw [methodTable]
  split
  · exact hnone
  · next hlong =>
    rw [readHeader_ok (by decide) (by rw [kOffMethods]; omega), ok_bind]
    rw [readHeader_ok (by decide) (by rw [kOffMethods]; omega), ok_bind]
    split
    · exact hnone
    · next hvalid =>
      rw [Bool.not_eq_true, Bool.or_eq_false_iff, Bool.not_eq_false', decide_eq_false_iff_not,
        regionValid_iff] at hvalid
      obtain ⟨hmethods, hpos⟩ := hvalid
      refine (sumCounts_runs htypes hsize (by decide)).bind fun total _ ↦ ?_
      dsimp only
      split
      · exact hnone
      · next hdivides =>
        have hmod : (header b (kOffMethods + 4)).toNat % total = 0 :=
          not_not.mp (not_or.mp hdivides).2
        have hexact := Nat.div_add_mod' (header b (kOffMethods + 4)).toNat total
        rw [hmod, add_zero, mul_comm] at hexact
        have hrecord : (header b (kOffMethods + 4)).toNat / total ≤
            (header b (kOffMethods + 4)).toNat := Nat.div_le_self _ _
        refine (findToken_runs hmethods (by omega) 0).bind fun found hfound ↦ ?_
        cases found with
        | none => exact hnone
        | some tokenOff =>
          obtain ⟨height, hinside⟩ := hfound tokenOff rfl
          dsimp only
          refine (runs_mapM fun k hk ↦ methodsOfType_runs hstrings htypes hmethods ?_ ?_ height
            hinside).mono fun tables htables ↦ ?_
          · exact record_le (List.mem_range.mp hk) hsize
          · omega
          · refine ⟨?_, total, (header b (kOffMethods + 4)).toNat / total, tokenOff, by omega, ?_⟩
            · rw [← htables.length_eq, List.length_range]
            · intro methods hmem
              obtain ⟨k, -, hk⟩ := exists_of_mem_results htables hmem
              exact hk

omit hstrings

/-- The tables of a result: each type has consecutive records of the field table and of the method
table, and each image consecutive types. -/
structure TablesWellFormed (b : Buffer) (strOff strSize fieldsOff fieldsSize : ℤ)
    (types : List TypeDef) (images : List ImageDef) : Prop where
  fields : ∀ t ∈ types, ∃ start count, start + count ≤ fieldsSize.toNat / kFieldRecSize ∧
    (List.range' start count).mapM (fieldRecord b strOff strSize fieldsOff) = .ok t.fields
  methods : ∃ total recSize tokenOff,
    ((total * recSize : ℕ) : ℤ) ≤ max 0 (header b (kOffMethods + 4)) ∧ ∀ t ∈ types,
      MethodStretch b strOff strSize (header b kOffMethods) total recSize tokenOff t.methods
  images : ∀ image ∈ images, image.typeStart + image.typeCount ≤ types.length

theorem mem_zipWith_methods {types : List TypeDef} {methods : List (List MethodDef)} {t : TypeDef}
    (h : t ∈ types.zipWith (fun t methods ↦ { t with methods }) methods) :
    ∃ t' ∈ types, t.fields = t'.fields ∧ t.methods ∈ methods := by
  induction types generalizing methods with
  | nil => simp at h
  | cons first types ih =>
    cases methods with
    | nil => simp at h
    | cons own methods =>
      rw [List.zipWith_cons_cons, List.mem_cons] at h
      rcases h with rfl | h
      · exact ⟨first, List.mem_cons_self, rfl, List.mem_cons_self⟩
      · obtain ⟨t', ht', hfields, hmethods⟩ := ih h
        exact ⟨t', List.mem_cons_of_mem _ ht', hfields, List.mem_cons_of_mem _ hmethods⟩

/-- The sizes agree without a wrap, as long as a vector can hold the types. -/
theorem typeRecords_fit {total size : ℕ} (hfew : total ≤ maxTypes)
    (hsize : size = total * kLayoutByrefless.typeDefSize % 2 ^ 64) :
    total * kLayoutByrefless.typeDefSize = size := by
  have hlt : total * kLayoutByrefless.typeDefSize < 2 ^ 64 :=
    lt_of_le_of_lt (Nat.mul_le_mul_right _ hfew) (by decide)
  rw [hsize, Nat.mod_eq_of_lt hlt]

/-- Records of regions in the buffer are decoded, unless there are more types than a vector can
hold. -/
theorem decodeRecords_cases (hstrings : Inside b strOff strSize)
    {fieldsOff fieldsSize tdOff tdSize imgOff imgSize : ℤ} (hfields : Inside b fieldsOff fieldsSize)
    (htypes : Inside b tdOff tdSize) (himages : Inside b imgOff imgSize) :
    decodeRecords b kLayoutByrefless strOff strSize fieldsOff fieldsSize tdOff tdSize imgOff
        imgSize = .error .thrown ∨
      Runs (decodeRecords b kLayoutByrefless strOff strSize fieldsOff fieldsSize tdOff tdSize imgOff
        imgSize) fun result ↦ ∀ tables ∈ result,
          TablesWellFormed b strOff strSize fieldsOff fieldsSize tables.1 tables.2 := by
  have hnone : Runs (pure none) fun result : Option (List TypeDef × List ImageDef) ↦
      ∀ tables ∈ result, TablesWellFormed b strOff strSize fieldsOff fieldsSize tables.1 tables.2 := by
    refine .ret ?_
    rintro tables ⟨⟩
  have hfieldsEnd : ((fieldsSize.toNat / kFieldRecSize * kFieldRecSize : ℕ) : ℤ) ≤ fieldsSize := by
    have hle := Nat.div_mul_le_self fieldsSize.toNat kFieldRecSize
    have hpos := hfields.2.1
    omega
  have himagesEnd : ((imgSize.toNat / kLayoutByrefless.imageSize * kLayoutByrefless.imageSize : ℕ) : ℤ) ≤
      imgSize := by
    have hle := Nat.div_mul_le_self imgSize.toNat kLayoutByrefless.imageSize
    have hpos := himages.2.1
    omega
  obtain ⟨total, htotal, -⟩ := sumCounts_runs himages himagesEnd
    (show kLayoutByrefless.imgTypeCountOff + 4 ≤ _ by decide)
  rw [decodeRecords, htotal, ok_bind]
  by_cases hzero : total = 0
  · rw [if_pos hzero]
    exact .inr hnone
  · rw [if_neg hzero]
    by_cases hsize : tdSize.toNat ≠ total * kLayoutByrefless.typeDefSize % 2 ^ 64
    · rw [if_pos hsize]
      exact .inr hnone
    · rw [if_neg hsize]
      have hrun : Runs ((List.range (fieldsSize.toNat / kFieldRecSize)).mapM
          (fieldRecord b strOff strSize fieldsOff))
          (List.Forall₂ (fun _ _ ↦ True) (List.range (fieldsSize.toNat / kFieldRecSize))) :=
        runs_mapM fun k hk ↦
          fieldRecord_runs hstrings hfields (record_le (List.mem_range.mp hk) hfieldsEnd)
      obtain ⟨allFields, hall, hcount⟩ := hrun
      have hlength := hcount.length_eq
      rw [List.length_range] at hlength
      dsimp only
      rw [hall, ok_bind]
      by_cases hmany : maxTypes < total
      · rw [if_pos hmany]
        exact .inl rfl
      · have htypesEnd : ((total * kLayoutByrefless.typeDefSize : ℕ) : ℤ) ≤ tdSize := by
          have hpos := htypes.2.1
          have hexact := typeRecords_fit (not_lt.mp hmany) (not_not.mp hsize)
          omega
        rw [if_neg hmany]
        right
        refine (runs_mapM fun k hk ↦ typeRecord_runs hstrings htypes
          (record_le (List.mem_range.mp hk) htypesEnd) allFields).bind fun types hdecoded ↦ ?_
        refine (methodTable_runs hstrings htypes htypesEnd).bind fun methods hmethods ↦ ?_
        refine (runs_mapM fun k hk ↦ imageRecord_runs hstrings himages
          (record_le (List.mem_range.mp hk) himagesEnd) total).bind fun images hdecodedImages ↦ ?_
        refine .ret ?_
        rintro tables ⟨⟩
        have htypesLength := hdecoded.length_eq
        rw [List.length_range] at htypesLength
        refine ⟨?_, ?_, ?_⟩
        · intro t ht
          obtain ⟨t', ht', hsame, -⟩ := mem_zipWith_methods ht
          obtain ⟨k, -, start, count, hle, hstretch⟩ := exists_of_mem_results hdecoded ht'
          refine ⟨start, count, by omega, ?_⟩
          rw [hsame, hstretch]
          exact mapM_stretch hall (by omega)
        · obtain ⟨-, total', recSize, tokenOff, hle, hstretches⟩ := hmethods
          refine ⟨total', recSize, tokenOff, hle, ?_⟩
          intro t ht
          obtain ⟨-, -, -, hmem⟩ := mem_zipWith_methods ht
          exact hstretches _ hmem
        · intro image himage
          obtain ⟨k, -, hle⟩ := exists_of_mem_results hdecodedImages himage
          have hlengths := hmethods.1
          rw [List.length_zipWith]
          omega

/-- Tables are decoded, unless there are more types than a vector can hold. -/
theorem decodeTables_cases (hstrings : Inside b strOff strSize) (version : ℤ) :
    decodeTables b version strOff strSize = .error .thrown ∨
      Runs (decodeTables b version strOff strSize) fun result ↦ ∀ tables ∈ result,
        TablesWellFormed b strOff strSize (header b kOffFields) (header b (kOffFields + 4))
          tables.1 tables.2 := by
  have hnone : Runs (pure none) fun result : Option (List TypeDef × List ImageDef) ↦
      ∀ tables ∈ result, TablesWellFormed b strOff strSize (header b kOffFields)
        (header b (kOffFields + 4)) tables.1 tables.2 := by
    refine .ret ?_
    rintro tables ⟨⟩
  rw [decodeTables]
  cases hlayout : layoutFor version with
  | none => exact .inr hnone
  | some L =>
    have hL : L = kLayoutByrefless := by
      rw [layoutFor] at hlayout
      split at hlayout
      · exact (Option.some.inj hlayout).symm
      · cases hlayout
    subst hL
    dsimp only
    by_cases hshort : b.size < kTableHeaderEnd
    · rw [if_pos hshort]
      exact .inr hnone
    · have hread : ∀ off : ℤ, 0 ≤ off → off + 4 ≤ kTableHeaderEnd →
          b.readInt 4 off = .ok (header b off) := fun off hlow hhigh ↦
        readHeader_ok hlow (by omega)
      rw [if_neg hshort, hread kOffFields (by decide) (by decide), ok_bind,
        hread (kOffFields + 4) (by decide) (by decide), ok_bind,
        hread kOffTypeDefs (by decide) (by decide), ok_bind,
        hread (kOffTypeDefs + 4) (by decide) (by decide), ok_bind,
        hread kOffImages (by decide) (by decide), ok_bind,
        hread (kOffImages + 4) (by decide) (by decide), ok_bind]
      split
      · exact .inr hnone
      · next hregions =>
        rw [Bool.not_eq_true, Bool.or_eq_false_iff, Bool.or_eq_false_iff, Bool.not_eq_false',
          Bool.not_eq_false', Bool.not_eq_false', regionValid_iff, regionValid_iff,
          regionValid_iff] at hregions
        obtain ⟨⟨hfields, htypes⟩, himages⟩ := hregions
        exact decodeRecords_cases hstrings hfields htypes himages

/-! ### The whole file -/

/-- A file of which the literal table is read, and reaches within eight of the largest number. -/
structure LiteralsTooLong (b : Buffer) : Prop where
  long : kMinHeader ≤ b.size
  magic : b.nat 4 kOffSanity.toNat = kIl2CppMagic
  strings : Inside b (header b kOffString) (header b kOffStringSize)
  literals : Inside b (header b kOffStrLit) (header b kOffStrLitSize)
  literalData : Inside b (header b kOffStrLitData) (header b kOffStrLitDataSize)
  size : 2 ^ 31 - 8 ≤ header b kOffStrLitSize

/-- No byte outside the buffer is read and no signed sum overflows, and what is returned is well
formed. -/
def Safe (b : Buffer) : Checked (Option Metadata) → Prop
  | .error fault => fault = .thrown
  | .ok result => ∀ md ∈ result,
    TablesWellFormed b (header b kOffString) (header b kOffStringSize) (header b kOffFields)
      (header b (kOffFields + 4)) md.types md.images

theorem tablesWellFormed_nil (strOff strSize fieldsOff fieldsSize : ℤ) :
    TablesWellFormed b strOff strSize fieldsOff fieldsSize [] [] := by
  refine ⟨fun t h ↦ absurd h List.not_mem_nil, ⟨0, 0, 0, by simp, ?_⟩, ?_⟩
  · exact fun t h ↦ absurd h List.not_mem_nil
  · exact fun image h ↦ absurd h List.not_mem_nil

theorem withTables_safe
    (hstrings : Inside b (header b kOffString) (header b kOffStringSize)) (md : Metadata)
    (htypes : md.types = []) (himages : md.images = []) :
    Safe b (withTables b md (header b kOffString) (header b kOffStringSize)) := by
  rw [withTables]
  rcases decodeTables_cases hstrings md.version with hthrown | ⟨result, hresult, hformed⟩
  · rw [hthrown]
    rfl
  · rw [hresult]
    cases result with
    | none =>
      rintro md ⟨⟩
      rw [htypes, himages]
      exact tablesWellFormed_nil ..
    | some tables =>
      rintro md ⟨⟩
      exact hformed tables rfl

/-- The only sum that can overflow is the one of the loop over the literals. -/
theorem parseIl2CppMetadata_outcome (b : Buffer) :
    ¬LiteralsTooLong b ∧ Safe b (parseIl2CppMetadata b) ∨
      LiteralsTooLong b ∧ parseIl2CppMetadata b = .error .overflow := by
  have hnone : Safe b (pure none) := by
    rintro md ⟨⟩
  rw [parseIl2CppMetadata]
  by_cases hshort : b.size < kMinHeader
  · rw [if_pos hshort]
    exact .inl ⟨fun h ↦ absurd h.long (not_le.mpr hshort), hnone⟩
  rw [if_neg hshort]
  have hread : ∀ off : ℤ, 0 ≤ off → off + 4 ≤ kMinHeader →
      b.readInt 4 off = .ok (header b off) := fun off hlow hhigh ↦ readHeader_ok hlow (by omega)
  have hsanity : kOffSanity + (4 : ℕ) ≤ b.size := by
    rw [kOffSanity]
    rw [kMinHeader] at hshort
    omega
  rw [Buffer.readNat_ok (by decide) hsanity, ok_bind]
  by_cases hmagic : b.nat 4 kOffSanity.toNat ≠ kIl2CppMagic
  · rw [if_pos hmagic]
    exact .inl ⟨fun h ↦ hmagic h.magic, hnone⟩
  rw [if_neg hmagic, hread kOffVersion (by decide) (by decide), ok_bind,
    hread kOffString (by decide) (by decide), ok_bind,
    hread kOffStringSize (by decide) (by decide), ok_bind]
  by_cases hvalid : (!regionValid (header b kOffString) (header b kOffStringSize) b.size) = true
  · rw [if_pos hvalid]
    refine .inl ⟨fun h ↦ ?_, hnone⟩
    rw [regionValid_iff.mpr h.strings] at hvalid
    exact absurd hvalid (by decide)
  rw [if_neg hvalid]
  rw [Bool.not_eq_true, Bool.not_eq_false', regionValid_iff] at hvalid
  obtain ⟨strings, hstrings, -⟩ := stringPool_runs hvalid (header_fits b _) le_rfl
  rw [hstrings, ok_bind, hread kOffStrLit (by decide) (by decide), ok_bind,
    hread kOffStrLitSize (by decide) (by decide), ok_bind,
    hread kOffStrLitData (by decide) (by decide), ok_bind,
    hread kOffStrLitDataSize (by decide) (by decide), ok_bind]
  split
  · next hregions =>
    rw [Bool.and_eq_true, regionValid_iff, regionValid_iff] at hregions
    by_cases hsize : 2 ^ 31 - 8 ≤ header b kOffStrLitSize
    · rw [literalPool_overflow hregions.1 hregions.2 hsize (2 ^ 28 - 1) (by norm_num) le_rfl]
      exact .inr ⟨⟨not_lt.mp hshort, not_not.mp hmagic, hvalid, hregions.1, hregions.2, hsize⟩, rfl⟩
    · obtain ⟨literals, hliterals, -⟩ := literalPool_runs hregions.1 hregions.2 (not_le.mp hsize)
        le_rfl hregions.1.2.1
      rw [hliterals, ok_bind]
      exact .inl ⟨fun h ↦ hsize h.size, withTables_safe hvalid _ rfl rfl⟩
  · next hregions =>
    refine .inl ⟨fun h ↦ hregions ?_, withTables_safe hvalid _ rfl rfl⟩
    rw [Bool.and_eq_true, regionValid_iff, regionValid_iff]
    exact ⟨h.literals, h.literalData⟩

/-- The parser keeps to the buffer and to its numbers exactly if the literal table is not read, or
ends more than eight in front of the largest number. -/
theorem parseIl2CppMetadata_safe_iff (b : Buffer) :
    Safe b (parseIl2CppMetadata b) ↔ ¬LiteralsTooLong b := by
  rcases parseIl2CppMetadata_outcome b with ⟨hshort, hsafe⟩ | ⟨hlong, hoverflow⟩
  · exact iff_of_true hsafe hshort
  · rw [hoverflow]
    refine iff_of_false (fun h ↦ ?_) (not_not.mpr hlong)
    cases h

/-- A header with a literal table of `0x7FFFFFF8` bytes, and nothing but zeros behind it. -/
def hugeLiterals : Buffer where
  size := 32 + (2 ^ 31 - 8)
  byte i := [0xAF, 0x1B, 0xB1, 0xFA, 31, 0, 0, 0, 32, 0, 0, 0, 0xF8, 0xFF, 0xFF, 0x7F].getD i 0

/-- The loop over the literals of a file of two gigabytes computes `0x7FFFFFF8 + 8`. -/
theorem hugeLiterals_overflow :
    parseIl2CppMetadata hugeLiterals = .error .overflow ∧
      ¬Safe hugeLiterals (parseIl2CppMetadata hugeLiterals) := by
  have hlong : LiteralsTooLong hugeLiterals :=
    ⟨by decide, by decide, by decide, by decide, by decide, by decide⟩
  have hoverflow : parseIl2CppMetadata hugeLiterals = .error .overflow :=
    (parseIl2CppMetadata_outcome hugeLiterals).elim (fun h ↦ absurd hlong h.1) And.right
  refine ⟨hoverflow, fun h ↦ ?_⟩
  rw [hoverflow] at h
  cases h

end Il2Cpp

end Cecore.Analysis
