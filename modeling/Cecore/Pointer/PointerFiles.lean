import Cecore.Core.Text
import Cecore.Library.ByteStream
import Cecore.Library.FileStream
import Cecore.Pointer.PointerMap

/-!
# Files of pointer paths and pointer maps

The two binary formats of `scanner/pointer_scanner.cpp`. Paths within the bounds of their format
come back as they were (`loadPointerPaths_saved`). A map comes back with its pointers sorted anew,
pointers of one value, or of one place, in any order: it answers as the one that was saved where no
place has two values (`pointer_files_round_trip`).
-/

set_option autoImplicit false
set_option relaxedAutoImplicit false

namespace Cecore.Pointer

open Library.ByteStream Library.FileStream Library.LittleEndian

/-! ### Reading -/

/-- The character of a byte. -/
def charOf (byte : UInt8) : Char := Char.ofNat byte.toNat

/-- `fail` with a message, where there is nothing. -/
def orFail {α : Type} (msg : String) : Option α → Except Text α
  | none => .error msg.toList
  | some found => .ok found

theorem orFail_bind {α β : Type} (msg : String) (found : α) (next : α → Except Text β) :
    (orFail msg (some found) >>= next) = next found := rfl

theorem ok_bind {α β : Type} (found : α) (next : α → Except Text β) :
    (Except.ok found >>= next) = next found := rfl

theorem charOf_byteOf {c : Char} (hc : c.toNat < 256) : charOf (byteOf c) = c := by
  have hvalue : (byteOf c).toNat = c.toNat := by
    rw [byteOf, UInt8.toNat_ofNat']
    exact Nat.mod_eq_of_lt hc
  rw [charOf, hvalue, Char.ofNat_toNat]

theorem map_charOf_byteOf {text : Text} (htext : ∀ c ∈ text, c.toNat < 256) :
    (text.map byteOf).map charOf = text := by
  rw [List.map_map]
  exact (List.map_congr_left fun c hc ↦ charOf_byteOf (htext c hc)).trans (List.map_id text)

/-- The calls that write a text with a length of its own. -/
def textPieces (length : ℕ) (text : Text) : List (List UInt8) :=
  if 0 < length then [(text.take length).map byteOf] else []

theorem flatten_textPieces (text : Text) :
    (textPieces text.length text).flatten = text.map byteOf := by
  unfold textPieces
  split_ifs with hempty
  · rw [List.take_length, List.flatten_singleton]
  · rw [List.eq_nil_of_length_eq_zero (Nat.eq_zero_of_not_pos hempty)]
    rfl

/-! ### Paths -/

/-- `PSCAN001`. -/
def kPointerScanMagic : List UInt8 := [80, 83, 67, 65, 78, 48, 48, 49]

def kPointerScanVersion : ℕ := 1

/-- The calls that write a path. -/
def pathPieces (p : PointerPath) : List (List UInt8) :=
  let offCount := p.offsets.length % 2 ^ 32
  let nameLen := p.module.length % 2 ^ 32
  [toLE 8 p.moduleBase, toLE 8 p.baseOffset, toLE 4 offCount, toLE 4 nameLen] ++
    textPieces nameLen p.module ++
    if 0 < offCount then [(p.offsets.take offCount).flatMap fun off ↦ toLE 4 (wordOf off)] else []

/-- `savePointerPaths`: whether it succeeds, and the file. -/
def savePointerPaths (paths : List PointerPath) (device : Device) : Bool × Option (List UInt8) :=
  device.writeFile ([kPointerScanMagic, toLE 4 kPointerScanVersion, toLE 4 (paths.length % 2 ^ 32)] ++
    paths.flatMap pathPieces)

/-- One turn of the loop of `loadPointerPaths`. -/
def loadPath (f : List UInt8) : Except Text (PointerPath × List UInt8) := do
  let header : Option ((ℕ × ℕ × ℕ × ℕ) × List UInt8) := do
    let (base, f) ← recvNat 8 f
    let (baseOff, f) ← recvNat 8 f
    let (offCount, f) ← recvNat 4 f
    let (nameLen, f) ← recvNat 4 f
    some ((base, baseOff, offCount, nameLen), f)
  let ((base, baseOff, offCount, nameLen), f) ← orFail "truncated record header" header
  orFail "record fields out of range" (if 64 < offCount ∨ 2 ^ 16 < nameLen then none else some ())
  let (name, f) ← orFail "truncated module name" (recvBytes nameLen f)
  let (offsets, f) ← orFail "truncated offset list" (recvList (recvNat 4) offCount f)
  return (⟨name.map charOf, base, baseOff, offsets.map int32Of⟩, f)

def readPointerPaths (file : Option (List UInt8)) : Except Text (List PointerPath) := do
  let f ← orFail "open failed" file
  let (_, f) ← orFail "bad magic" ((recvBytes 8 f).filter fun r ↦ decide (r.1 = kPointerScanMagic))
  let (_, f) ← orFail "unsupported version"
    ((recvNat 4 f).filter fun r ↦ decide (r.1 = kPointerScanVersion))
  let (count, f) ← orFail "truncated header" (recvNat 4 f)
  orFail "path count too large" (if 2 ^ 28 < count then none else some ())
  let (result, _) ← readList loadPath count f
  return result

/-- `loadPointerPaths`: the paths, none where there is an error. -/
def loadPointerPaths (file : Option (List UInt8)) : List PointerPath × Option Text :=
  match readPointerPaths file with
  | .ok result => (result, none)
  | .error msg => ([], some msg)

/-! ### Maps -/

namespace PointerMap

/-- `PMAP0001`. -/
def kPointerMapMagic : List UInt8 := [80, 77, 65, 80, 48, 48, 48, 49]

/-- The calls that write a module. -/
def modulePieces (m : ModuleInfo) (is64bit : Bool) : List (List UInt8) :=
  let nameLen := m.name.length % 2 ^ 32
  [toLE 8 m.base, toLE 8 m.size, toLE 4 nameLen, [if is64bit then 1 else 0]] ++
    textPieces nameLen m.name

/-- `save`: whether it succeeds, and the file. `is64bit` is that member of the modules. -/
def save (map : PointerMap) (is64bit : ℕ → Bool) (device : Device) : Bool × Option (List UInt8) :=
  device.writeFile ([kPointerMapMagic, toLE 8 map.byTarget.length, toLE 8 map.modules.length] ++
    (map.byTarget.flatMap fun e ↦ [toLE 8 e.pointsTo, toLE 8 e.locatedAt]) ++
    map.modules.zipIdx.flatMap fun m ↦ modulePieces m.1 (is64bit m.2))

def loadEntry (f : List UInt8) : Except Text (Entry × List UInt8) := do
  let fields : Option ((ℕ × ℕ) × List UInt8) := do
    let (pt, f) ← recvNat 8 f
    let (la, f) ← recvNat 8 f
    some ((pt, la), f)
  let ((pt, la), f) ← orFail "truncated entries" fields
  return (⟨pt, la⟩, f)

/-- A module and its `is64bit`. The path of a module is not in the file. -/
def loadModule (f : List UInt8) : Except Text ((ModuleInfo × Bool) × List UInt8) := do
  let fields : Option ((ℕ × ℕ × ℕ × ℕ) × List UInt8) := do
    let (base, f) ← recvNat 8 f
    let (size, f) ← recvNat 8 f
    let (nameLen, f) ← recvNat 4 f
    let (is64, f) ← recvNat 1 f
    some ((base, size, nameLen, is64), f)
  let ((base, size, nameLen, is64), f) ← orFail "truncated module" fields
  orFail "module name too long" (if 2 ^ 16 < nameLen then none else some ())
  let (name, f) ← orFail "truncated module name" (recvBytes nameLen f)
  return ((⟨base, size, name.map charOf, []⟩, decide (is64 ≠ 0)), f)

/-- What `load` reads from a file, in the order of the file. -/
def readFile (file : Option (List UInt8)) : Except Text (List Entry × List (ModuleInfo × Bool)) := do
  let f ← orFail "open failed" file
  let (_, f) ← orFail "bad magic" ((recvBytes 8 f).filter fun r ↦ decide (r.1 = kPointerMapMagic))
  let counts : Option ((ℕ × ℕ) × List UInt8) := do
    let (nEntries, f) ← recvNat 8 f
    let (nModules, f) ← recvNat 8 f
    some ((nEntries, nModules), f)
  let ((nEntries, nModules), f) ← orFail "truncated header" counts
  orFail "counts too large" (if 2 ^ 32 < nEntries ∨ 2 ^ 20 < nModules then none else some ())
  let (entries, f) ← readList loadEntry nEntries f
  let (mods, _) ← readList loadModule nModules f
  return (entries, mods)

/-- `load` gives this map: with the modules and the pointers of the file, or empty after an error.
-/
inductive Loads (file : Option (List UInt8)) (map : PointerMap) : Prop
  | read {entries : List Entry} {mods : List (ModuleInfo × Bool)} :
    readFile file = .ok (entries, mods) → map.SetEntries entries →
      map.modules = mods.map Prod.fst → Loads file map
  | failed {msg : Text} : readFile file = .error msg → map.byTarget = [] → map.modules = [] →
    Loads file map

/-- The pointers with a value in a range, from `lower_bound` to `upper_bound`. -/
def inRange (map : PointerMap) (lo hi : ℕ) : List Entry :=
  (map.byTarget.dropWhile fun e ↦ decide (e.pointsTo < lo)).takeWhile fun e ↦ decide (e.pointsTo ≤ hi)

/-- Two maps that answer alike. Pointers of one value may be in another order. -/
structure SameAnswers (map other : PointerMap) : Prop where
  lookups : ∀ lo hi, (other.inRange lo hi).Perm (map.inRange lo hi)
  places : ∀ addr, other.valueAt addr = map.valueAt addr
  resolves : ∀ path, other.resolve path = map.resolve path

end PointerMap

/-! ### Reading what was written -/

variable {map loaded : PointerMap} {device : Device} {paths : List PointerPath} {rest : List UInt8}

/-- A path of the types of the source, within the bounds of the format. -/
structure PointerPath.Storable (p : PointerPath) : Prop where
  name : ∀ c ∈ p.module, c.toNat < 256
  nameLen : p.module.length ≤ 2 ^ 16
  base : p.moduleBase < sizeModulus
  baseOff : p.baseOffset < sizeModulus
  offsets : ∀ off ∈ p.offsets, -(2 ^ 31) ≤ off ∧ off < 2 ^ 31
  offCount : p.offsets.length ≤ 64

/-- An offset is read as it was written. -/
theorem int32Of_wordOf_mod {off : ℤ} (hlow : -(2 ^ 31) ≤ off) (hhigh : off < 2 ^ 31) :
    int32Of (wordOf off % 256 ^ 4) = off := by
  unfold int32Of wordOf sizeModulus
  split_ifs <;> omega

theorem loadPath_pathPieces {p : PointerPath} (hstorable : p.Storable) (rest : List UInt8) :
    loadPath ((pathPieces p).flatten ++ rest) = .ok (p, rest) := by
  have hoffCount : p.offsets.length % 2 ^ 32 = p.offsets.length :=
    Nat.mod_eq_of_lt (lt_of_le_of_lt hstorable.offCount (by decide))
  have hnameLen : p.module.length % 2 ^ 32 = p.module.length :=
    Nat.mod_eq_of_lt (lt_of_le_of_lt hstorable.nameLen (by decide))
  have hoffsets : (if 0 < p.offsets.length then
      [(p.offsets.take p.offsets.length).flatMap fun off ↦ toLE 4 (wordOf off)] else []).flatten =
        p.offsets.flatMap fun off ↦ toLE 4 (wordOf off) := by
    split_ifs with hempty
    · rw [List.take_length, List.flatten_singleton]
    · rw [List.eq_nil_of_length_eq_zero (Nat.eq_zero_of_not_pos hempty)]
      rfl
  have hpieces : (pathPieces p).flatten ++ rest = toLE 8 p.moduleBase ++ (toLE 8 p.baseOffset ++
      (toLE 4 p.offsets.length ++ (toLE 4 p.module.length ++ (p.module.map byteOf ++
        ((p.offsets.flatMap fun off ↦ toLE 4 (wordOf off)) ++ rest))))) := by
    unfold pathPieces
    dsimp only
    rw [hoffCount, hnameLen, List.flatten_append, List.flatten_append, hoffsets, flatten_textPieces]
    simp
  have hbase : Decodes (recvNat 8) (toLE 8 p.moduleBase) p.moduleBase :=
    decodes_recvNat_of_lt hstorable.base
  have hbaseOff : Decodes (recvNat 8) (toLE 8 p.baseOffset) p.baseOffset :=
    decodes_recvNat_of_lt hstorable.baseOff
  have hcount : Decodes (recvNat 4) (toLE 4 p.offsets.length) p.offsets.length :=
    decodes_recvNat_of_lt (lt_of_le_of_lt hstorable.offCount (by decide))
  have hlength : Decodes (recvNat 4) (toLE 4 p.module.length) p.module.length :=
    decodes_recvNat_of_lt (lt_of_le_of_lt hstorable.nameLen (by decide))
  have hname : ∀ rest, recvBytes p.module.length (p.module.map byteOf ++ rest) =
      some (p.module.map byteOf, rest) := by
    intro rest
    have hread := decodes_recvBytes (p.module.map byteOf) rest
    rwa [List.length_map] at hread
  have hwords : recvList (recvNat 4) p.offsets.length
      ((p.offsets.flatMap fun off ↦ toLE 4 (wordOf off)) ++ rest) =
        some (p.offsets.map fun off ↦ wordOf off % 256 ^ 4, rest) :=
    decodes_recvList (fun off _ ↦ decodes_recvNat 4 (wordOf off)) rest
  have hinBounds : ¬(64 < p.offsets.length ∨ 2 ^ 16 < p.module.length) :=
    not_or.mpr ⟨not_lt.mpr hstorable.offCount, not_lt.mpr hstorable.nameLen⟩
  have hback : (p.offsets.map fun off ↦ wordOf off % 256 ^ 4).map int32Of = p.offsets := by
    rw [List.map_map]
    refine (List.map_congr_left fun off hoff ↦ ?_).trans (List.map_id _)
    exact int32Of_wordOf_mod (hstorable.offsets off hoff).1 (hstorable.offsets off hoff).2
  rw [hpieces]
  unfold loadPath
  simp only [hbase _, hbaseOff _, hcount _, hlength _, hname, hwords, hback, if_neg hinBounds,
    orFail_bind, map_charOf_byteOf hstorable.name, Option.bind_eq_bind, Option.bind_some]
  rfl

/-- Paths within the bounds of the format come back as they were. -/
theorem loadPointerPaths_saved (hstorable : ∀ p ∈ paths, p.Storable) (hcount : paths.length ≤ 2 ^ 28)
    (hsaved : (savePointerPaths paths device).1 = true) (hkeeps : device.loses = 0) :
    loadPointerPaths (savePointerPaths paths device).2 = (paths, none) := by
  have hfile := Device.written_of_keeps hsaved hkeeps
  have hlength : paths.length % 2 ^ 32 = paths.length :=
    Nat.mod_eq_of_lt (lt_of_le_of_lt hcount (by decide))
  have hread : Decodes (recvNat 4) (toLE 4 paths.length) paths.length :=
    decodes_recvNat_of_lt (lt_of_le_of_lt hcount (by decide))
  have hmagic : ∀ rest, (recvBytes 8 (kPointerScanMagic ++ rest)).filter (fun r ↦
      decide (r.1 = kPointerScanMagic)) = some (kPointerScanMagic, rest) := by
    intro rest
    have hread : recvBytes 8 (kPointerScanMagic ++ rest) = some (kPointerScanMagic, rest) :=
      decodes_recvBytes kPointerScanMagic rest
    rw [hread]
    rfl
  have hversion : ∀ rest, (recvNat 4 (toLE 4 kPointerScanVersion ++ rest)).filter (fun r ↦
      decide (r.1 = kPointerScanVersion)) = some (kPointerScanVersion, rest) := by
    intro rest
    have hread : Decodes (recvNat 4) (toLE 4 kPointerScanVersion) kPointerScanVersion :=
      decodes_recvNat_of_lt (by decide)
    rw [hread rest]
    rfl
  have hpaths := readList_flatMap (fun p hp ↦ loadPath_pathPieces (hstorable p hp)) []
  rw [List.map_id', List.append_nil] at hpaths
  have hwhole : readPointerPaths (savePointerPaths paths device).2 = .ok paths := by
    unfold savePointerPaths at hfile ⊢
    rw [hfile, List.flatten_append, flatten_flatMap, hlength]
    unfold readPointerPaths
    simp only [List.flatten_cons, List.flatten_nil, List.append_nil, List.append_assoc, orFail_bind,
      hmagic, hversion, hread _, hpaths, if_neg (not_lt.mpr hcount), ok_bind]
    rfl
  rw [loadPointerPaths, hwhole]

/-! ### Reading a map -/

namespace PointerMap

/-- The modules are of the types of the source, and the reader takes as many of them and names of
their length. -/
structure Storable (map : PointerMap) : Prop where
  count : map.modules.length ≤ 2 ^ 20
  words : ∀ m ∈ map.modules, m.base < sizeModulus ∧ m.size < sizeModulus
  names : ∀ m ∈ map.modules, (∀ c ∈ m.name, c.toNat < 256) ∧ m.name.length ≤ 2 ^ 16

/-- No place has two values. -/
def OneValue (map : PointerMap) : Prop :=
  ∀ e ∈ map.byTarget, ∀ other ∈ map.byTarget, e.locatedAt = other.locatedAt →
    e.pointsTo = other.pointsTo

/-- A module without its path. -/
def unpathed (m : ModuleInfo) : ModuleInfo := { m with path := [] }

theorem loadEntry_pieces {e : Entry} (hwords : e.pointsTo < sizeModulus ∧ e.locatedAt < sizeModulus)
    (rest : List UInt8) :
    loadEntry ([toLE 8 e.pointsTo, toLE 8 e.locatedAt].flatten ++ rest) = .ok (e, rest) := by
  have hpointsTo : Decodes (recvNat 8) (toLE 8 e.pointsTo) e.pointsTo :=
    decodes_recvNat_of_lt hwords.1
  have hlocatedAt : Decodes (recvNat 8) (toLE 8 e.locatedAt) e.locatedAt :=
    decodes_recvNat_of_lt hwords.2
  unfold loadEntry
  simp only [List.flatten_cons, List.flatten_nil, List.append_nil, List.append_assoc, hpointsTo _,
    hlocatedAt _, Option.bind_eq_bind, Option.bind_some, orFail_bind]
  rfl

theorem loadModule_modulePieces {m : ModuleInfo} (hwords : m.base < sizeModulus ∧ m.size < sizeModulus)
    (hnames : (∀ c ∈ m.name, c.toNat < 256) ∧ m.name.length ≤ 2 ^ 16) (is64bit : Bool)
    (rest : List UInt8) :
    loadModule ((modulePieces m is64bit).flatten ++ rest) = .ok ((unpathed m, is64bit), rest) := by
  have hnameLen : m.name.length % 2 ^ 32 = m.name.length :=
    Nat.mod_eq_of_lt (lt_of_le_of_lt hnames.2 (by decide))
  have hpieces : (modulePieces m is64bit).flatten ++ rest = toLE 8 m.base ++ (toLE 8 m.size ++
      (toLE 4 m.name.length ++ (toLE 1 (if is64bit then 1 else 0) ++
        (m.name.map byteOf ++ rest)))) := by
    unfold modulePieces
    dsimp only
    rw [hnameLen, List.flatten_append, flatten_textPieces]
    cases is64bit <;> simp [toLE]
  have hbase : Decodes (recvNat 8) (toLE 8 m.base) m.base := decodes_recvNat_of_lt hwords.1
  have hsize : Decodes (recvNat 8) (toLE 8 m.size) m.size := decodes_recvNat_of_lt hwords.2
  have hlength : Decodes (recvNat 4) (toLE 4 m.name.length) m.name.length :=
    decodes_recvNat_of_lt (lt_of_le_of_lt hnames.2 (by decide))
  have hflag : Decodes (recvNat 1) (toLE 1 (if is64bit then 1 else 0)) (if is64bit then 1 else 0) :=
    decodes_recvNat_of_lt (by cases is64bit <;> decide)
  have hname : ∀ rest, recvBytes m.name.length (m.name.map byteOf ++ rest) =
      some (m.name.map byteOf, rest) := by
    intro rest
    have hread := decodes_recvBytes (m.name.map byteOf) rest
    rwa [List.length_map] at hread
  have hback : decide ((if is64bit then 1 else 0) ≠ 0) = is64bit := by
    cases is64bit <;> decide
  rw [hpieces]
  unfold loadModule
  simp only [hbase _, hsize _, hlength _, hflag _, hname, if_neg (not_lt.mpr hnames.2), orFail_bind,
    map_charOf_byteOf hnames.1, Option.bind_eq_bind, Option.bind_some, hback]
  rfl

/-- What is read from a file with these counts. -/
theorem readFile_counts (nEntries nModules : ℕ) (hentries : nEntries < sizeModulus)
    (hmodules : nModules < sizeModulus) (f : List UInt8) :
    readFile (some (kPointerMapMagic ++ (toLE 8 nEntries ++ (toLE 8 nModules ++ f)))) =
      orFail "counts too large" (if 2 ^ 32 < nEntries ∨ 2 ^ 20 < nModules then none else some ()) >>=
        fun _ ↦ readList loadEntry nEntries f >>= fun entries ↦
          readList loadModule nModules entries.2 >>= fun mods ↦ .ok (entries.1, mods.1) := by
  have hmagic : ∀ rest, (recvBytes 8 (kPointerMapMagic ++ rest)).filter (fun r ↦
      decide (r.1 = kPointerMapMagic)) = some (kPointerMapMagic, rest) := by
    intro rest
    have hread : recvBytes 8 (kPointerMapMagic ++ rest) = some (kPointerMapMagic, rest) :=
      decodes_recvBytes kPointerMapMagic rest
    rw [hread]
    rfl
  have hnEntries : Decodes (recvNat 8) (toLE 8 nEntries) nEntries := decodes_recvNat_of_lt hentries
  have hnModules : Decodes (recvNat 8) (toLE 8 nModules) nModules := decodes_recvNat_of_lt hmodules
  unfold readFile
  simp only [orFail_bind, hmagic, hnEntries _, hnModules _, Option.bind_eq_bind, Option.bind_some]
  rfl

/-- The pieces of a map, in front of its entries. -/
theorem flatten_saved (map : PointerMap) (is64bit : ℕ → Bool) :
    ([kPointerMapMagic, toLE 8 map.byTarget.length, toLE 8 map.modules.length] ++
        (map.byTarget.flatMap fun e ↦ [toLE 8 e.pointsTo, toLE 8 e.locatedAt]) ++
        map.modules.zipIdx.flatMap fun m ↦ modulePieces m.1 (is64bit m.2)).flatten =
      kPointerMapMagic ++ (toLE 8 map.byTarget.length ++ (toLE 8 map.modules.length ++
        ((map.byTarget.flatMap fun e ↦ [toLE 8 e.pointsTo, toLE 8 e.locatedAt].flatten) ++
          map.modules.zipIdx.flatMap fun m ↦ (modulePieces m.1 (is64bit m.2)).flatten))) := by
  rw [List.flatten_append, List.flatten_append, flatten_flatMap, flatten_flatMap]
  simp only [List.flatten_cons, List.flatten_nil, List.append_nil, List.append_assoc]

/-- The pointers of a map are read in their order, and the modules without their paths. -/
theorem readFile_saved {is64bit : ℕ → Bool} (hstorable : map.Storable)
    (hsaved : (map.save is64bit device).1 = true) (hkeeps : device.loses = 0) :
    readFile (map.save is64bit device).2 =
      .ok (map.byTarget, map.modules.zipIdx.map fun m ↦ (unpathed m.1, is64bit m.2)) := by
  have hfile := Device.written_of_keeps hsaved hkeeps
  have hentries := readList_flatMap (fun e he ↦ loadEntry_pieces (map.words e he))
    (map.modules.zipIdx.flatMap fun m ↦ (modulePieces m.1 (is64bit m.2)).flatten)
  have hmem : ∀ m ∈ map.modules.zipIdx, m.1 ∈ map.modules := fun m hm ↦ List.fst_mem_of_mem_zipIdx hm
  have hmodules := readList_flatMap (fun m hm ↦ loadModule_modulePieces
    (hstorable.words m.1 (hmem m hm)) (hstorable.names m.1 (hmem m hm)) (is64bit m.2)) []
  rw [List.length_zipIdx, List.append_nil] at hmodules
  rw [List.map_id'] at hentries
  have hcounts : ¬(2 ^ 32 < map.byTarget.length ∨ 2 ^ 20 < map.modules.length) :=
    not_or.mpr ⟨not_lt.mpr map.fits, not_lt.mpr hstorable.count⟩
  unfold save at hfile ⊢
  rw [hfile, flatten_saved, readFile_counts _ _ (lt_of_le_of_lt map.fits (by decide))
    (lt_of_le_of_lt hstorable.count (by decide)), if_neg hcounts, orFail_bind, hentries, ok_bind,
    hmodules, ok_bind]

/-! ### Answers -/

/-- In a sorted list, the front is all that satisfies a downward closed predicate. -/
theorem takeWhile_eq_filter {α : Type} {p : α → Bool} {l : List α}
    (hdown : l.Pairwise fun first second ↦ p second → p first) :
    l.takeWhile p = l.filter p ∧ l.dropWhile p = l.filter fun x ↦ !p x := by
  induction l with
  | nil => exact ⟨rfl, rfl⟩
  | cons first rest ih =>
    obtain ⟨hfirst, hrest⟩ := List.pairwise_cons.mp hdown
    obtain ⟨htake, hdrop⟩ := ih hrest
    cases hp : p first with
    | true =>
      rw [List.takeWhile_cons_of_pos hp, List.dropWhile_cons_of_pos hp, htake, hdrop,
        List.filter_cons_of_pos hp, List.filter_cons_of_neg (by simp [hp])]
      exact ⟨rfl, rfl⟩
    | false =>
      have hnone : ∀ other ∈ rest, p other = false := by
        intro other hother
        by_contra hyes
        rw [Bool.not_eq_false] at hyes
        rw [hfirst other hother hyes] at hp
        cases hp
      have hneg : ¬p first = true := by rw [hp]; exact Bool.false_ne_true
      rw [List.takeWhile_cons_of_neg hneg, List.dropWhile_cons_of_neg hneg,
        List.filter_cons_of_neg hneg, List.filter_cons_of_pos (by simp [hp]),
        List.filter_eq_nil_iff.mpr fun other hother ↦
          by rw [hnone other hother]; exact Bool.false_ne_true,
        List.filter_eq_self.mpr fun other hother ↦ by rw [hnone other hother]; rfl]
      exact ⟨rfl, rfl⟩

/-- A lookup finds the pointers with a value in the range. -/
theorem inRange_eq_filter (map : PointerMap) (lo hi : ℕ) :
    map.inRange lo hi = (map.byTarget.filter fun e ↦ !decide (e.pointsTo < lo)).filter fun e ↦
      decide (e.pointsTo ≤ hi) := by
  have hlow : map.byTarget.Pairwise fun first second ↦
      decide (second.pointsTo < lo) = true → decide (first.pointsTo < lo) = true :=
    map.sortedByTarget.imp fun hle hlt ↦ decide_eq_true (hle.trans_lt (of_decide_eq_true hlt))
  have hhigh : (map.byTarget.filter fun e ↦ !decide (e.pointsTo < lo)).Pairwise fun first second ↦
      decide (second.pointsTo ≤ hi) = true → decide (first.pointsTo ≤ hi) = true :=
    (map.sortedByTarget.filter _).imp fun hle hlt ↦
      decide_eq_true (hle.trans (of_decide_eq_true hlt))
  rw [inRange, (takeWhile_eq_filter hlow).2, (takeWhile_eq_filter hhigh).1]

/-- A place that holds a pointer is found. -/
theorem valueAt_ne_none {e : Entry} (h : e ∈ map.byTarget) : map.valueAt e.locatedAt ≠ none := by
  obtain ⟨i, hi, rfl⟩ := List.mem_iff_getElem.mp h
  have hindex : i ∈ map.byLocated := map.indices.mem_iff.mpr (List.mem_range.mpr hi)
  have hat : map.entryAt i = map.byTarget[i] := by rw [entryAt, List.getD_eq_getElem _ _ hi]
  have hsorted : map.byLocated.Pairwise fun first second ↦
      (map.entryAt first).locatedAt ≤ (map.entryAt second).locatedAt :=
    List.pairwise_map.mp map.sortedByLocated
  have hdown : map.byLocated.Pairwise fun first second ↦
      decide ((map.entryAt second).locatedAt < map.byTarget[i].locatedAt) = true →
        decide ((map.entryAt first).locatedAt < map.byTarget[i].locatedAt) = true :=
    hsorted.imp fun hle hlt ↦ decide_eq_true (hle.trans_lt (of_decide_eq_true hlt))
  unfold valueAt
  rw [(takeWhile_eq_filter hdown).2]
  have hkept : i ∈ map.byLocated.filter fun j ↦
      !decide ((map.entryAt j).locatedAt < map.byTarget[i].locatedAt) := by
    refine List.mem_filter.mpr ⟨hindex, ?_⟩
    rw [hat]
    simp
  have hfiltered := hsorted.filter fun j ↦
    !decide ((map.entryAt j).locatedAt < map.byTarget[i].locatedAt)
  have hnotBelow : ∀ j ∈ map.byLocated.filter (fun j ↦
      !decide ((map.entryAt j).locatedAt < map.byTarget[i].locatedAt)),
      map.byTarget[i].locatedAt ≤ (map.entryAt j).locatedAt := by
    intro j hj
    simpa using (List.mem_filter.mp hj).2
  generalize (map.byLocated.filter fun j ↦
    !decide ((map.entryAt j).locatedAt < map.byTarget[i].locatedAt)) =
      kept at hkept hfiltered hnotBelow ⊢
  cases kept with
  | nil => cases hkept
  | cons first rest =>
    dsimp only
    have hle : (map.entryAt first).locatedAt ≤ map.byTarget[i].locatedAt := by
      rcases List.mem_cons.mp hkept with rfl | hlater
      · rw [hat]
      · rw [← hat]
        exact (List.pairwise_cons.mp hfiltered).1 i hlater
    rw [if_pos (le_antisymm hle (hnotBelow first List.mem_cons_self))]
    exact Option.some_ne_none _

/-- Where no place has two values, the value of a place does not depend on the order of the
pointers. -/
theorem valueAt_eq_some_iff (hone : map.OneValue) {addr value : ℕ} :
    map.valueAt addr = some value ↔ ⟨value, addr⟩ ∈ map.byTarget := by
  refine ⟨mem_of_valueAt, fun h ↦ ?_⟩
  cases hfound : map.valueAt addr with
  | none => exact absurd hfound (valueAt_ne_none h)
  | some found =>
    exact congrArg some (hone ⟨found, addr⟩ (mem_of_valueAt hfound) ⟨value, addr⟩ h rfl)

theorem moduleBase_unpathed (modules : List ModuleInfo) (name : Text) :
    moduleBase (modules.map unpathed) name = moduleBase modules name := by
  induction modules with
  | nil => rfl
  | cons m rest ih =>
    unfold moduleBase at ih ⊢
    rw [List.map_cons, List.find?_cons, List.find?_cons]
    by_cases hname : m.name = name
    · have hfound : decide ((unpathed m).name = name) = true := decide_eq_true hname
      rw [hfound, decide_eq_true hname]
      rfl
    · have hnot : decide ((unpathed m).name = name) = false := decide_eq_false hname
      rw [hnot, decide_eq_false hname]
      exact ih

/-- A map with the same pointers and modules answers alike. -/
theorem sameAnswers (hone : map.OneValue) (hentries : loaded.byTarget.Perm map.byTarget)
    (hmodules : loaded.modules = map.modules.map unpathed) : map.SameAnswers loaded := by
  have hplaces : ∀ addr, loaded.valueAt addr = map.valueAt addr := by
    have hone' : loaded.OneValue := fun e he other hother ↦
      hone e (hentries.mem_iff.mp he) other (hentries.mem_iff.mp hother)
    intro addr
    refine Option.ext fun value ↦ ?_
    rw [valueAt_eq_some_iff hone', valueAt_eq_some_iff hone, hentries.mem_iff]
  refine ⟨fun lo hi ↦ ?_, hplaces, fun path ↦ ?_⟩
  · rw [inRange_eq_filter, inRange_eq_filter]
    exact (hentries.filter _).filter _
  · rw [resolve, resolve, hmodules, moduleBase_unpathed, funext hplaces]

/-- What `load` gives for a saved map. -/
theorem loads_saved_iff {is64bit : ℕ → Bool} (hstorable : map.Storable)
    (hsaved : (map.save is64bit device).1 = true) (hkeeps : device.loses = 0) :
    Loads (map.save is64bit device).2 loaded ↔
      loaded.byTarget.Perm map.byTarget ∧ loaded.modules = map.modules.map unpathed := by
  have hmodules : (map.modules.zipIdx.map fun m ↦ (unpathed m.1, is64bit m.2)).map Prod.fst =
      map.modules.map unpathed := by
    rw [List.map_map]
    calc map.modules.zipIdx.map (Prod.fst ∘ fun m ↦ (unpathed m.1, is64bit m.2))
        = (map.modules.zipIdx.map Prod.fst).map unpathed := by rw [List.map_map]; rfl
      _ = map.modules.map unpathed := by rw [List.zipIdx_map_fst]
  have hread := readFile_saved hstorable hsaved hkeeps
  constructor
  · rintro (⟨hfound, hentries, hloaded⟩ | ⟨hfailed, -, -⟩)
    · obtain ⟨rfl, rfl⟩ := Prod.mk.inj (Except.ok.inj (hread.symm.trans hfound))
      exact ⟨hentries, hloaded.trans hmodules⟩
    · cases hread.symm.trans hfailed
  · rintro ⟨hentries, hloaded⟩
    exact .read hread hentries (hloaded.trans hmodules.symm)

/-- A map that has been loaded from its own file. -/
def reloaded (map : PointerMap) : PointerMap := { map with modules := map.modules.map unpathed }

end PointerMap

/-- Paths and maps within the bounds of the formats, the maps with one value for a place, come back:
the paths as they were, and the maps with the same answers. -/
theorem pointer_files_round_trip (device : Device) (hkeeps : device.loses = 0) :
    (∀ paths : List PointerPath, (∀ p ∈ paths, p.Storable) → paths.length ≤ 2 ^ 28 →
      (savePointerPaths paths device).1 = true →
        loadPointerPaths (savePointerPaths paths device).2 = (paths, none)) ∧
    ∀ (map : PointerMap) (is64bit : ℕ → Bool), map.Storable → map.OneValue →
      (map.save is64bit device).1 = true →
        (∃ loaded, PointerMap.Loads (map.save is64bit device).2 loaded) ∧
          ∀ loaded, PointerMap.Loads (map.save is64bit device).2 loaded → map.SameAnswers loaded := by
  refine ⟨fun paths hstorable hcount hsaved ↦ ?_, fun map is64bit hstorable hone hsaved ↦ ⟨?_, ?_⟩⟩
  · exact loadPointerPaths_saved hstorable hcount hsaved hkeeps
  · exact ⟨map.reloaded, (PointerMap.loads_saved_iff hstorable hsaved hkeeps).mpr ⟨.refl _, rfl⟩⟩
  · intro loaded hloads
    obtain ⟨hentries, hmodules⟩ := (PointerMap.loads_saved_iff hstorable hsaved hkeeps).mp hloads
    exact PointerMap.sameAnswers hone hentries hmodules

/-- One pointer in one module. -/
def slotMap : PointerMap where
  byTarget := [⟨0x600000, 0x400010⟩]
  byLocated := [0]
  modules := [⟨0x400000, 0x1000, "game".toList, "/opt/game".toList⟩]
  sortedByTarget := by decide
  indices := by decide
  sortedByLocated := by decide
  words := by decide
  fits := by decide

theorem slotMap_storable : slotMap.Storable where
  count := by decide
  words := by decide
  names := by decide

theorem slot_files_round_trip :
    loadPointerPaths (savePointerPaths [⟨"game".toList, 0x400000, 0x10, [-8]⟩] Device.reliable).2 =
      ([⟨"game".toList, 0x400000, 0x10, [-8]⟩], none) ∧
    ∀ loaded, PointerMap.Loads (slotMap.save (fun _ ↦ true) Device.reliable).2 loaded →
      slotMap.SameAnswers loaded := by
  obtain ⟨hpaths, hmaps⟩ := pointer_files_round_trip Device.reliable rfl
  refine ⟨hpaths _ ?_ (by decide) (congrArg Prod.fst (Device.writeFile_reliable _)), ?_⟩
  · intro p hp
    obtain rfl := List.mem_singleton.mp hp
    exact ⟨by decide, by decide, by decide, by decide, by decide, by decide⟩
  · have hone : slotMap.OneValue := by
      unfold PointerMap.OneValue
      decide
    exact (hmaps slotMap (fun _ ↦ true) slotMap_storable hone
      (congrArg Prod.fst (Device.writeFile_reliable _))).2

/-- The map with so many modules instead. -/
def crowdedMap (count : ℕ) : PointerMap :=
  { slotMap with modules := List.replicate count ⟨0x400000, 0x1000, [], []⟩ }

theorem save_reliable (map : PointerMap) (is64bit : ℕ → Bool) :
    (map.save is64bit Device.reliable).1 = true :=
  congrArg Prod.fst (Device.writeFile_reliable _)

/-- The reader takes a file with too many modules for an empty map. -/
theorem loads_crowded {is64bit : ℕ → Bool} (hcount : 2 ^ 20 < map.modules.length)
    (hword : map.modules.length < sizeModulus)
    (hloads : PointerMap.Loads (map.save is64bit Device.reliable).2 loaded) : loaded.byTarget = [] := by
  have hfile := Device.written_of_keeps (save_reliable map is64bit) rfl
  have hread : PointerMap.readFile (map.save is64bit Device.reliable).2 =
      .error "counts too large".toList := by
    unfold PointerMap.save at hfile ⊢
    rw [hfile, PointerMap.flatten_saved, PointerMap.readFile_counts _ _
      (lt_of_le_of_lt map.fits (by decide)) hword, if_pos (.inr hcount)]
    rfl
  cases hloads with
  | read hfound _ _ => cases hread.symm.trans hfound
  | failed _ hempty _ => exact hempty

/-- A place with two values, of which the first in `byLocated` is found. -/
def twiceMap (byLocated : List ℕ) (hperm : byLocated.Perm [0, 1]) : PointerMap where
  byTarget := [⟨0x600000, 0x400010⟩, ⟨0x700000, 0x400010⟩]
  byLocated := byLocated
  modules := [⟨0x400000, 0x1000, "game".toList, []⟩]
  sortedByTarget := by decide
  indices := hperm
  sortedByLocated := by
    have hsame : ∀ i ∈ byLocated, ((([⟨0x600000, 0x400010⟩, ⟨0x700000, 0x400010⟩] : List Entry).getD i
        ⟨0, 0⟩).locatedAt) = 0x400010 := by
      intro i hi
      have hcases : i = 0 ∨ i = 1 := by simpa using hperm.mem_iff.mp hi
      rcases hcases with rfl | rfl <;> rfl
    refine List.pairwise_map.mpr (List.Pairwise.imp_of_mem (R := fun _ _ ↦ True) ?_ ?_)
    · intro first second hfirst hsecond _
      rw [hsame first hfirst, hsame second hsecond]
    · exact List.pairwise_of_forall fun _ _ ↦ trivial
  words := by decide
  fits := by decide

/-- A map with too many modules is saved, and loaded as an empty one; and a place with two values
may be found with the other one. -/
theorem reloaded_answers_differ :
    (((crowdedMap (2 ^ 20 + 1)).save (fun _ ↦ true) Device.reliable).1 = true ∧
      (crowdedMap (2 ^ 20 + 1)).inRange 0x600000 0x600000 = [⟨0x600000, 0x400010⟩] ∧
      ∀ loaded, PointerMap.Loads
        ((crowdedMap (2 ^ 20 + 1)).save (fun _ ↦ true) Device.reliable).2 loaded →
        loaded.inRange 0x600000 0x600000 = []) ∧
    PointerMap.Loads ((twiceMap [0, 1] (by decide)).save (fun _ ↦ true) Device.reliable).2
      (twiceMap [1, 0] (by decide)) ∧
    (twiceMap [0, 1] (by decide)).resolve ⟨"game".toList, 0x400000, 0x10, [0]⟩ = 0x600000 ∧
    (twiceMap [1, 0] (by decide)).resolve ⟨"game".toList, 0x400000, 0x10, [0]⟩ = 0x700000 := by
  have hstorable : (twiceMap [0, 1] (by decide)).Storable := ⟨by decide, by decide, by decide⟩
  have hcount : (crowdedMap (2 ^ 20 + 1)).modules.length = 2 ^ 20 + 1 := List.length_replicate
  refine ⟨⟨save_reliable _ _, rfl, fun loaded hloads ↦ ?_⟩, ?_, by decide, by decide⟩
  · have hempty := loads_crowded (by rw [hcount]; decide) (by rw [hcount]; decide) hloads
    rw [PointerMap.inRange, hempty]
    rfl
  · exact (PointerMap.loads_saved_iff hstorable (save_reliable _ _) rfl).mpr ⟨.refl _, rfl⟩

end Cecore.Pointer
