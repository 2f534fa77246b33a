import Cecore.Library.CheckedBuffer

/-!
# PE exports and imports

`parsePEExports` and `parsePEImports` of `pe_exports.cpp` read a PE file that nobody vouches for:
its headers, its section table, and the tables that the section table maps into the file. Addresses
are 32-bit numbers whose sums wrap, and every read is checked against the file here.
-/

set_option autoImplicit false
set_option relaxedAutoImplicit false

namespace Cecore.Analysis.PeFile

open Library.CheckedBuffer

/-! ### The reader -/

/-- A sum of `uint32_t`. -/
def add32 (x y : ℕ) : ℕ := (x + y) % 2 ^ 32

/-- `Pe::Sec`. -/
structure Sec where
  rva : ℕ
  vsize : ℕ
  fileOff : ℕ
  fileSize : ℕ
  deriving DecidableEq, Repr

structure Pe where
  buf : Buffer
  secs : List Sec

/-- `PeDirs`. -/
structure PeDirs where
  pe64 : Bool
  exportRva : ℕ
  exportSize : ℕ
  importRva : ℕ
  importSize : ℕ
  deriving DecidableEq, Repr

/-- The sum is a `size_t`, which is tested for a wrap. -/
def inRange (b : Buffer) (o n : ℕ) : Bool := (o + n) % 2 ^ 64 ≤ b.size && o ≤ (o + n) % 2 ^ 64

namespace Pe

variable (pe : Pe)

def rvaToOff (rva : ℕ) : Option ℕ :=
  match pe.secs.find? fun s ↦ s.rva ≤ rva && rva < add32 s.rva (max s.vsize s.fileSize) with
  | none => none
  | some s =>
    let d := rva - s.rva
    if d < s.fileSize ∧ s.fileOff + d < pe.buf.size then some (s.fileOff + d) else none

/-- `u32AtRva` and `u16AtRva`, and the read of a 64-bit thunk, by the number of bytes. -/
def atRva (width rva : ℕ) : Checked (Option ℕ) :=
  match pe.rvaToOff rva with
  | none => pure none
  | some o =>
    if !inRange pe.buf o width then pure none
    else do
      let value ← pe.buf.readNat width o
      pure (some value)

/-- The loop of `cstrAtRva`, with `maxLen` bytes left. -/
def cstrFrom (o : ℕ) : (maxLen : ℕ) → Checked (List UInt8)
  | 0 => pure []
  | maxLen + 1 =>
    if o < pe.buf.size then do
      let c ← pe.buf.readNat 1 o
      if c = 0 then pure []
      else do
        let rest ← cstrFrom (o + 1) maxLen
        pure (UInt8.ofNat c :: rest)
    else pure []

def cstrAtRva (rva : ℕ) : Checked (List UInt8) :=
  match pe.rvaToOff rva with
  | none => pure []
  | some o => pe.cstrFrom o 512

end Pe

/-- The section headers, `left` of them, up to the first that does not fit the file. -/
def sections (b : Buffer) (secTbl : ℕ) : (k left : ℕ) → Checked (List Sec)
  | _, 0 => pure []
  | k, left + 1 =>
    let so := secTbl + k * 40
    if !inRange b so 40 then pure []
    else do
      let vsize ← b.readNat 4 (so + 8 : ℕ)
      let rva ← b.readNat 4 (so + 12 : ℕ)
      let fileSize ← b.readNat 4 (so + 16 : ℕ)
      let fileOff ← b.readNat 4 (so + 20 : ℕ)
      let rest ← sections b secTbl (k + 1) left
      pure (⟨rva, vsize, fileOff, fileSize⟩ :: rest)

/-- `loadPe` from the data directories on. -/
def loadDirs (b : Buffer) (opt optSize nSec dataDir : ℕ) (pe64 : Bool) :
    Checked (Option (Pe × PeDirs)) :=
  if !inRange b dataDir 16 then pure none
  else do
    let exportRva ← b.readNat 4 (dataDir : ℕ)
    let exportSize ← b.readNat 4 (dataDir + 4 : ℕ)
    let importRva ← b.readNat 4 (dataDir + 8 : ℕ)
    let importSize ← b.readNat 4 (dataDir + 12 : ℕ)
    let secs ← sections b (opt + optSize) 0 nSec
    pure (if secs.isEmpty then none
      else some (⟨b, secs⟩, ⟨pe64, exportRva, exportSize, importRva, importSize⟩))

/-- `loadPe`: none where it returns false. -/
def loadPe (b : Buffer) : Checked (Option (Pe × PeDirs)) :=
  if b.size < 0x40 then pure none
  else do
    let magic ← b.read 0 2
    if magic ≠ [0x4D, 0x5A] then pure none
    else do
      let e ← b.readNat 4 0x3C
      if !inRange b e 24 then pure none
      else do
        let signature ← b.read e 4
        if signature ≠ [0x50, 0x45, 0, 0] then pure none
        else do
          -- `e + 4` is a sum of `uint32_t`.
          let coff := add32 e 4
          if !inRange b coff 20 then pure none
          else do
            let nSec ← b.readNat 2 (coff + 2 : ℕ)
            let optSize ← b.readNat 2 (coff + 16 : ℕ)
            let opt := coff + 20
            if !inRange b opt optSize || optSize < 0x18 then pure none
            else do
              let magic ← b.readNat 2 (opt : ℕ)
              if magic = 0x20B then loadDirs b opt optSize nSec (opt + 0x70) true
              else if magic = 0x10B then loadDirs b opt optSize nSec (opt + 0x60) false
              else pure none

/-! ### Exports -/

structure PEExport where
  name : List UInt8
  ordinal : ℕ
  rva : ℕ := 0
  forward : List UInt8 := []
  deriving DecidableEq, Repr

/-- The fields of the `IMAGE_EXPORT_DIRECTORY`, with its place. -/
structure ExportDirectory where
  edRva : ℕ
  edSize : ℕ
  base : ℕ
  nFuncs : ℕ
  nNames : ℕ
  addrFuncs : ℕ
  addrNames : ℕ
  addrOrds : ℕ
  deriving DecidableEq, Repr

/-- What is made of the entries of a name: one whose function lies in the export directory is
forwarded. -/
def exportOf (pe : Pe) (dir : ExportDirectory) (nameRva ord funcRva : ℕ) : Checked PEExport := do
  let name ← pe.cstrAtRva nameRva
  if dir.edRva ≤ funcRva ∧ funcRva < add32 dir.edRva dir.edSize then do
    let forward ← pe.cstrAtRva funcRva
    pure { name, ordinal := add32 dir.base ord, forward }
  else pure { name, ordinal := add32 dir.base ord, rva := funcRva }

/-- The loop over the names, from `i` on, with `left` names left. -/
def exportLoop (pe : Pe) (dir : ExportDirectory) : (i left : ℕ) → Checked (List PEExport)
  | _, 0 => pure []
  | i, left + 1 => do
    let nameRva ← pe.atRva 4 (add32 dir.addrNames (i * 4))
    let ord ← pe.atRva 2 (add32 dir.addrOrds (i * 2))
    match nameRva, ord with
    | some nameRva, some ord =>
      if dir.nFuncs ≤ ord then exportLoop pe dir (i + 1) left
      else do
        let funcRva ← pe.atRva 4 (add32 dir.addrFuncs (ord * 4))
        match funcRva with
        | none => exportLoop pe dir (i + 1) left
        | some funcRva => do
          let ex ← exportOf pe dir nameRva ord funcRva
          let rest ← exportLoop pe dir (i + 1) left
          pure (ex :: rest)
    | _, _ => pure []

/-- The export directory, if it is mapped into the file. -/
def exportDirectory (pe : Pe) (dirs : PeDirs) : Checked (Option ExportDirectory) :=
  match pe.rvaToOff dirs.exportRva with
  | none => pure none
  | some ed =>
    if !inRange pe.buf ed 40 then pure none
    else do
      let base ← pe.buf.readNat 4 (ed + 0x10 : ℕ)
      let nFuncs ← pe.buf.readNat 4 (ed + 0x14 : ℕ)
      let nNames ← pe.buf.readNat 4 (ed + 0x18 : ℕ)
      let addrFuncs ← pe.buf.readNat 4 (ed + 0x1C : ℕ)
      let addrNames ← pe.buf.readNat 4 (ed + 0x20 : ℕ)
      let addrOrds ← pe.buf.readNat 4 (ed + 0x24 : ℕ)
      pure (some ⟨dirs.exportRva, dirs.exportSize, base, nFuncs, nNames, addrFuncs, addrNames,
        addrOrds⟩)

/-- `parsePEExports`; opening the file is a parameter. -/
def parsePEExports (files : List UInt8 → Option Buffer) (path : List UInt8) :
    Checked (List PEExport) :=
  match files path with
  | none => pure []
  | some b => do
    match ← loadPe b with
    | none => pure []
    | some (pe, dirs) =>
      if dirs.exportRva = 0 then pure []
      else do
        match ← exportDirectory pe dirs with
        | none => pure []
        | some dir =>
          if 1000000 < dir.nFuncs ∨ 1000000 < dir.nNames then pure []
          else exportLoop pe dir 0 dir.nNames

/-! ### Imports -/

structure PEImport where
  dll : List UInt8
  name : List UInt8 := []
  ordinal : ℕ := 0
  iatRva : ℕ
  deriving DecidableEq, Repr

/-- What is made of thunk `i`: by ordinal where its highest bit is set, otherwise by name. -/
def importOf (pe : Pe) (dirs : PeDirs) (dll : List UInt8) (ft i thunk : ℕ) : Checked PEImport :=
  let iatRva := add32 ft (i * if dirs.pe64 then 8 else 4)
  if thunk.testBit (if dirs.pe64 then 63 else 31) then
    pure { dll, ordinal := thunk % 2 ^ 16, iatRva }
  else do
    let name ← pe.cstrAtRva (add32 (thunk % 2 ^ 32) 2)
    pure { dll, name, iatRva }

/-- The loop over the thunks of a library, with `left` thunks left. -/
def thunkLoop (pe : Pe) (dirs : PeDirs) (dll : List UInt8) (iltRva ft : ℕ) :
    (i left : ℕ) → Checked (List PEImport)
  | _, 0 => pure []
  | i, left + 1 => do
    let width := if dirs.pe64 then 8 else 4
    let thunk ← pe.atRva width (add32 iltRva (i * width))
    match thunk with
    | none | some 0 => pure []
    | some thunk => do
      let im ← importOf pe dirs dll ft i thunk
      let rest ← thunkLoop pe dirs dll iltRva ft (i + 1) left
      pure (im :: rest)

/-- The loop over the import descriptors, with `left` descriptors left. -/
def descriptorLoop (pe : Pe) (dirs : PeDirs) : (d left : ℕ) → Checked (List PEImport)
  | _, 0 => pure []
  | d, left + 1 => do
    let base := add32 dirs.importRva (d * 20)
    let oft ← pe.atRva 4 base
    let nameRva ← pe.atRva 4 (add32 base 0x0C)
    let ft ← pe.atRva 4 (add32 base 0x10)
    match oft, nameRva, ft with
    | some oft, some nameRva, some ft =>
      if oft = 0 ∧ nameRva = 0 ∧ ft = 0 then pure []
      else do
        let dll ← pe.cstrAtRva nameRva
        let own ← thunkLoop pe dirs dll (if oft ≠ 0 then oft else ft) ft 0 100000
        let rest ← descriptorLoop pe dirs (d + 1) left
        pure (own ++ rest)
    | _, _, _ => pure []

/-- `parsePEImports`. -/
def parsePEImports (files : List UInt8 → Option Buffer) (path : List UInt8) :
    Checked (List PEImport) :=
  match files path with
  | none => pure []
  | some b => do
    match ← loadPe b with
    | none => pure []
    | some (pe, dirs) =>
      if dirs.importRva = 0 then pure []
      else descriptorLoop pe dirs 0 4096

/-! ### What the section table maps -/

/-- A section maps the address to the position, which is in the file. -/
def Maps (pe : Pe) (rva o : ℕ) : Prop :=
  ∃ s ∈ pe.secs, s.rva ≤ rva ∧ rva - s.rva < s.fileSize ∧ o = s.fileOff + (rva - s.rva) ∧
    o < pe.buf.size

/-- The number of a table entry, which begins at a position that is mapped and ends in the file. -/
def Entry (pe : Pe) (width rva value : ℕ) : Prop :=
  ∃ o, pe.rvaToOff rva = some o ∧ Maps pe rva o ∧ o + width ≤ pe.buf.size ∧
    pe.buf.nat width o = value

/-- The string at an address: up to a zero, 512 bytes, or the end of the file. -/
def cstring (pe : Pe) (rva : ℕ) : List UInt8 :=
  match pe.rvaToOff rva with
  | none => []
  | some o => (pe.buf.bytes o (min 512 (pe.buf.size - o))).takeWhile (· ≠ 0)

/-- An export was read from entry `i` of the names and of the ordinals, and from the entry of the
functions that the ordinal leads to. -/
structure Exported (pe : Pe) (dir : ExportDirectory) (ex : PEExport) (i nameRva ord funcRva : ℕ) :
    Prop where
  index : i < dir.nNames
  nameEntry : Entry pe 4 (add32 dir.addrNames (i * 4)) nameRva
  ordEntry : Entry pe 2 (add32 dir.addrOrds (i * 2)) ord
  inTable : ord < dir.nFuncs
  funcEntry : Entry pe 4 (add32 dir.addrFuncs (ord * 4)) funcRva
  name : ex.name = cstring pe nameRva
  ordinal : ex.ordinal = add32 dir.base ord
  target : ex.rva = funcRva ∧ ex.forward = [] ∨ ex.rva = 0 ∧ ex.forward = cstring pe funcRva

/-- An import was read from thunk `i` of descriptor `d`. -/
structure Imported (pe : Pe) (dirs : PeDirs) (im : PEImport) (d i nameRva ft iltRva thunk : ℕ) :
    Prop where
  nameEntry : Entry pe 4 (add32 (add32 dirs.importRva (d * 20)) 0x0C) nameRva
  ftEntry : Entry pe 4 (add32 (add32 dirs.importRva (d * 20)) 0x10) ft
  thunkEntry : Entry pe (if dirs.pe64 then 8 else 4)
    (add32 iltRva (i * if dirs.pe64 then 8 else 4)) thunk
  dll : im.dll = cstring pe nameRva
  iatRva : im.iatRva = add32 ft (i * if dirs.pe64 then 8 else 4)

section

variable {b : Buffer} {pe : Pe} {dirs : PeDirs} {dir : ExportDirectory}

/-- The test for a range is right, whether or not the sum wraps. -/
theorem le_of_inRange {o n : ℕ} (hn : n < 2 ^ 64) (h : inRange b o n = true) : o + n ≤ b.size := by
  rw [inRange, Bool.and_eq_true, decide_eq_true_iff, decide_eq_true_iff] at h
  obtain ⟨hle, hwrap⟩ := h
  have hlt : o + n < 2 ^ 64 := by
    by_contra hge
    have ho : o < 2 ^ 64 := hwrap.trans_lt (Nat.mod_lt _ (by decide))
    rw [Nat.mod_eq_sub_mod (not_lt.mp hge), Nat.mod_eq_of_lt (by omega)] at hwrap
    omega
  rwa [Nat.mod_eq_of_lt hlt] at hle

theorem inRange_of_not {o n : ℕ} (h : ¬(!inRange b o n) = true) : inRange b o n = true := by
  simpa using h

theorem maps_of_rvaToOff {rva o : ℕ} (h : pe.rvaToOff rva = some o) : Maps pe rva o := by
  unfold Pe.rvaToOff at h
  cases hfind : pe.secs.find? fun s ↦ s.rva ≤ rva && rva < add32 s.rva (max s.vsize s.fileSize) with
  | none =>
    rw [hfind] at h
    cases h
  | some s =>
    rw [hfind] at h
    dsimp only at h
    split_ifs at h with hin
    obtain rfl := Option.some.inj h
    have hfirst := List.find?_some hfind
    rw [Bool.and_eq_true, decide_eq_true_iff] at hfirst
    exact ⟨s, List.mem_of_find?_eq_some hfind, hfirst.1, hin.1, rfl, hin.2⟩

theorem atRva_runs (pe : Pe) {width : ℕ} (hwidth : width < 2 ^ 64) (rva : ℕ) :
    Runs (pe.atRva width rva) fun found ↦ ∀ value ∈ found, Entry pe width rva value := by
  unfold Pe.atRva
  cases hoff : pe.rvaToOff rva with
  | none => exact .ret fun value h ↦ by cases h
  | some o =>
    dsimp only
    split_ifs with hrange
    · exact .ret fun value h ↦ by cases h
    · have hend := le_of_inRange hwidth (inRange_of_not hrange)
      refine Runs.readNat o rfl hend (.ret ?_)
      rintro value ⟨⟩
      exact ⟨o, hoff, maps_of_rvaToOff hoff, hend, rfl⟩

theorem nat_one (b : Buffer) (o : ℕ) : b.nat 1 o = (b.byte o).toNat := by
  simp [Buffer.nat, Buffer.bytes, Library.LittleEndian.leNat]

theorem bytes_succ (b : Buffer) (o n : ℕ) : b.bytes o (n + 1) = b.byte o :: b.bytes (o + 1) n := by
  unfold Buffer.bytes
  rw [List.range_succ_eq_map, List.map_cons, List.map_map, Nat.add_zero]
  congr 1
  refine List.map_congr_left fun i _ ↦ ?_
  rw [Function.comp_apply, Nat.add_succ, Nat.succ_add]

theorem cstrFrom_runs (pe : Pe) (o maxLen : ℕ) : Runs (pe.cstrFrom o maxLen)
    (· = (pe.buf.bytes o (min maxLen (pe.buf.size - o))).takeWhile (· ≠ 0)) := by
  induction maxLen generalizing o with
  | zero =>
    rw [Nat.zero_min]
    exact .ret rfl
  | succ maxLen ih =>
    rw [Pe.cstrFrom]
    split_ifs with hin
    · refine Runs.readNat o rfl hin ?_
      have hcount : min (maxLen + 1) (pe.buf.size - o) =
          min maxLen (pe.buf.size - (o + 1)) + 1 := by omega
      rw [hcount, bytes_succ, nat_one]
      by_cases hzero : pe.buf.byte o = 0
      · rw [if_pos (by rw [hzero]; rfl), List.takeWhile_cons_of_neg (by simp [hzero])]
        exact .ret rfl
      · have hbyte : (pe.buf.byte o).toNat ≠ 0 := fun h ↦ hzero (UInt8.toNat_inj.mp h)
        rw [if_neg hbyte, List.takeWhile_cons_of_pos (by simpa using hzero)]
        refine (ih (o + 1)).bind fun rest hrest ↦ .ret ?_
        rw [hrest, UInt8.ofNat_toNat]
    · rw [Nat.sub_eq_zero_of_le (not_lt.mp hin), Nat.min_zero]
      exact .ret rfl

theorem cstrAtRva_runs (pe : Pe) (rva : ℕ) : Runs (pe.cstrAtRva rva) (· = cstring pe rva) := by
  unfold Pe.cstrAtRva cstring
  cases pe.rvaToOff rva with
  | none => exact .ret rfl
  | some o => exact cstrFrom_runs pe o 512

/-! ### The headers -/

theorem sections_runs (b : Buffer) (secTbl k left : ℕ) :
    Runs (sections b secTbl k left) fun _ ↦ True := by
  induction left generalizing k with
  | zero => exact .ret trivial
  | succ left ih =>
    rw [sections]
    split_ifs with hrange
    · exact .ret trivial
    · have hend := le_of_inRange (by decide) (inRange_of_not hrange)
      refine Runs.readNat _ rfl (by omega) ?_
      refine Runs.readNat _ rfl (by omega) ?_
      refine Runs.readNat _ rfl (by omega) ?_
      refine Runs.readNat _ rfl (by omega) ?_
      exact (ih (k + 1)).bind fun rest _ ↦ .ret trivial

theorem loadDirs_runs (b : Buffer) (opt optSize nSec dataDir : ℕ) (pe64 : Bool) :
    Runs (loadDirs b opt optSize nSec dataDir pe64) fun _ ↦ True := by
  unfold loadDirs
  split_ifs with hrange
  · exact .ret trivial
  · have hend := le_of_inRange (by decide) (inRange_of_not hrange)
    refine Runs.readNat _ rfl (by omega) ?_
    refine Runs.readNat _ rfl (by omega) ?_
    refine Runs.readNat _ rfl (by omega) ?_
    refine Runs.readNat _ rfl (by omega) ?_
    exact (sections_runs ..).bind fun secs _ ↦ .ret trivial

theorem loadPe_runs (b : Buffer) : Runs (loadPe b) fun _ ↦ True := by
  unfold loadPe
  split_ifs with hshort
  · exact .ret trivial
  · rw [Buffer.read_ok (by decide) (by omega), ok_bind]
    split_ifs with hmagic
    · exact .ret trivial
    · refine Runs.readNat 0x3C rfl (by omega) ?_
      generalize b.nat 4 0x3C = e
      split_ifs with hrange
      · exact .ret trivial
      · have hend := le_of_inRange (by decide) (inRange_of_not hrange)
        rw [Buffer.read_ok (by omega) (by omega), ok_bind]
        dsimp only
        split_ifs with hsignature hcoff
        · exact .ret trivial
        · exact .ret trivial
        · have hcoffEnd := le_of_inRange (by decide) (inRange_of_not hcoff)
          refine Runs.readNat _ rfl (by omega) ?_
          refine Runs.readNat _ rfl (by omega) ?_
          have hoptSize : b.nat 2 (add32 e 4 + 16) < 2 ^ 16 := Buffer.nat_lt 2 _
          generalize b.nat 2 (add32 e 4 + 16) = optSize at hoptSize
          change Runs (if _ then _ else _) _
          split_ifs with hopt
          · exact .ret trivial
          · rw [Bool.or_eq_true, decide_eq_true_iff, not_or] at hopt
            have hoptEnd := le_of_inRange (by omega) (inRange_of_not hopt.1)
            refine Runs.readNat _ rfl (by omega) ?_
            split_ifs
            · exact loadDirs_runs ..
            · exact loadDirs_runs ..
            · exact .ret trivial

/-! ### The tables -/

theorem exportDirectory_runs (pe : Pe) (dirs : PeDirs) :
    Runs (exportDirectory pe dirs) fun _ ↦ True := by
  unfold exportDirectory
  cases pe.rvaToOff dirs.exportRva with
  | none => exact .ret trivial
  | some ed =>
    dsimp only
    split_ifs with hrange
    · exact .ret trivial
    · have hend := le_of_inRange (by decide) (inRange_of_not hrange)
      refine Runs.readNat _ rfl (by omega) ?_
      refine Runs.readNat _ rfl (by omega) ?_
      refine Runs.readNat _ rfl (by omega) ?_
      refine Runs.readNat _ rfl (by omega) ?_
      refine Runs.readNat _ rfl (by omega) ?_
      refine Runs.readNat _ rfl (by omega) ?_
      exact .ret trivial

theorem exportOf_runs (pe : Pe) (dir : ExportDirectory) (nameRva ord funcRva : ℕ) :
    Runs (exportOf pe dir nameRva ord funcRva) fun ex ↦
      ex.name = cstring pe nameRva ∧ ex.ordinal = add32 dir.base ord ∧
        (ex.rva = funcRva ∧ ex.forward = [] ∨ ex.rva = 0 ∧ ex.forward = cstring pe funcRva) := by
  unfold exportOf
  refine (cstrAtRva_runs pe nameRva).bind fun name hname ↦ ?_
  split_ifs
  · refine (cstrAtRva_runs pe funcRva).bind fun forward hforward ↦ .ret ?_
    exact ⟨hname, rfl, .inr ⟨rfl, hforward⟩⟩
  · exact .ret ⟨hname, rfl, .inl ⟨rfl, rfl⟩⟩

/-- The loop ends after as many turns as there are names, and each of its exports has its entries. -/
theorem exportLoop_runs (pe : Pe) (dir : ExportDirectory) {i left : ℕ}
    (hend : i + left ≤ dir.nNames) : Runs (exportLoop pe dir i left) fun exports ↦
      ∀ ex ∈ exports, ∃ i nameRva ord funcRva, Exported pe dir ex i nameRva ord funcRva := by
  induction left generalizing i with
  | zero => exact .ret fun ex h ↦ by cases h
  | succ left ih =>
    have hrest := ih (i := i + 1) (by omega)
    rw [exportLoop]
    refine (atRva_runs pe (by decide) _).bind fun nameFound hname ↦ ?_
    refine (atRva_runs pe (by decide) _).bind fun ordFound hord ↦ ?_
    cases nameFound with
    | none => exact .ret fun ex h ↦ by cases h
    | some nameRva =>
      cases ordFound with
      | none => exact .ret fun ex h ↦ by cases h
      | some ord =>
        dsimp only
        split_ifs with htable
        · exact hrest
        · refine (atRva_runs pe (by decide) _).bind fun funcFound hfunc ↦ ?_
          cases funcFound with
          | none => exact hrest
          | some funcRva =>
            refine (exportOf_runs pe dir nameRva ord funcRva).bind fun ex hex ↦ ?_
            refine hrest.bind fun rest hrest ↦ .ret ?_
            intro other hother
            rcases List.mem_cons.mp hother with rfl | hother
            · exact ⟨i, nameRva, ord, funcRva, by omega, hname _ rfl, hord _ rfl, not_le.mp htable,
                hfunc _ rfl, hex.1, hex.2.1, hex.2.2⟩
            · exact hrest other hother

theorem importOf_runs (pe : Pe) (dirs : PeDirs) (dll : List UInt8) (ft i thunk : ℕ) :
    Runs (importOf pe dirs dll ft i thunk) fun im ↦
      im.dll = dll ∧ im.iatRva = add32 ft (i * if dirs.pe64 then 8 else 4) := by
  unfold importOf
  dsimp only
  split_ifs
  · exact .ret ⟨rfl, rfl⟩
  · exact (cstrAtRva_runs pe _).bind fun name _ ↦ .ret ⟨rfl, rfl⟩
  · exact .ret ⟨rfl, rfl⟩
  · exact (cstrAtRva_runs pe _).bind fun name _ ↦ .ret ⟨rfl, rfl⟩

theorem thunkLoop_runs (pe : Pe) (dirs : PeDirs) {d nameRva ft : ℕ} (iltRva : ℕ)
    (hname : Entry pe 4 (add32 (add32 dirs.importRva (d * 20)) 0x0C) nameRva)
    (hft : Entry pe 4 (add32 (add32 dirs.importRva (d * 20)) 0x10) ft) (i left : ℕ) :
    Runs (thunkLoop pe dirs (cstring pe nameRva) iltRva ft i left) fun imports ↦ ∀ im ∈ imports,
      ∃ d i nameRva ft iltRva thunk, Imported pe dirs im d i nameRva ft iltRva thunk := by
  induction left generalizing i with
  | zero => exact .ret fun im h ↦ by cases h
  | succ left ih =>
    rw [thunkLoop]
    have hwidth : (if dirs.pe64 then 8 else 4) < 2 ^ 64 := by split_ifs <;> decide
    refine (atRva_runs pe hwidth _).bind fun found hthunk ↦ ?_
    rcases found with _ | _ | thunk
    · exact .ret fun im h ↦ by cases h
    · exact .ret fun im h ↦ by cases h
    · refine (importOf_runs pe dirs _ ft i (thunk + 1)).bind fun im him ↦ ?_
      refine (ih (i + 1)).bind fun rest hrest ↦ .ret ?_
      intro other hother
      rcases List.mem_cons.mp hother with rfl | hother
      · exact ⟨d, i, nameRva, ft, iltRva, thunk + 1, hname, hft, hthunk _ rfl, him.1, him.2⟩
      · exact hrest other hother

theorem descriptorLoop_runs (pe : Pe) (dirs : PeDirs) (d left : ℕ) :
    Runs (descriptorLoop pe dirs d left) fun imports ↦ ∀ im ∈ imports,
      ∃ d i nameRva ft iltRva thunk, Imported pe dirs im d i nameRva ft iltRva thunk := by
  induction left generalizing d with
  | zero => exact .ret fun im h ↦ by cases h
  | succ left ih =>
    rw [descriptorLoop]
    refine (atRva_runs pe (by decide) _).bind fun oftFound _ ↦ ?_
    refine (atRva_runs pe (by decide) _).bind fun nameFound hname ↦ ?_
    refine (atRva_runs pe (by decide) _).bind fun ftFound hft ↦ ?_
    cases oftFound with
    | none => exact .ret fun im h ↦ by cases h
    | some oft =>
      cases nameFound with
      | none => exact .ret fun im h ↦ by cases h
      | some nameRva =>
        cases ftFound with
        | none => exact .ret fun im h ↦ by cases h
        | some ft =>
          dsimp only
          split_ifs
          · exact .ret fun im h ↦ by cases h
          all_goals
            refine (cstrAtRva_runs pe nameRva).bind fun dll hdll ↦ ?_
            subst hdll
            refine (thunkLoop_runs pe dirs _ (hname _ rfl) (hft _ rfl) 0 100000).bind fun own hown ↦ ?_
            refine (ih (d + 1)).bind fun rest hrest ↦ .ret ?_
            intro im him
            exact (List.mem_append.mp him).elim (hown im) (hrest im)

/-! ### The reader -/

/-- Every export of the result has its entries in the tables of the file. -/
def ExportsFromTables (files : List UInt8 → Option Buffer) (path : List UInt8)
    (exports : List PEExport) : Prop :=
  ∀ ex ∈ exports, ∃ b pe dirs dir i nameRva ord funcRva, files path = some b ∧
    loadPe b = .ok (some (pe, dirs)) ∧ exportDirectory pe dirs = .ok (some dir) ∧
      Exported pe dir ex i nameRva ord funcRva

def ImportsFromTables (files : List UInt8 → Option Buffer) (path : List UInt8)
    (imports : List PEImport) : Prop :=
  ∀ im ∈ imports, ∃ b pe dirs d i nameRva ft iltRva thunk, files path = some b ∧
    loadPe b = .ok (some (pe, dirs)) ∧ Imported pe dirs im d i nameRva ft iltRva thunk

/-- Both parsers come to an end for every file, without a read outside of it, and what they return
stands in the tables that the section table maps. -/
theorem parsePE_within (files : List UInt8 → Option Buffer) (path : List UInt8) :
    Runs (parsePEExports files path) (ExportsFromTables files path) ∧
      Runs (parsePEImports files path) (ImportsFromTables files path) := by
  have hexports : Runs (pure []) (ExportsFromTables files path) := .ret fun ex h ↦ by cases h
  have himports : Runs (pure []) (ImportsFromTables files path) := .ret fun im h ↦ by cases h
  unfold parsePEExports parsePEImports
  cases hfile : files path with
  | none => exact And.intro hexports himports
  | some b =>
    obtain ⟨loaded, hloaded, -⟩ := loadPe_runs b
    dsimp only
    rw [hloaded]
    cases loaded with
    | none => exact And.intro hexports himports
    | some image =>
      obtain ⟨pe, dirs⟩ := image
      constructor
      · change Runs (if _ then _ else _) _
        split_ifs
        · exact hexports
        · obtain ⟨found, hfound, -⟩ := exportDirectory_runs pe dirs
          rw [hfound]
          cases found with
          | none => exact hexports
          | some dir =>
            change Runs (if _ then _ else _) _
            split_ifs
            · exact hexports
            · refine (exportLoop_runs pe dir (by omega)).mono fun exports hentries ex hex ↦ ?_
              obtain ⟨i, nameRva, ord, funcRva, h⟩ := hentries ex hex
              exact ⟨b, pe, dirs, dir, i, nameRva, ord, funcRva, hfile, hloaded, hfound, h⟩
      · change Runs (if _ then _ else _) _
        split_ifs
        · exact himports
        · refine (descriptorLoop_runs pe dirs 0 4096).mono fun imports hentries im him ↦ ?_
          obtain ⟨d, i, nameRva, ft, iltRva, thunk, h⟩ := hentries im him
          exact ⟨b, pe, dirs, d, i, nameRva, ft, iltRva, thunk, hfile, hloaded, h⟩

end

end Cecore.Analysis.PeFile
