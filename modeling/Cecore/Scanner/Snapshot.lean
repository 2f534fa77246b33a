import Cecore.Library.ByteStream
import Cecore.Library.FileStream
import Cecore.Platform.ProcessHandle

/-!
# Snapshots of a process

`scanner/snapshot.cpp`: a snapshot of the writable regions, the file it is saved in, and the loading
of such a file. The reader takes at most `2^24` regions of at most `2^28` bytes and the writer has
no bounds, so that what is saved comes back exactly where the snapshot is within them; and a file
that breaks off behind its header leaves the regions in front of the place in the object
(`snapshot_file_iff`).
-/

set_option autoImplicit false
set_option relaxedAutoImplicit false

namespace Cecore.Scanner

open Library.ByteStream Library.FileStream Library.LittleEndian Platform

structure SnapshotRegion where
  base : UInt64
  size : UInt64
  protection : UInt32
  bytes : List UInt8
  deriving DecidableEq, Repr

structure Snapshot where
  regions : List SnapshotRegion
  deriving DecidableEq, Repr

namespace Snapshot

/-! ### Capturing -/

/-- The regions of a snapshot that may still take so many bytes. -/
def captureRegions (proc : ProcessHandle) : List MemoryRegion → (budget : ℕ) → List SnapshotRegion
  | [], _ => []
  | r :: rest, budget =>
    if !r.protection.has MemProt.write then captureRegions proc rest budget
    else if r.size = 0 then captureRegions proc rest budget
    else
      let take := min r.size budget
      if take = 0 then []
      else
        match proc.read r.base take with
        | none => captureRegions proc rest budget
        | some got =>
          let saved : SnapshotRegion :=
            ⟨UInt64.ofNat r.base, UInt64.ofNat r.size, UInt32.ofNat r.protection, got⟩
          if budget - got.length = 0 then [saved]
          else saved :: captureRegions proc rest (budget - got.length)

/-- `capture`. -/
def capture (proc : ProcessHandle) (maxBytes : ℕ) : Snapshot :=
  ⟨captureRegions proc proc.queryRegions maxBytes⟩

/-! ### Files -/

/-- `CESNAP01`. -/
def kSnapshotMagic : List UInt8 := [67, 69, 83, 78, 65, 80, 48, 49]

/-- The calls that write a region. Its count of bytes is written, and taken, modulo `2^32`. -/
def regionPieces (r : SnapshotRegion) : List (List UInt8) :=
  let byteCount := r.bytes.length % 2 ^ 32
  [toLE 8 r.base.toNat, toLE 8 r.size.toNat, toLE 4 r.protection.toNat, toLE 4 byteCount] ++
    if 0 < byteCount then [r.bytes.take byteCount] else []

/-- `save`: whether it succeeds, and the file. -/
def save (s : Snapshot) (device : Device) : Bool × Option (List UInt8) :=
  device.writeFile ([kSnapshotMagic, toLE 4 (s.regions.length % 2 ^ 32)] ++
    s.regions.flatMap regionPieces)

/-- One turn of the loop of `load`. -/
def loadRegion (f : List UInt8) : Except Text (SnapshotRegion × List UInt8) :=
  let fields := do
    let (base, f) ← recv64 f
    let (size, f) ← recv64 f
    let (prot, f) ← recv32 f
    let (byteCount, f) ← recv32 f
    some ((base, size, prot, byteCount), f)
  match fields with
  | none => .error "truncated record".toList
  | some ((base, size, protection, byteCount), f) =>
    if 2 ^ 28 < byteCount.toNat then .error "byte count out of range".toList
    else
      match recvBytes byteCount.toNat f with
      | none => .error "truncated bytes".toList
      | some (bytes, f) => .ok (⟨base, size, protection, bytes⟩, f)

/-- The loop of `load`, with the regions that the object has. -/
def loadRegions : (count : ℕ) → List UInt8 → List SnapshotRegion → List SnapshotRegion × Option Text
  | 0, _, regions => (regions, none)
  | count + 1, f, regions =>
    match loadRegion f with
    | .error msg => (regions, some msg)
    | .ok (r, f) => loadRegions count f (regions ++ [r])

/-- `load`: the object, and the error. -/
def load (file : Option (List UInt8)) (s : Snapshot) : Snapshot × Option Text :=
  match file with
  | none => (s, some "open failed".toList)
  | some f =>
    match recvBytes 8 f with
    | none => (s, some "bad magic".toList)
    | some (magic, f) =>
      if magic ≠ kSnapshotMagic then (s, some "bad magic".toList)
      else
        match recv32 f with
        | none => (s, some "truncated header".toList)
        | some (count, f) =>
          if 2 ^ 24 < count.toNat then (s, some "region count too large".toList)
          else
            let loaded := loadRegions count.toNat f []
            (⟨loaded.1⟩, loaded.2)

/-! ### What can be read back -/

/-- A region as it is in a file. -/
def encodeRegion (r : SnapshotRegion) : List UInt8 :=
  toLE 8 r.base.toNat ++ toLE 8 r.size.toNat ++ toLE 4 r.protection.toNat ++ toLE 4 r.bytes.length ++
    r.bytes

def header (count : ℕ) : List UInt8 := kSnapshotMagic ++ toLE 4 count

/-- The reader takes as many bytes for a region. -/
def SmallRegion (r : SnapshotRegion) : Prop := r.bytes.length ≤ 2 ^ 28

/-- The reader takes as many regions, and as many bytes for each. -/
structure Loadable (s : Snapshot) : Prop where
  count : s.regions.length ≤ 2 ^ 24
  bytes : ∀ r ∈ s.regions, SmallRegion r

/-- A file with the header of a snapshot that breaks off, or goes on with something else, behind
these of its regions. -/
def BreaksAfter (f : List UInt8) (regions : List SnapshotRegion) : Prop :=
  ∃ count tail, f = header count ++ regions.flatMap encodeRegion ++ tail ∧ count ≤ 2 ^ 24 ∧
    regions.length < count ∧ (∀ r ∈ regions, SmallRegion r) ∧
    ∀ r rest, SmallRegion r → tail ≠ encodeRegion r ++ rest

/-! ### One region -/

variable {r : SnapshotRegion} {s held : Snapshot} {f rest tail : List UInt8}
  {regions loaded : List SnapshotRegion} {count : ℕ}

theorem small_lt (hsmall : SmallRegion r) : r.bytes.length < 2 ^ 32 :=
  lt_of_le_of_lt hsmall (by decide)

/-- A region that can be read back is written as it is. -/
theorem flatten_regionPieces (hsmall : SmallRegion r) : (regionPieces r).flatten = encodeRegion r := by
  have hcount : r.bytes.length % 2 ^ 32 = r.bytes.length := Nat.mod_eq_of_lt (small_lt hsmall)
  unfold regionPieces encodeRegion
  dsimp only
  rw [hcount, List.take_length]
  by_cases hempty : 0 < r.bytes.length
  · rw [if_pos hempty]
    simp
  · have hnil : r.bytes = [] := List.eq_nil_of_length_eq_zero (Nat.eq_zero_of_not_pos hempty)
    rw [if_neg hempty, hnil]
    simp

theorem loadRegion_encodeRegion (hsmall : SmallRegion r) (rest : List UInt8) :
    loadRegion (encodeRegion r ++ rest) = .ok (r, rest) := by
  have hcount : (UInt32.ofNat r.bytes.length).toNat = r.bytes.length :=
    UInt32.toNat_ofNat_of_lt' (small_lt hsmall)
  have hbytes : ∀ rest, recv32 (toLE 4 r.bytes.length ++ rest) =
      some (UInt32.ofNat r.bytes.length, rest) := by
    intro rest
    have hread := decodes_recv32 (UInt32.ofNat r.bytes.length) rest
    rwa [hcount] at hread
  unfold loadRegion encodeRegion
  simp only [List.append_assoc, decodes_recv64 r.base _, decodes_recv64 r.size _,
    decodes_recv32 r.protection _, hbytes, Option.bind_eq_bind, Option.bind_some, hcount]
  rw [if_neg (Nat.not_lt.mpr hsmall), decodes_recvBytes r.bytes rest]

theorem of_loadRegion (h : loadRegion f = .ok (r, rest)) :
    f = encodeRegion r ++ rest ∧ SmallRegion r := by
  unfold loadRegion at h
  dsimp only at h
  split at h
  · cases h
  · next base size protection byteCount f₄ hfields =>
    simp only [Option.bind_eq_bind, Option.bind_eq_some_iff, Option.some.injEq, Prod.mk.injEq,
      Prod.exists] at hfields
    obtain ⟨base', f₁, hbase, size', f₂, hsize, prot', f₃, hprot, count', f₄', hcount, hsame, rfl⟩ :=
      hfields
    obtain ⟨rfl, rfl, rfl, rfl⟩ := hsame
    split_ifs at h with hlarge
    split at h
    · cases h
    · next bytes left hbytes =>
      obtain ⟨hleft, hlength⟩ := recovers_recvBytes hbytes
      obtain ⟨rfl, rfl⟩ := Prod.mk.inj (Except.ok.inj h)
      refine ⟨?_, hlength.trans_le (Nat.not_lt.mp hlarge)⟩
      rw [recovers_recv64 hbase, recovers_recv64 hsize, recovers_recv32 hprot,
        recovers_recv32 hcount, hleft, encodeRegion, hlength]
      simp only [List.append_assoc]

/-! ### The regions of a file -/

theorem loadRegions_encode (hsmall : ∀ r ∈ regions, SmallRegion r) (count : ℕ) (tail : List UInt8)
    (loaded : List SnapshotRegion) :
    loadRegions (regions.length + count) (regions.flatMap encodeRegion ++ tail) loaded =
      loadRegions count tail (loaded ++ regions) := by
  induction regions generalizing loaded with
  | nil => simp
  | cons r regions ih =>
    have hcount : (r :: regions).length + count = regions.length + count + 1 := by
      rw [List.length_cons, Nat.add_right_comm]
    rw [hcount, loadRegions, List.flatMap_cons, List.append_assoc,
      loadRegion_encodeRegion (hsmall r List.mem_cons_self)]
    dsimp only
    rw [ih fun other hother ↦ hsmall other (List.mem_cons_of_mem _ hother), List.append_assoc]
    rfl

/-- The loop takes the regions at the front of a file, as many as it should or up to something that
is none. -/
theorem loadRegions_spec (count : ℕ) (f : List UInt8) (loaded : List SnapshotRegion) :
    ∃ regions tail, f = regions.flatMap encodeRegion ++ tail ∧ (∀ r ∈ regions, SmallRegion r) ∧
      (loadRegions count f loaded).1 = loaded ++ regions ∧
      ((loadRegions count f loaded).2 = none ∧ regions.length = count ∨
        (loadRegions count f loaded).2 ≠ none ∧ regions.length < count ∧
          ∀ r rest, SmallRegion r → tail ≠ encodeRegion r ++ rest) := by
  induction count generalizing f loaded with
  | zero => exact ⟨[], f, rfl, List.forall_mem_nil _, (List.append_nil _).symm, .inl ⟨rfl, rfl⟩⟩
  | succ count ih =>
    unfold loadRegions
    cases hfirst : loadRegion f with
    | error msg =>
      refine ⟨[], f, rfl, List.forall_mem_nil _, (List.append_nil _).symm, .inr ⟨?_, ?_, ?_⟩⟩
      · exact Option.some_ne_none msg
      · exact Nat.succ_pos count
      · intro r rest hsmall hfalse
        rw [hfalse, loadRegion_encodeRegion hsmall] at hfirst
        cases hfirst
    | ok found =>
      obtain ⟨r, f'⟩ := found
      obtain ⟨hf, hr⟩ := of_loadRegion hfirst
      obtain ⟨regions, tail, hf', hsmall, hloaded, hend⟩ := ih f' (loaded ++ [r])
      dsimp only
      refine ⟨r :: regions, tail, ?_, List.forall_mem_cons.mpr ⟨hr, hsmall⟩, ?_, ?_⟩
      · rw [hf, hf', List.flatMap_cons, List.append_assoc]
      · rw [hloaded, List.append_assoc]
        rfl
      · rw [List.length_cons]
        exact hend.imp (And.imp_right (congrArg (· + 1)))
          (And.imp_right (And.imp_left Nat.succ_lt_succ))

/-! ### Whole files -/

theorem header_append (hcount : count ≤ 2 ^ 24) (held : Snapshot) (f : List UInt8) :
    load (some (header count ++ f)) held =
      (⟨(loadRegions count f []).1⟩, (loadRegions count f []).2) := by
  have hvalue : (UInt32.ofNat count).toNat = count :=
    UInt32.toNat_ofNat_of_lt' (lt_of_le_of_lt hcount (by decide))
  have hmagic : recvBytes 8 (kSnapshotMagic ++ (toLE 4 count ++ f)) =
      some (kSnapshotMagic, toLE 4 count ++ f) := decodes_recvBytes kSnapshotMagic _
  have hread : recv32 (toLE 4 count ++ f) = some (UInt32.ofNat count, f) := by
    have hread := decodes_recv32 (UInt32.ofNat count) f
    rwa [hvalue] at hread
  unfold load header
  rw [List.append_assoc]
  dsimp only
  rw [hmagic]
  dsimp only
  rw [if_neg (fun hfalse ↦ hfalse rfl), hread]
  dsimp only
  rw [hvalue, if_neg (Nat.not_lt.mpr hcount)]

/-- Only a file with a header changes the object. -/
theorem load_cases (f : List UInt8) (held : Snapshot) :
    ((load (some f) held).1 = held ∧ (load (some f) held).2 ≠ none) ∨
      ∃ count rest, count ≤ 2 ^ 24 ∧ f = header count ++ rest := by
  unfold load
  dsimp only
  split
  · exact .inl ⟨rfl, Option.some_ne_none _⟩
  · next magic f₁ hmagic =>
    split_ifs with hdifferent
    · exact .inl ⟨rfl, Option.some_ne_none _⟩
    · split
      · exact .inl ⟨rfl, Option.some_ne_none _⟩
      · next count f₂ hcount =>
        split_ifs with hlarge
        · exact .inl ⟨rfl, Option.some_ne_none _⟩
        · refine .inr ⟨count.toNat, f₂, Nat.not_lt.mp hlarge, ?_⟩
          rw [(recovers_recvBytes hmagic).1, recovers_recv32 hcount, not_not.mp hdifferent, header,
            List.append_assoc]

/-- A snapshot is loaded from the files that begin with it. -/
theorem load_eq_iff : load (some f) held = (s, none) ↔
    Loadable s ∧ ∃ rest, f = header s.regions.length ++ s.regions.flatMap encodeRegion ++ rest := by
  constructor
  · intro h
    rcases load_cases f held with ⟨-, hfails⟩ | ⟨count, rest, hcount, rfl⟩
    · rw [h] at hfails
      exact absurd rfl hfails
    · rw [header_append hcount] at h
      obtain ⟨regions, tail, hrest, hsmall, hloaded, hend⟩ := loadRegions_spec count rest []
      obtain ⟨hregions, herror⟩ := Prod.mk.inj h
      rw [hloaded, List.nil_append] at hregions
      subst hregions
      rcases hend with ⟨-, rfl⟩ | ⟨hfails, -, -⟩
      · refine ⟨⟨hcount, hsmall⟩, tail, ?_⟩
        rw [hrest, List.append_assoc]
      · exact absurd herror hfails
  · rintro ⟨hloadable, rest, rfl⟩
    have hregions := loadRegions_encode hloadable.bytes 0 rest []
    rw [Nat.add_zero, List.nil_append] at hregions
    rw [List.append_assoc, header_append hloadable.count, hregions]
    rfl

/-- A file that breaks off leaves the regions in front of the place. -/
theorem load_breaks (h : BreaksAfter f regions) :
    (load (some f) held).1 = ⟨regions⟩ ∧ (load (some f) held).2 ≠ none := by
  obtain ⟨count, tail, rfl, hcount, hlength, hsmall, htail⟩ := h
  obtain ⟨more, hmore⟩ := Nat.exists_eq_add_of_lt hlength
  have hregions := loadRegions_encode hsmall (more + 1) tail []
  rw [List.nil_append, ← Nat.add_assoc, ← hmore] at hregions
  rw [List.append_assoc, header_append hcount, hregions, loadRegions]
  cases hnext : loadRegion tail with
  | error msg => exact ⟨rfl, Option.some_ne_none _⟩
  | ok found =>
    obtain ⟨r, rest⟩ := found
    obtain ⟨hfalse, hr⟩ := of_loadRegion hnext
    exact absurd hfalse (htail r rest hr)

/-- A load that fails leaves the object as it was, or the file breaks off. -/
theorem load_fails (h : (load (some f) held).2 ≠ none) :
    (load (some f) held).1 = held ∨ BreaksAfter f (load (some f) held).1.regions := by
  rcases load_cases f held with ⟨hsame, -⟩ | ⟨count, rest, hcount, rfl⟩
  · exact .inl hsame
  · obtain ⟨regions, tail, hrest, hsmall, hloaded, hend⟩ := loadRegions_spec count rest []
    rw [header_append hcount] at h ⊢
    rw [hloaded]
    rcases hend with ⟨hnone, -⟩ | ⟨-, hlength, htail⟩
    · exact absurd hnone h
    · refine .inr ⟨count, tail, ?_, hcount, hlength, hsmall, htail⟩
      rw [hrest, List.append_assoc]
      rfl

/-! ### Saving -/

/-- A snapshot that can be read back is written as it is. -/
theorem flatten_pieces (hloadable : Loadable s) :
    ([kSnapshotMagic, toLE 4 (s.regions.length % 2 ^ 32)] ++ s.regions.flatMap regionPieces).flatten =
      header s.regions.length ++ s.regions.flatMap encodeRegion := by
  have hcount : s.regions.length % 2 ^ 32 = s.regions.length :=
    Nat.mod_eq_of_lt (lt_of_le_of_lt hloadable.count (by decide))
  have hregions : (s.regions.flatMap regionPieces).flatten = s.regions.flatMap encodeRegion := by
    rw [flatten_flatMap]
    exact List.flatMap_congr fun r hr ↦ flatten_regionPieces (hloadable.bytes r hr)
  rw [List.flatten_append, hregions, hcount]
  simp [header]

/-- What was saved is loaded again exactly if the reader takes as much and nothing was lost when the
file was closed. -/
theorem load_save_iff {device : Device} (hsaved : (save s device).1 = true) :
    load (save s device).2 held = (s, none) ↔ Loadable s ∧ device.loses = 0 := by
  have hfile := Device.written_of_ok hsaved
  unfold save at hfile ⊢
  rw [hfile]
  constructor
  · intro h
    obtain ⟨hloadable, rest, hrest⟩ := load_eq_iff.mp h
    refine ⟨hloadable, ?_⟩
    rw [flatten_pieces hloadable] at hrest
    have hlength := congrArg List.length hrest
    have hpositive : 0 < (header s.regions.length).length := by
      rw [header, List.length_append]
      exact Nat.lt_add_right _ (by decide)
    simp only [List.length_take, List.length_append] at hlength hpositive
    omega
  · rintro ⟨hloadable, hkeeps⟩
    rw [hkeeps, Nat.sub_zero, List.take_length, flatten_pieces hloadable]
    exact load_eq_iff.mpr ⟨hloadable, [], (List.append_nil _).symm⟩

/-- A saved snapshot comes back exactly if it is within the bounds of the reader and the file was
kept; and a load that fails leaves the object as it was exactly if the file does not break off
behind other regions than those of the object. -/
theorem snapshot_file_iff (proc : ProcessHandle) (maxBytes : ℕ) (device : Device) (held : Snapshot)
    (file : Option (List UInt8)) (hsaved : (save (capture proc maxBytes) device).1 = true) :
    (load (save (capture proc maxBytes) device).2 held = (capture proc maxBytes, none) ↔
      Loadable (capture proc maxBytes) ∧ device.loses = 0) ∧
    (((load file held).2 ≠ none → (load file held).1 = held) ↔
      ∀ f regions, file = some f → BreaksAfter f regions → held.regions = regions) := by
  refine ⟨load_save_iff hsaved, ?_, ?_⟩
  · rintro hatomic f regions rfl hbreaks
    obtain ⟨hleft, hfails⟩ : (load (some f) held).1 = ⟨regions⟩ ∧ (load (some f) held).2 ≠ none :=
      load_breaks hbreaks
    exact congrArg Snapshot.regions ((hatomic hfails).symm.trans hleft)
  · intro hsame hfails
    cases file with
    | none => rfl
    | some f =>
      refine (load_fails hfails).elim id fun hbreaks ↦ ?_
      have hregions := hsame f _ rfl hbreaks
      exact (congrArg Snapshot.mk hregions).symm

/-- A process with one writable region of so many zeros. -/
def zeroProcess (size : ℕ) : ProcessHandle where
  memory := fun _ ↦ some 0
  queryRegions := [{ base := 0x10000, size := size, protection := 3 }]
  pagemap := fun _ ↦ none
  supportsConcurrentReads := false

/-- Two bytes are saved and loaded, and a file without its region is not. -/
theorem snapshot_file_pair :
    load (save (capture (zeroProcess 2) 16) Device.reliable).2 ⟨[]⟩ =
      (capture (zeroProcess 2) 16, none) ∧
      ((load (some (header 1)) ⟨[]⟩).2 ≠ none → (load (some (header 1)) ⟨[]⟩).1 = ⟨[]⟩) := by
  have hiff := snapshot_file_iff (zeroProcess 2) 16 Device.reliable ⟨[]⟩ (some (header 1)) (by decide)
  refine ⟨hiff.1.mpr ⟨⟨by decide, fun r hr ↦ ?_⟩, rfl⟩, fun _ ↦ by decide⟩
  have hbytes : ∀ r ∈ (capture (zeroProcess 2) 16).regions, r.bytes.length = 2 := by
    decide
  rw [SmallRegion, hbytes r hr]
  decide

/-- The region of a process of zeros, when all of it can be saved. -/
theorem capture_zeroProcess {size maxBytes : ℕ} (hsize : 0 < size) (hbudget : size ≤ maxBytes) :
    ∃ r, capture (zeroProcess size) maxBytes = ⟨[r]⟩ ∧ r.bytes.length = size := by
  have hlength : (readPrefix (fun _ ↦ some (0 : UInt8)) 0x10000 size).length = size :=
    (length_readPrefix_eq_iff _ _ _).mpr fun _ _ ↦ rfl
  have hread : (zeroProcess size).read 0x10000 size =
      some (readPrefix (fun _ ↦ some (0 : UInt8)) 0x10000 size) := by
    refine if_neg fun hfalse ↦ ?_
    have hempty : (readPrefix (fun _ ↦ some (0 : UInt8)) 0x10000 size).length = 0 :=
      congrArg List.length hfalse.2
    omega
  have hregions : (zeroProcess size).queryRegions =
      [{ base := 0x10000, size := size, protection := 3 }] := rfl
  have hwritable : ¬(!MemProt.has 3 MemProt.write) = true := by decide
  rw [capture, hregions, captureRegions, if_neg hwritable, if_neg hsize.ne']
  dsimp only
  rw [Nat.min_eq_left hbudget, if_neg hsize.ne', hread]
  dsimp only
  split_ifs with hleft
  · exact ⟨_, rfl, hlength⟩
  · exact ⟨_, rfl, hlength⟩

/-- A region of more than `2^28` bytes is saved and not loaded; and a file that ends behind its
header empties the object. -/
theorem large_region_not_loaded :
    ((save (capture (zeroProcess (2 ^ 28 + 4096)) (2 ^ 64 - 1)) Device.reliable).1 = true ∧
      ∀ held, load (save (capture (zeroProcess (2 ^ 28 + 4096)) (2 ^ 64 - 1)) Device.reliable).2 held ≠
        (capture (zeroProcess (2 ^ 28 + 4096)) (2 ^ 64 - 1), none)) ∧
    load (some (header 1)) ⟨[⟨0x10000, 2, 3, [1, 2]⟩]⟩ = (⟨[]⟩, some "truncated record".toList) := by
  obtain ⟨r, hcapture, hlength⟩ := @capture_zeroProcess (2 ^ 28 + 4096) (2 ^ 64 - 1) (by decide)
    (by decide)
  have hsaved : (save (capture (zeroProcess (2 ^ 28 + 4096)) (2 ^ 64 - 1)) Device.reliable).1 = true :=
    congrArg Prod.fst (Device.writeFile_reliable _)
  refine ⟨⟨hsaved, fun held hfalse ↦ ?_⟩, by decide⟩
  have hloadable := ((load_save_iff hsaved).mp hfalse).1
  have hsmall : r.bytes.length ≤ 2 ^ 28 := by
    refine hloadable.bytes r ?_
    rw [hcapture]
    exact List.mem_singleton_self r
  rw [hlength] at hsmall
  exact absurd hsmall (by decide)

end Snapshot

end Cecore.Scanner
