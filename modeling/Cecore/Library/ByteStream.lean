import Cecore.Library.LittleEndian

/-!
# Reading a byte stream

A reader takes a value off the front of a byte stream and hands back what is left. `Decodes` says
that a reader undoes an encoding in front of any continuation; little-endian numbers of a fixed
width are decoded so, and so is a counted list of items whose items are.
-/

set_option autoImplicit false
set_option relaxedAutoImplicit false

namespace Cecore.Library.ByteStream

open LittleEndian

/-- Takes a value off the front of a byte stream, when enough bytes are there. -/
abbrev Reader (α : Type) := List UInt8 → Option (α × List UInt8)

/-- The little-endian number in the next `width` bytes. -/
def recvNat (width : ℕ) : Reader ℕ := fun stream ↦
  if width ≤ stream.length then some (leNat (stream.take width), stream.drop width) else none

/-- The next `count` items. -/
def recvList {α : Type} (item : Reader α) : ℕ → Reader (List α)
  | 0, stream => some ([], stream)
  | count + 1, stream =>
    match item stream with
    | none => none
    | some (first, rest) =>
      match recvList item count rest with
      | none => none
      | some (others, left) => some (first :: others, left)

def recv32 : Reader UInt32 := fun stream ↦
  (recvNat 4 stream).map fun found ↦ (UInt32.ofNat found.1, found.2)

def recv64 : Reader UInt64 := fun stream ↦
  (recvNat 8 stream).map fun found ↦ (UInt64.ofNat found.1, found.2)

/-- The next `count` bytes as they are. -/
def recvBytes (count : ℕ) : Reader (List UInt8) := fun stream ↦
  if count ≤ stream.length then some (stream.take count, stream.drop count) else none

/-- The reader takes exactly the encoding of a value off any stream that starts with it. -/
def Decodes {α : Type} (reader : Reader α) (bytes : List UInt8) (value : α) : Prop :=
  ∀ rest, reader (bytes ++ rest) = some (value, rest)

theorem Decodes.whole {α : Type} {reader : Reader α} {bytes : List UInt8} {value : α}
    (h : Decodes reader bytes value) : reader bytes = some (value, []) := by
  have := h []
  rwa [List.append_nil] at this

theorem decodes_recvNat (width value : ℕ) :
    Decodes (recvNat width) (toLE width value) (value % 256 ^ width) := by
  intro rest
  have hlength : (toLE width value).length = width := length_toLE width value
  have hfits : width ≤ (toLE width value ++ rest).length := by
    rw [List.length_append, hlength]
    exact Nat.le_add_right _ _
  rw [recvNat, if_pos hfits, List.take_left' hlength, List.drop_left' hlength, leNat_toLE]

theorem decodes_recvNat_of_lt {width value : ℕ} (hvalue : value < 256 ^ width) :
    Decodes (recvNat width) (toLE width value) value := by
  have hread := decodes_recvNat width value
  rwa [Nat.mod_eq_of_lt hvalue] at hread

theorem decodes_recv32 (value : UInt32) : Decodes recv32 (toLE 4 value.toNat) value := by
  intro rest
  have hvalue : value.toNat % 256 ^ 4 = value.toNat := Nat.mod_eq_of_lt value.toNat_lt
  rw [recv32, decodes_recvNat 4 value.toNat, hvalue, Option.map_some, UInt32.ofNat_toNat]

theorem decodes_recv64 (value : UInt64) : Decodes recv64 (toLE 8 value.toNat) value := by
  intro rest
  have hvalue : value.toNat % 256 ^ 8 = value.toNat := Nat.mod_eq_of_lt value.toNat_lt
  rw [recv64, decodes_recvNat 8 value.toNat, hvalue, Option.map_some, UInt64.ofNat_toNat]

theorem decodes_recvBytes (bytes : List UInt8) : Decodes (recvBytes bytes.length) bytes bytes := by
  intro rest
  have hfits : bytes.length ≤ (bytes ++ rest).length := by
    rw [List.length_append]
    exact Nat.le_add_right _ _
  rw [recvBytes, if_pos hfits, List.take_left, List.drop_left]

/-- A list is decoded when each of its items is. -/
theorem decodes_recvList {α β : Type} {item : Reader α} {encode : β → List UInt8} {value : β → α}
    {items : List β} (hitems : ∀ entry ∈ items, Decodes item (encode entry) (value entry)) :
    Decodes (recvList item items.length) (items.flatMap encode) (items.map value) := by
  induction items with
  | nil =>
    intro rest
    rfl
  | cons entry others ih =>
    intro rest
    have hfirst := hitems entry List.mem_cons_self
    have hothers := ih fun other hother ↦ hitems other (List.mem_cons_of_mem _ hother)
    rw [List.flatMap_cons, List.append_assoc, List.length_cons, recvList,
      hfirst (others.flatMap encode ++ rest)]
    dsimp only
    rw [hothers rest, List.map_cons]

/-- The next `count` items, of a reader that says why it fails. -/
def readList {ε α : Type} (item : List UInt8 → Except ε (α × List UInt8)) :
    ℕ → List UInt8 → Except ε (List α × List UInt8)
  | 0, stream => .ok ([], stream)
  | count + 1, stream =>
    match item stream with
    | .error reason => .error reason
    | .ok (first, rest) =>
      match readList item count rest with
      | .error reason => .error reason
      | .ok (others, left) => .ok (first :: others, left)

theorem readList_flatMap {ε α β : Type} {item : List UInt8 → Except ε (α × List UInt8)}
    {encode : β → List UInt8} {value : β → α} {items : List β}
    (hitems : ∀ entry ∈ items, ∀ rest, item (encode entry ++ rest) = .ok (value entry, rest))
    (rest : List UInt8) :
    readList item items.length (items.flatMap encode ++ rest) = .ok (items.map value, rest) := by
  induction items with
  | nil => rfl
  | cons entry others ih =>
    have hothers := ih fun other hother ↦ hitems other (List.mem_cons_of_mem _ hother)
    rw [List.flatMap_cons, List.append_assoc, List.length_cons, readList,
      hitems entry List.mem_cons_self]
    dsimp only
    rw [hothers, List.map_cons]

/-- A counted list has as many items as were asked for. -/
theorem length_of_recvList {α : Type} {item : Reader α} {count : ℕ} {stream rest : List UInt8}
    {values : List α} (h : recvList item count stream = some (values, rest)) :
    values.length = count := by
  induction count generalizing stream values with
  | zero =>
    obtain ⟨rfl, -⟩ := Prod.mk.inj (Option.some.inj h)
    rfl
  | succ count ih =>
    rw [recvList] at h
    cases hitem : item stream with
    | none => simp [hitem] at h
    | some found =>
      obtain ⟨first, left⟩ := found
      cases hothers : recvList item count left with
      | none => simp [hitem, hothers] at h
      | some tail =>
        obtain ⟨others, after⟩ := tail
        rw [hitem] at h
        dsimp only at h
        rw [hothers] at h
        obtain ⟨rfl, rfl⟩ := Prod.mk.inj (Option.some.inj h)
        rw [List.length_cons, ih hothers]

/-! ### What was read -/

/-- What a reader takes off a stream is the encoding of the value it takes. -/
def Recovers {α : Type} (reader : Reader α) (encode : α → List UInt8) : Prop :=
  ∀ {stream rest : List UInt8} {value : α}, reader stream = some (value, rest) →
    stream = encode value ++ rest

theorem recovers_recvBytes {count : ℕ} {stream rest bytes : List UInt8}
    (h : recvBytes count stream = some (bytes, rest)) :
    stream = bytes ++ rest ∧ bytes.length = count := by
  unfold recvBytes at h
  split_ifs at h with hfits
  obtain ⟨rfl, rfl⟩ := Prod.mk.inj (Option.some.inj h)
  exact ⟨(List.take_append_drop count stream).symm, List.length_take_of_le hfits⟩

theorem recovers_recvNat {width value : ℕ} {stream rest : List UInt8}
    (h : recvNat width stream = some (value, rest)) :
    stream = toLE width value ++ rest ∧ value < 256 ^ width := by
  unfold recvNat at h
  split_ifs at h with hfits
  obtain ⟨rfl, rfl⟩ := Prod.mk.inj (Option.some.inj h)
  have hlength : (stream.take width).length = width := List.length_take_of_le hfits
  have hback := toLE_leNat (stream.take width)
  have hlt := leNat_lt (stream.take width)
  rw [hlength] at hback hlt
  exact ⟨by rw [hback, List.take_append_drop], hlt⟩

theorem recovers_recv32 : Recovers recv32 fun value ↦ toLE 4 value.toNat := by
  intro stream rest value h
  obtain ⟨⟨found, left⟩, hfound, heq⟩ := Option.map_eq_some_iff.mp h
  obtain ⟨rfl, rfl⟩ := Prod.mk.inj heq
  obtain ⟨hstream, hlt⟩ := recovers_recvNat hfound
  have hvalue : (UInt32.ofNat found).toNat = found := UInt32.toNat_ofNat_of_lt' hlt
  rw [← hvalue] at hstream
  exact hstream

theorem recovers_recv64 : Recovers recv64 fun value ↦ toLE 8 value.toNat := by
  intro stream rest value h
  obtain ⟨⟨found, left⟩, hfound, heq⟩ := Option.map_eq_some_iff.mp h
  obtain ⟨rfl, rfl⟩ := Prod.mk.inj heq
  obtain ⟨hstream, hlt⟩ := recovers_recvNat hfound
  have hvalue : (UInt64.ofNat found).toNat = found := UInt64.toNat_ofNat_of_lt' hlt
  rw [← hvalue] at hstream
  exact hstream

end Cecore.Library.ByteStream
