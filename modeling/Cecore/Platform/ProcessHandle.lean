import Cecore.Core.Types
import Mathlib.Data.List.Basic
import Mathlib.Data.List.GetD
import Mathlib.Data.List.TakeDrop

/-!
# Reading a process

A `ProcessHandle` is what a scan sees of its target: the bytes a read can fetch, the mappings, and
the page map. `read` transfers bytes from the first address up and stops at the first one it cannot
fetch, and `readMany` is the default batched read, which accepts only complete values.
-/

set_option autoImplicit false
set_option relaxedAutoImplicit false

namespace Cecore.Platform

/-- The target during one scan. `memory` gives the byte at an address when a read can fetch it, and
`pagemap` the 64-bit entry of a page number when `/proc/pid/pagemap` can be read there. -/
structure ProcessHandle where
  memory : ℕ → Option UInt8
  queryRegions : List MemoryRegion
  pagemap : ℕ → Option ℕ
  supportsConcurrentReads : Bool

/-- The bytes from `address` up to the first one that cannot be fetched, at most `size`. -/
def readPrefix (memory : ℕ → Option UInt8) : (address size : ℕ) → List UInt8
  | _, 0 => []
  | address, size + 1 =>
    match memory address with
    | none => []
    | some byte => byte :: readPrefix memory (address + 1) size

/-- `ProcessHandle::read`: the bytes transferred, or nothing when the first byte faults. -/
def ProcessHandle.read (proc : ProcessHandle) (address size : ℕ) : Option (List UInt8) :=
  let transferred := readPrefix proc.memory address size
  if size ≠ 0 ∧ transferred = [] then none else some transferred

/-- `ProcessHandle::readMany`: for each address its value, when all `size` bytes were read. -/
def ProcessHandle.readMany (proc : ProcessHandle) (addresses : List ℕ) (size : ℕ) :
    List (Option (List UInt8)) :=
  addresses.map fun address ↦
    match proc.read address size with
    | some bytes => if bytes.length = size then some bytes else none
    | none => none

/-- All of `[address, address + size)` can be fetched. -/
def Readable (memory : ℕ → Option UInt8) (address size : ℕ) : Prop :=
  ∀ offset < size, (memory (address + offset)).isSome

attribute [local grind =] readPrefix

theorem length_readPrefix_le (memory : ℕ → Option UInt8) (address size : ℕ) :
    (readPrefix memory address size).length ≤ size := by
  induction size generalizing address with
  | zero => simp [readPrefix]
  | succ size ih =>
    rw [readPrefix]
    cases memory address with
    | none => simp
    | some byte =>
      have := ih (address + 1)
      simp only [List.length_cons]
      omega

/-- A byte of a transfer is the byte at its address. -/
theorem getElem?_readPrefix {memory : ℕ → Option UInt8} {address size offset : ℕ}
    (hoffset : offset < (readPrefix memory address size).length) :
    (readPrefix memory address size)[offset]? = memory (address + offset) := by
  induction size generalizing address offset with
  | zero => simp [readPrefix] at hoffset
  | succ size ih =>
    rw [readPrefix] at hoffset ⊢
    cases hbyte : memory address with
    | none => simp [hbyte] at hoffset
    | some byte =>
      simp only [hbyte, List.length_cons] at hoffset ⊢
      cases offset with
      | zero => simp [hbyte]
      | succ offset =>
        rw [List.getElem?_cons_succ, ih (by omega), Nat.add_right_comm, Nat.add_assoc]

/-- A transfer is complete exactly when every byte of the range can be fetched. -/
theorem length_readPrefix_eq_iff (memory : ℕ → Option UInt8) (address size : ℕ) :
    (readPrefix memory address size).length = size ↔ Readable memory address size := by
  induction size generalizing address with
  | zero => simp [readPrefix, Readable]
  | succ size ih =>
    rw [readPrefix]
    cases hbyte : memory address with
    | none =>
      constructor
      · intro h
        simp at h
      · intro h
        have := h 0 (Nat.succ_pos _)
        simp [hbyte] at this
    | some byte =>
      simp only [List.length_cons, Nat.add_right_cancel_iff, ih]
      constructor
      · intro h offset hoffset
        cases offset with
        | zero => simp [hbyte]
        | succ offset =>
          have := h offset (by omega)
          rwa [Nat.add_right_comm, Nat.add_assoc] at this
      · intro h offset hoffset
        have := h (offset + 1) (by omega)
        rwa [← Nat.add_assoc, Nat.add_right_comm] at this

/-- The part of a transfer that starts `offset` bytes in is the transfer from that address. -/
theorem drop_readPrefix {memory : ℕ → Option UInt8} {address size offset : ℕ}
    (hoffset : offset ≤ (readPrefix memory address size).length) :
    (readPrefix memory address size).drop offset =
      readPrefix memory (address + offset) (size - offset) := by
  induction size generalizing address offset with
  | zero =>
    have : offset = 0 := by simpa [readPrefix] using hoffset
    subst this
    rfl
  | succ size ih =>
    cases offset with
    | zero => rfl
    | succ offset =>
      rw [readPrefix] at hoffset ⊢
      cases hbyte : memory address with
      | none => simp [hbyte] at hoffset
      | some byte =>
        simp only [hbyte, List.length_cons, Nat.add_le_add_iff_right] at hoffset
        simp only [List.drop_succ_cons]
        rw [ih hoffset, Nat.add_right_comm, Nat.add_assoc, Nat.succ_sub_succ]

/-- A shorter request transfers a prefix of a longer one. -/
theorem take_readPrefix (memory : ℕ → Option UInt8) (address : ℕ) {size less : ℕ}
    (hless : less ≤ size) :
    (readPrefix memory address size).take less = readPrefix memory address less := by
  induction less generalizing address size with
  | zero => simp [readPrefix]
  | succ less ih =>
    obtain ⟨size, rfl⟩ : ∃ rest, size = rest + 1 := ⟨size - 1, by omega⟩
    rw [readPrefix, readPrefix]
    cases memory address with
    | none => rfl
    | some byte => simp [ih (address + 1) (by omega : less ≤ size)]

/-- `width` bytes of a transfer, from `offset`, are the transfer of `width` bytes there. -/
theorem slice_readPrefix {memory : ℕ → Option UInt8} {address size offset width : ℕ}
    (hfit : offset + width ≤ (readPrefix memory address size).length) :
    ((readPrefix memory address size).drop offset).take width =
      readPrefix memory (address + offset) width := by
  have hlength := length_readPrefix_le memory address size
  rw [drop_readPrefix (by omega), take_readPrefix memory _ (by omega)]

theorem read_eq_some_of_readable {proc : ProcessHandle} {address size : ℕ}
    (h : Readable proc.memory address size) :
    proc.read address size = some (readPrefix proc.memory address size) := by
  unfold ProcessHandle.read
  have hlength := (length_readPrefix_eq_iff proc.memory address size).mpr h
  rw [if_neg]
  rintro ⟨hsize, hempty⟩
  rw [hempty] at hlength
  exact hsize hlength.symm

end Cecore.Platform
