import Cecore.Library.Journal
import Cecore.Platform.ProcessHandle

/-!
# A target process that is written to

`ProcessHandle` with its writing half: `write`, `allocate`, `free` and `protect`. The `Target` is
the mapped memory with its protection, and it keeps the list of calls made on it. The kernel decides
where a mapping goes and which calls it refuses; it may decide anew at each call, since the calls
made so far belong to the target. A transfer stops at the first address it cannot access.
-/

set_option autoImplicit false
set_option relaxedAutoImplicit false

namespace Cecore.Platform

open Library.Journal

/-- A call that may change the target. -/
inductive Event
  | allocate (address : Option ℕ) (size : ℕ)
  | free (address size : ℕ) (accepted : Bool)
  | protect (address size : ℕ)
  | write (address count : ℕ)
  /-- Code that the target was made to run. -/
  | foreign
  deriving DecidableEq, Repr

/-- The mapped bytes of a process, none of them at or above `top`, with the protection of each
address and the calls made so far. -/
structure Target where
  memory : Store UInt8
  top : ℕ
  unmapped : ∀ address, top ≤ address → memory address = none
  protection : ℕ → MemProt
  events : List Event

/-- `(size + 4095) & ~4095` of `size_t`. -/
def pageAlign (size : ℕ) : ℕ := (size + 4095) % sizeModulus / 4096 * 4096

/-- An address of the mapping of `size` bytes at `base`. -/
def InBlock (base size address : ℕ) : Prop := base ≤ address ∧ address < base + pageAlign size

instance (base size address : ℕ) : Decidable (InBlock base size address) :=
  inferInstanceAs (Decidable (_ ∧ _))

/-- What the kernel answers. A new mapping covers only addresses that were not mapped. -/
structure Kernel where
  mmap : Target → (size preferredBase : ℕ) → Except Text ℕ
  /-- Why an unmapping is refused. -/
  munmap : Target → (address size : ℕ) → Option Text
  /-- The protection afterwards, and the error if there was one. -/
  mprotect : Target → (address size : ℕ) → (ℕ → MemProt) × Option Text
  mmap_fresh : ∀ (t : Target) (size preferredBase address : ℕ),
    mmap t size preferredBase = .ok address →
      0 < address ∧ 0 < pageAlign size ∧ ∀ x, InBlock address size x → t.memory x = none

namespace Target

/-- The byte a read transfers. -/
def fetch (t : Target) (address : ℕ) : Option UInt8 :=
  if (t.protection address).has MemProt.read then t.memory address else none

/-- `ProcessHandle::read`. -/
def read (t : Target) (address size : ℕ) : Option (List UInt8) :=
  let transferred := readPrefix t.fetch address size
  if size ≠ 0 ∧ transferred = [] then none else some transferred

/-- A read that transfers all it was asked for. -/
def readWhole (t : Target) (address size : ℕ) : Option (List UInt8) :=
  match t.read address size with
  | some bytes => if bytes.length < size then none else some bytes
  | none => none

def writable (t : Target) (address : ℕ) : Bool :=
  (t.protection address).has MemProt.write && (t.memory address).isSome

/-- How many of `count` bytes can be written before the first that cannot. -/
def writableCount (t : Target) : (address count : ℕ) → ℕ
  | _, 0 => 0
  | address, count + 1 =>
    if t.writable address then t.writableCount (address + 1) count + 1 else 0

/-- The target after the first `count` of `bytes` were written. -/
def poke (t : Target) (address : ℕ) (bytes : List UInt8) : Target :=
  { memory := fun x ↦ if (t.memory x).isSome then overlay t.memory ⟨address, bytes⟩ x else none
    top := t.top
    unmapped := fun x hx ↦ by rw [t.unmapped x hx]; rfl
    protection := t.protection
    events := t.events ++ [.write address bytes.length] }

/-- `ProcessHandle::write`: the number of bytes transferred, nothing when the first one faults. -/
def write (t : Target) (address : ℕ) (bytes : List UInt8) : Option ℕ × Target :=
  let count := t.writableCount address bytes.length
  (if bytes ≠ [] ∧ count = 0 then none else some count, t.poke address (bytes.take count))

/-- `ProcessHandle::allocate` with `MemProt::All`. -/
def allocate (t : Target) (kernel : Kernel) (size preferredBase : ℕ) : Except Text ℕ × Target :=
  match kernel.mmap t size preferredBase with
  | .error message => (.error message, { t with events := t.events ++ [.allocate none size] })
  | .ok address =>
    (.ok address,
      { memory := fun x ↦ if InBlock address size x then some 0 else t.memory x
        top := max t.top (address + pageAlign size)
        unmapped := fun x hx ↦ by
          rw [if_neg (fun h ↦ absurd h.2 (by omega))]
          exact t.unmapped x (by omega)
        protection := fun x ↦ if InBlock address size x then MemProt.all else t.protection x
        events := t.events ++ [.allocate (some address) size] })

/-- `ProcessHandle::free`, with the error if there was one. -/
def free (t : Target) (kernel : Kernel) (address size : ℕ) : Option Text × Target :=
  match kernel.munmap t address size with
  | some message => (some message, { t with events := t.events ++ [.free address size false] })
  | none =>
    (none,
      { memory := fun x ↦ if InBlock address size x then none else t.memory x
        top := t.top
        unmapped := fun x hx ↦ by
          rw [t.unmapped x hx, ite_self]
        protection := t.protection
        events := t.events ++ [.free address size true] })

/-- `ProcessHandle::protect` with `MemProt::All`, with the error if there was one. -/
def protect (t : Target) (kernel : Kernel) (address size : ℕ) : Option Text × Target :=
  let (protection, error) := kernel.mprotect t address size
  (error, { t with protection := protection, events := t.events ++ [.protect address size] })

/-! ### What each call does -/

section Calls

variable {t : Target} {kernel : Kernel} {address size : ℕ}

theorem readWhole_eq_some {bytes : List UInt8} (h : t.readWhole address size = some bytes) :
    bytes.length = size ∧ ∀ x byte, Record.at ⟨address, bytes⟩ x = some byte →
      t.memory x = some byte := by
  unfold readWhole read at h
  dsimp only at h
  by_cases hempty : size ≠ 0 ∧ readPrefix t.fetch address size = []
  · rw [if_pos hempty] at h
    cases h
  rw [if_neg hempty] at h
  by_cases hshort : (readPrefix t.fetch address size).length < size
  · simp [hshort] at h
  simp only [hshort, if_false, Option.some.injEq] at h
  subst h
  have hle := length_readPrefix_le t.fetch address size
  refine ⟨by omega, fun x byte hat ↦ ?_⟩
  unfold Record.at at hat
  split_ifs at hat with hx
  dsimp only at hx hat
  have hlt := (List.getElem?_eq_some_iff.mp hat).1
  rw [getElem?_readPrefix hlt, Nat.add_sub_cancel' hx] at hat
  unfold fetch at hat
  split_ifs at hat
  exact hat

/-- Only the cells of the range change, and what is mapped stays mapped. -/
theorem memory_poke (bytes : List UInt8) (x : ℕ) :
    (t.poke address bytes).memory x =
      if (t.memory x).isSome then (Record.at ⟨address, bytes⟩ x).or (t.memory x) else none := rfl

theorem isSome_memory_poke (bytes : List UInt8) (x : ℕ) :
    ((t.poke address bytes).memory x).isSome = (t.memory x).isSome := by
  rw [memory_poke]
  cases hmemory : t.memory x with
  | none => rfl
  | some byte => cases Record.at ⟨address, bytes⟩ x <;> rfl

theorem memory_poke_of_not_covered {bytes : List UInt8} {x : ℕ}
    (h : ¬(address ≤ x ∧ x < address + bytes.length)) :
    (t.poke address bytes).memory x = t.memory x := by
  have hat : Record.at ⟨address, bytes⟩ x = none := by
    rw [← Option.not_isSome_iff_eq_none, Record.isSome_at]
    exact h
  rw [memory_poke, hat]
  cases t.memory x <;> rfl

theorem writable_poke (bytes : List UInt8) (x : ℕ) :
    (t.poke address bytes).writable x = t.writable x := by
  unfold writable
  rw [isSome_memory_poke]
  rfl

theorem free_eq (t : Target) (kernel : Kernel) (address size : ℕ) :
    (∃ message, t.free kernel address size =
        (some message, { t with events := t.events ++ [.free address size false] })) ∨
      ∃ after, t.free kernel address size = (none, after) ∧
        after.events = t.events ++ [.free address size true] ∧
        ∀ x, after.memory x = if InBlock address size x then none else t.memory x := by
  unfold free
  cases kernel.munmap t address size with
  | some message => exact Or.inl ⟨message, rfl⟩
  | none => exact Or.inr ⟨_, rfl, rfl, fun _ ↦ rfl⟩

end Calls

end Target

end Cecore.Platform
