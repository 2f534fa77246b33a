import Cecore.Library.LittleEndian
import Cecore.Platform.Target
import Mathlib.Tactic.Common

/-!
# Simple hooks

`core/simple_hook.cpp`: a hook displaces whole instructions into a new block and puts a jump over
them. The handle of the target is an interface, so that any of its calls may fall short. A failed
installation does not give its block back, and a write that falls short is not seen: when an
installation is all or nothing is `installSimpleHook_allOrNothing_iff`.
-/

set_option autoImplicit false
set_option relaxedAutoImplicit false

namespace Cecore.Platform

open Library.Journal Library.LittleEndian

/-- What a hook reads of a decoded instruction. -/
structure DecodedInstruction where
  mnemonic : Text
  size : ℕ
  ripRelative : Bool
  ripTarget : ℕ
  deriving DecidableEq, Repr

/-- The decoder of 32-bit or 64-bit code. Its instructions are pieces of the code, in order. -/
structure Disassembler where
  disassemble : (runs32BitCode : Bool) → (address : ℕ) → List UInt8 → List DecodedInstruction
  within : ∀ runs32BitCode address code,
    ((disassemble runs32BitCode address code).map DecodedInstruction.size).sum ≤ code.length

/-- The calls of `ProcessHandle` that a hook uses. The answers to `write` and `protect` may depend on
everything that was called before. -/
structure HookedProcess where
  kernel : Kernel
  runs32BitCode : Bool
  /-- How many bytes a write transfers; nothing where it is refused. -/
  transfer : Target → (address : ℕ) → List UInt8 → Option ℕ
  mprotect : Target → (address size : ℕ) → MemProt → ℕ → MemProt

namespace HookedProcess

variable (proc : HookedProcess)

def write (t : Target) (address : ℕ) (bytes : List UInt8) : Option ℕ × Target :=
  let count := proc.transfer t address bytes
  (count, t.poke address (bytes.take (count.getD 0)))

def protect (t : Target) (address size : ℕ) (protection : MemProt) : Target :=
  { t with
    protection := proc.mprotect t address size protection
    events := t.events ++ [.protect address size] }

end HookedProcess

structure SimpleHook where
  address : ℕ
  trampoline : ℕ
  codecave : ℕ
  original : List UInt8
  patchLen : ℕ
  deriving DecidableEq, Repr

def isPositionDependent (i : DecodedInstruction) : Bool :=
  i.ripRelative || i.ripTarget != 0 || i.mnemonic = "call".toList ||
    "loop".toList.isPrefixOf i.mnemonic || i.mnemonic.head? = some 'j'

/-- The length of the first instructions that together have room for a jump, or of all of them;
nothing where one of them cannot be displaced. -/
def displacedLength : (patchLen : ℕ) → List DecodedInstruction → Option ℕ
  | patchLen, [] => some patchLen
  | patchLen, i :: rest =>
    if isPositionDependent i then none
    else if 5 ≤ patchLen + i.size then some (patchLen + i.size)
    else displacedLength (patchLen + i.size) rest

/-- `jmp qword [rip+0]` and the target behind it. -/
def putAbsJmp (target : ℕ) : List UInt8 := [0xFF, 0x25, 0, 0, 0, 0] ++ toLE 8 target

/-- From behind the jump at `address` to `gate`. -/
def relativeDistance (address gate : ℕ) : Int64 :=
  (UInt64.ofNat gate).toInt64 - (UInt64.ofNat (address + 5)).toInt64

def reachable (address gate : ℕ) : Bool :=
  decide (relativeDistance address gate ≤ 0x7FFFFFFF) &&
    decide (-0x80000000 ≤ relativeDistance address gate)

/-- `E9 rel32`, padded with `nop`. -/
def hookPatch (address gate patchLen : ℕ) : List UInt8 :=
  0xE9 :: (toLE 4 (relativeDistance address gate).toUInt64.toNat ++
    List.replicate (patchLen - 5) 0x90)

/-- The displaced instructions and the jump back behind them. -/
def trampolineBytes (address : ℕ) (original : List UInt8) : List UInt8 :=
  original ++ putAbsJmp (address + original.length)

section Operations

variable (proc : HookedProcess) (dis : Disassembler)

/-- The first step: the instructions to displace, unless there are too few or they are refused. -/
def stolenCode (address : ℕ) (t : Target) : Option (List UInt8) :=
  match t.read address 32 with
  | none => none
  | some code =>
    if code.length < 5 then none
    else match displacedLength 0 (dis.disassemble proc.runs32BitCode address code) with
      | none => none
      | some patchLen => if patchLen < 5 then none else some (code.take patchLen)

/-- The last steps: the gate and the trampoline are written into the block, then the jump over the
code. -/
def writeHook (address target cave : ℕ) (original : List UInt8) (t : Target) :
    Option SimpleHook × Target :=
  match proc.write t cave (putAbsJmp target) with
  | (none, t) => (none, t)
  | (some _, t) =>
    match proc.write t (cave + 16) (trampolineBytes address original) with
    | (none, t) => (none, t)
    | (some _, t) =>
      let t := proc.protect t address original.length MemProt.all
      match proc.write t address (hookPatch address cave original.length) with
      | (none, t) => (none, t)
      | (some _, t) =>
        (some ⟨address, cave + 16, cave, original, original.length⟩,
          proc.protect t address original.length (MemProt.read ||| MemProt.exec))

def installSimpleHook (address target : ℕ) (t : Target) : Option SimpleHook × Target :=
  match stolenCode proc dis address t with
  | none => (none, t)
  | some original =>
    match t.allocate proc.kernel (64 + original.length) address with
    | (.error _, t) => (none, t)
    | (.ok cave, t) =>
      if reachable address cave then writeHook proc address target cave original t else (none, t)

/-- The block of the hook is kept, since the target may be in it. -/
def removeSimpleHook (hook : SimpleHook) (t : Target) : Bool × Target :=
  if hook.original = [] then (false, t)
  else
    let t := proc.protect t hook.address hook.original.length MemProt.all
    let (count, t) := proc.write t hook.address hook.original
    (count.isSome,
      proc.protect t hook.address hook.original.length (MemProt.read ||| MemProt.exec))

end Operations

/-! ### All or nothing -/

/-- The bytes are in memory from an address on. -/
def Holds (t : Target) (address : ℕ) (bytes : List UInt8) : Prop :=
  ∀ i byte, bytes[i]? = some byte → t.memory (address + i) = some byte

section Written

variable (proc : HookedProcess) (address target cave : ℕ) (original : List UInt8) (t : Target)

def withGate : Target := (proc.write t cave (putAbsJmp target)).2

def withTrampoline : Target :=
  (proc.write (withGate proc target cave t) (cave + 16) (trampolineBytes address original)).2

def unprotected : Target :=
  proc.protect (withTrampoline proc address target cave original t) address original.length
    MemProt.all

def withPatch : Target :=
  (proc.write (unprotected proc address target cave original t) address
    (hookPatch address cave original.length)).2

end Written

section Conditions

variable (proc : HookedProcess) (dis : Disassembler) (address target : ℕ) (t : Target)

/-- The hook is in place, and nothing else that was mapped is changed. -/
structure Installed (hook : SimpleHook) (after : Target) : Prop where
  displaced : Holds t address hook.original
  gate : Holds after hook.codecave (putAbsJmp target)
  trampoline : Holds after hook.trampoline (trampolineBytes address hook.original)
  patch : Holds after address (hookPatch address hook.codecave hook.patchLen)
  others : ∀ x, (t.memory x).isSome → ¬(address ≤ x ∧ x < address + hook.patchLen) →
    after.memory x = t.memory x

/-- A failed installation leaves the memory as it was, mapped and unmapped. After a successful one
the hook is in place, and wherever it is still in place, removing it brings the code back. -/
structure AllOrNothing : Prop where
  failed : (installSimpleHook proc dis address target t).1 = none →
    (installSimpleHook proc dis address target t).2.memory = t.memory
  installed : ∀ hook, (installSimpleHook proc dis address target t).1 = some hook →
    Installed address target t hook (installSimpleHook proc dis address target t).2
  removed : ∀ hook, (installSimpleHook proc dis address target t).1 = some hook →
    ∀ later : Target, Holds later address (hookPatch address hook.codecave hook.patchLen) →
      (removeSimpleHook proc hook later).1 = true →
        Holds (removeSimpleHook proc hook later).2 address hook.original

/-- The write is not refused, and the bytes that it does not transfer are there already. -/
def Lands (proc : HookedProcess) (t : Target) (address : ℕ) (bytes : List UInt8) : Prop :=
  ∃ count, proc.transfer t address bytes = some count ∧
    Holds t (address + count) (bytes.drop count)

/-- Every removal that is not refused transfers the bytes in which the code differs from the jump. -/
def Removable (address cave : ℕ) (original : List UInt8) : Prop :=
  ∀ later : Target, Holds later address (hookPatch address cave original.length) →
    ∀ count, proc.transfer (proc.protect later address original.length MemProt.all) address original =
        some count →
      original.drop count = (hookPatch address cave original.length).drop count

/-- Nothing goes wrong once there is a block: it is within reach, and all writes land. -/
def Completes : Prop :=
  ∀ original, stolenCode proc dis address t = some original →
    ∀ cave allocated,
      t.allocate proc.kernel (64 + original.length) address = (.ok cave, allocated) →
        reachable address cave = true ∧
        Lands proc allocated cave (putAbsJmp target) ∧
        Lands proc (withGate proc target cave allocated) (cave + 16)
          (trampolineBytes address original) ∧
        Lands proc (unprotected proc address target cave original allocated) address
          (hookPatch address cave original.length) ∧
        Removable proc address cave original

end Conditions

/-! ### Writing -/

section Writes

variable {proc : HookedProcess} {t other : Target} {address : ℕ} {bytes : List UInt8}

theorem Holds.congr (h : Holds t address bytes)
    (hsame : ∀ i < bytes.length, other.memory (address + i) = t.memory (address + i)) :
    Holds other address bytes := by
  intro i byte hbyte
  rw [hsame i (List.getElem?_eq_some_iff.mp hbyte).1]
  exact h i byte hbyte

theorem isSome_memory_write (proc : HookedProcess) (t : Target) (address : ℕ) (bytes : List UInt8)
    (x : ℕ) : ((proc.write t address bytes).2.memory x).isSome = (t.memory x).isSome :=
  Target.isSome_memory_poke _ x

/-- A write changes only its range. -/
theorem memory_write_of_not_covered {x : ℕ} (hx : ¬(address ≤ x ∧ x < address + bytes.length)) :
    (proc.write t address bytes).2.memory x = t.memory x := by
  refine Target.memory_poke_of_not_covered fun hcovered ↦ hx ⟨hcovered.1, ?_⟩
  have hlength := List.length_take_le' ((proc.transfer t address bytes).getD 0) bytes
  omega

/-- What a write leaves in a byte that is mapped. -/
theorem memory_write {count i : ℕ} (hcount : proc.transfer t address bytes = some count)
    (hmapped : (t.memory (address + i)).isSome) :
    (proc.write t address bytes).2.memory (address + i) =
      ((bytes.take count)[i]?).or (t.memory (address + i)) := by
  have hat : Record.at ⟨address, bytes.take count⟩ (address + i) = (bytes.take count)[i]? := by
    rw [Record.at, if_pos (Nat.le_add_right address i), Nat.add_sub_cancel_left]
  rw [HookedProcess.write, hcount, Option.getD_some, Target.memory_poke, if_pos hmapped, hat]

/-- Bytes are written if those that are not transferred are there. -/
theorem holds_write_iff {count : ℕ} (hcount : proc.transfer t address bytes = some count)
    (hmapped : ∀ i < bytes.length, (t.memory (address + i)).isSome) :
    Holds (proc.write t address bytes).2 address bytes ↔
      Holds t (address + count) (bytes.drop count) := by
  constructor
  · intro h i byte hbyte
    rw [List.getElem?_drop] at hbyte
    have hwritten := h (count + i) byte hbyte
    rw [memory_write hcount (hmapped _ (List.getElem?_eq_some_iff.mp hbyte).1),
      List.getElem?_take_eq_none (Nat.le_add_right count i), Option.none_or] at hwritten
    rwa [Nat.add_assoc]
  · intro h i byte hbyte
    rw [memory_write hcount (hmapped i (List.getElem?_eq_some_iff.mp hbyte).1)]
    by_cases htaken : i < count
    · rw [List.getElem?_take_of_lt htaken, hbyte, Option.some_or]
    · obtain ⟨k, rfl⟩ := Nat.exists_eq_add_of_le (not_lt.mp htaken)
      have hkept := h k byte (by rwa [List.getElem?_drop])
      rw [List.getElem?_take_eq_none (Nat.le_add_right count k), Option.none_or, ← Nat.add_assoc]
      exact hkept

end Writes

/-! ### Installing -/

section Steps

variable {proc : HookedProcess} {dis : Disassembler} {address target : ℕ} {t : Target}

theorem displacedLength_le {patchLen len : ℕ} {insns : List DecodedInstruction}
    (h : displacedLength patchLen insns = some len) :
    len ≤ patchLen + (insns.map DecodedInstruction.size).sum := by
  induction insns generalizing patchLen with
  | nil =>
    obtain rfl : patchLen = len := Option.some.inj h
    exact Nat.le_add_right _ _
  | cons i rest ih =>
    rw [displacedLength] at h
    rw [List.map_cons, List.sum_cons]
    split_ifs at h with hposition hroom
    · obtain rfl := Option.some.inj h
      omega
    · have := ih h
      omega

/-- The code to displace has room for the jump, and is what is in memory. -/
theorem stolenCode_eq_some {original : List UInt8}
    (h : stolenCode proc dis address t = some original) :
    5 ≤ original.length ∧ original.length ≤ 32 ∧ Holds t address original := by
  unfold stolenCode at h
  cases hread : t.read address 32 with
  | none => simp [hread] at h
  | some code =>
    rw [hread] at h
    dsimp only at h
    split_ifs at h with hshort
    cases hlength : displacedLength 0 (dis.disassemble proc.runs32BitCode address code) with
    | none => simp [hlength] at h
    | some patchLen =>
      rw [hlength] at h
      dsimp only at h
      split_ifs at h with hroom
      obtain rfl := Option.some.inj h
      have hprefix : code = readPrefix t.fetch address 32 := by
        unfold Target.read at hread
        dsimp only at hread
        split_ifs at hread
        exact (Option.some.inj hread).symm
      have hinside := (displacedLength_le hlength).trans_eq (Nat.zero_add _)
      have hwithin := hinside.trans (dis.within proc.runs32BitCode address code)
      have hcode := length_readPrefix_le t.fetch address 32
      rw [← hprefix] at hcode
      rw [List.length_take, Nat.min_eq_left hwithin]
      refine ⟨Nat.le_of_not_lt hroom, hwithin.trans hcode, fun i byte hbyte ↦ ?_⟩
      have htaken : i < patchLen := by
        have := (List.getElem?_eq_some_iff.mp hbyte).1
        rw [List.length_take] at this
        omega
      rw [List.getElem?_take_of_lt htaken, hprefix] at hbyte
      rw [getElem?_readPrefix (List.getElem?_eq_some_iff.mp hbyte).1, Target.fetch] at hbyte
      split_ifs at hbyte
      exact hbyte

theorem length_hookPatch {gate patchLen : ℕ} (hroom : 5 ≤ patchLen) :
    (hookPatch address gate patchLen).length = patchLen := by
  simp only [hookPatch, List.length_cons, List.length_append, length_toLE, List.length_replicate]
  omega

theorem length_putAbsJmp (target : ℕ) : (putAbsJmp target).length = 14 := by
  simp [putAbsJmp]

/-- A new block has room for the gate and the trampoline, where nothing was mapped. -/
structure NewBlock (t allocated : Target) (cave size : ℕ) : Prop where
  mapped : ∀ i < size, (allocated.memory (cave + i)).isSome
  fresh : ∀ i < size, t.memory (cave + i) = none
  others : ∀ x, (t.memory x).isSome → allocated.memory x = t.memory x

theorem allocate_newBlock {kernel : Kernel} {size cave : ℕ} {allocated : Target} (hsize : size ≤ 4096)
    (h : t.allocate kernel size address = (.ok cave, allocated)) : NewBlock t allocated cave size := by
  unfold Target.allocate at h
  split at h
  · next heq => cases h
  · next block heq =>
    obtain ⟨hblock, rfl⟩ := Prod.mk.inj h
    obtain rfl : block = cave := Except.ok.inj hblock
    obtain ⟨-, -, hfresh⟩ := kernel.mmap_fresh t size address block heq
    have hinside : ∀ i < size, InBlock block size (block + i) := by
      intro i hi
      refine ⟨Nat.le_add_right _ _, ?_⟩
      unfold pageAlign sizeModulus
      omega
    refine ⟨fun i hi ↦ ?_, fun i hi ↦ hfresh _ (hinside i hi), fun x hx ↦ if_neg fun hblock ↦ ?_⟩
    · change (if InBlock block size (block + i) then some (0 : UInt8) else _).isSome = true
      rw [if_pos (hinside i hi)]
      rfl
    · rw [hfresh x hblock] at hx
      cases hx

/-- The block and the code are apart. -/
theorem NewBlock.apart {allocated : Target} {cave size i : ℕ} {original : List UInt8}
    (h : NewBlock t allocated cave size) (horiginal : Holds t address original) (hi : i < size) :
    ¬(address ≤ cave + i ∧ cave + i < address + original.length) := by
  rintro ⟨hlow, hhigh⟩
  obtain ⟨k, hk⟩ := Nat.exists_eq_add_of_le hlow
  have hbyte := horiginal k _ (List.getElem?_eq_getElem (by omega))
  rw [← hk, h.fresh i hi] at hbyte
  cases hbyte

/-- Where the writing of a hook ends. -/
theorem writeHook_eq (cave : ℕ) (original : List UInt8) :
    writeHook proc address target cave original t =
      match proc.transfer t cave (putAbsJmp target),
        proc.transfer (withGate proc target cave t) (cave + 16) (trampolineBytes address original),
        proc.transfer (unprotected proc address target cave original t) address
          (hookPatch address cave original.length) with
      | none, _, _ => (none, withGate proc target cave t)
      | some _, none, _ => (none, withTrampoline proc address target cave original t)
      | some _, some _, none => (none, withPatch proc address target cave original t)
      | some _, some _, some _ =>
        (some ⟨address, cave + 16, cave, original, original.length⟩,
          proc.protect (withPatch proc address target cave original t) address original.length
            (MemProt.read ||| MemProt.exec)) := by
  unfold writeHook
  cases hgate : proc.transfer t cave (putAbsJmp target) with
  | none =>
    have hwrite : proc.write t cave (putAbsJmp target) = (none, withGate proc target cave t) :=
      Prod.ext hgate rfl
    rw [hwrite]
  | some first =>
    have hwrite : proc.write t cave (putAbsJmp target) = (some first, withGate proc target cave t) :=
      Prod.ext hgate rfl
    rw [hwrite]
    dsimp only
    cases htrampoline : proc.transfer (withGate proc target cave t) (cave + 16)
        (trampolineBytes address original) with
    | none =>
      have hwrite : proc.write (withGate proc target cave t) (cave + 16)
          (trampolineBytes address original) =
          (none, withTrampoline proc address target cave original t) :=
        Prod.ext htrampoline rfl
      rw [hwrite]
    | some second =>
      have hwrite : proc.write (withGate proc target cave t) (cave + 16)
          (trampolineBytes address original) =
          (some second, withTrampoline proc address target cave original t) :=
        Prod.ext htrampoline rfl
      have hpatch : proc.write (unprotected proc address target cave original t) address
          (hookPatch address cave original.length) =
          (proc.transfer (unprotected proc address target cave original t) address
            (hookPatch address cave original.length),
            withPatch proc address target cave original t) := rfl
      unfold unprotected at hpatch ⊢
      rw [hwrite]
      dsimp only
      rw [hpatch]
      cases proc.transfer (proc.protect (withTrampoline proc address target cave original t) address
        original.length MemProt.all) address (hookPatch address cave original.length) <;> rfl

/-- The writes of a hook change only what is mapped. -/
theorem isSome_memory_writeHook (cave : ℕ) (original : List UInt8) (x : ℕ) :
    ((writeHook proc address target cave original t).2.memory x).isSome = (t.memory x).isSome := by
  have hgate : ((withGate proc target cave t).memory x).isSome = (t.memory x).isSome :=
    isSome_memory_write ..
  have htrampoline : ((withTrampoline proc address target cave original t).memory x).isSome =
      ((withGate proc target cave t).memory x).isSome := isSome_memory_write ..
  have hpatch : ((withPatch proc address target cave original t).memory x).isSome =
      ((withTrampoline proc address target cave original t).memory x).isSome :=
    isSome_memory_write proc (unprotected proc address target cave original t) ..
  rw [writeHook_eq]
  split
  · exact hgate
  · exact htrampoline.trans hgate
  · exact hpatch.trans (htrampoline.trans hgate)
  · exact hpatch.trans (htrampoline.trans hgate)

/-- The hook is in place exactly if every write leaves out only what is there. -/
theorem installed_iff {allocated after : Target} {cave first second third : ℕ}
    {original : List UInt8} (hblock : NewBlock t allocated cave (64 + original.length))
    (hroom : 5 ≤ original.length) (horiginal : Holds t address original)
    (hfirst : proc.transfer allocated cave (putAbsJmp target) = some first)
    (hsecond : proc.transfer (withGate proc target cave allocated) (cave + 16)
      (trampolineBytes address original) = some second)
    (hthird : proc.transfer (unprotected proc address target cave original allocated) address
      (hookPatch address cave original.length) = some third)
    (hafter : after.memory = (withPatch proc address target cave original allocated).memory) :
    Installed address target t ⟨address, cave + 16, cave, original, original.length⟩ after ↔
      Holds allocated (cave + first) ((putAbsJmp target).drop first) ∧
      Holds (withGate proc target cave allocated) (cave + 16 + second)
        ((trampolineBytes address original).drop second) ∧
      Holds (unprotected proc address target cave original allocated) (address + third)
        ((hookPatch address cave original.length).drop third) := by
  have hgateLength := length_putAbsJmp target
  have htrampolineLength : (trampolineBytes address original).length = original.length + 14 := by
    rw [trampolineBytes, List.length_append, length_putAbsJmp]
  have hpatchLength := @length_hookPatch address cave original.length hroom
  have hpatchElsewhere : ∀ x, ¬(address ≤ x ∧ x < address + original.length) →
      after.memory x = (withTrampoline proc address target cave original allocated).memory x := by
    intro x hx
    rw [hafter]
    exact memory_write_of_not_covered (by rwa [hpatchLength])
  have htrampolineElsewhere : ∀ x, ¬(cave + 16 ≤ x ∧ x < cave + 16 + (original.length + 14)) →
      (withTrampoline proc address target cave original allocated).memory x =
        (withGate proc target cave allocated).memory x := by
    intro x hx
    exact memory_write_of_not_covered (by rwa [htrampolineLength])
  have hgateElsewhere : ∀ x, ¬(cave ≤ x ∧ x < cave + 14) →
      (withGate proc target cave allocated).memory x = allocated.memory x := by
    intro x hx
    exact memory_write_of_not_covered (by rwa [hgateLength])
  have hcode : ∀ i < original.length, (t.memory (address + i)).isSome := by
    intro i hi
    rw [horiginal i _ (List.getElem?_eq_getElem hi)]
    rfl
  have houtside : ∀ x, (t.memory x).isSome → ¬(cave ≤ x ∧ x < cave + (64 + original.length)) := by
    rintro x hx ⟨hlow, hhigh⟩
    obtain ⟨k, rfl⟩ := Nat.exists_eq_add_of_le hlow
    rw [hblock.fresh k (by omega)] at hx
    cases hx
  have hgate : Holds after cave (putAbsJmp target) ↔
      Holds allocated (cave + first) ((putAbsJmp target).drop first) := by
    have hkept : ∀ i < (putAbsJmp target).length,
        after.memory (cave + i) = (withGate proc target cave allocated).memory (cave + i) := by
      intro i hi
      rw [hpatchElsewhere _ (hblock.apart horiginal (by omega)), htrampolineElsewhere _ (by omega)]
    rw [← holds_write_iff hfirst fun i hi ↦ hblock.mapped i (by omega)]
    exact ⟨fun h ↦ h.congr fun i hi ↦ (hkept i hi).symm, fun h ↦ h.congr hkept⟩
  have htrampoline : Holds after (cave + 16) (trampolineBytes address original) ↔
      Holds (withGate proc target cave allocated) (cave + 16 + second)
        ((trampolineBytes address original).drop second) := by
    have hkept : ∀ i < (trampolineBytes address original).length, after.memory (cave + 16 + i) =
        (withTrampoline proc address target cave original allocated).memory (cave + 16 + i) := by
      intro i hi
      rw [Nat.add_assoc]
      exact hpatchElsewhere _ (hblock.apart horiginal (by omega))
    have hmapped : ∀ i < (trampolineBytes address original).length,
        ((withGate proc target cave allocated).memory (cave + 16 + i)).isSome := by
      intro i hi
      rw [withGate, isSome_memory_write, Nat.add_assoc]
      exact hblock.mapped _ (by omega)
    rw [← holds_write_iff hsecond hmapped]
    exact ⟨fun h ↦ h.congr fun i hi ↦ (hkept i hi).symm, fun h ↦ h.congr hkept⟩
  have hpatch : Holds after address (hookPatch address cave original.length) ↔
      Holds (unprotected proc address target cave original allocated) (address + third)
        ((hookPatch address cave original.length).drop third) := by
    have hmapped : ∀ i < (hookPatch address cave original.length).length,
        ((unprotected proc address target cave original allocated).memory (address + i)).isSome := by
      intro i hi
      have hmemory := hcode i (by omega)
      change ((withTrampoline proc address target cave original allocated).memory _).isSome = true
      rw [withTrampoline, isSome_memory_write, withGate, isSome_memory_write,
        hblock.others _ hmemory]
      exact hmemory
    rw [← holds_write_iff hthird hmapped]
    exact ⟨fun h ↦ h.congr fun i _ ↦ by rw [hafter, withPatch], fun h ↦ h.congr fun i _ ↦ by
      rw [hafter, withPatch]⟩
  rw [← hgate, ← htrampoline, ← hpatch]
  constructor
  · exact fun h ↦ ⟨h.gate, h.trampoline, h.patch⟩
  · refine fun h ↦ ⟨horiginal, h.1, h.2.1, h.2.2, fun x hx hpatched ↦ ?_⟩
    have := houtside x hx
    rw [hpatchElsewhere x hpatched, htrampolineElsewhere x (by omega), hgateElsewhere x (by omega),
      hblock.others x hx]

/-- Removing a hook that is in place brings the code back exactly if what is not transferred is the
same in the jump. -/
theorem holds_removed_iff {later : Target} {cave count : ℕ} {original : List UInt8}
    (hroom : 5 ≤ original.length)
    (hlater : Holds later address (hookPatch address cave original.length))
    (hcount : proc.transfer (proc.protect later address original.length MemProt.all) address original =
      some count) :
    Holds (removeSimpleHook proc ⟨address, cave + 16, cave, original, original.length⟩ later).2 address
        original ↔
      original.drop count = (hookPatch address cave original.length).drop count := by
  have hpatchLength := @length_hookPatch address cave original.length hroom
  have hne : original ≠ [] := List.ne_nil_of_length_pos (by omega)
  have hpatched : ∀ i < original.length,
      later.memory (address + i) = (hookPatch address cave original.length)[i]? := by
    intro i hi
    rw [List.getElem?_eq_getElem (by omega)]
    exact hlater i _ (List.getElem?_eq_getElem (by omega))
  have hmapped : ∀ i < original.length, ((proc.protect later address original.length
      MemProt.all).memory (address + i)).isSome := by
    intro i hi
    change (later.memory (address + i)).isSome = true
    rw [hpatched i hi, List.getElem?_eq_getElem (by omega)]
    rfl
  have hremoved : Holds (removeSimpleHook proc ⟨address, cave + 16, cave, original, original.length⟩
        later).2 address original ↔
      Holds (proc.write (proc.protect later address original.length MemProt.all) address original).2
        address original := by
    rw [removeSimpleHook, if_neg hne]
    exact Iff.rfl
  rw [hremoved, holds_write_iff hcount hmapped]
  constructor
  · refine fun h ↦ List.ext_getElem? fun i ↦ ?_
    rw [List.getElem?_drop, List.getElem?_drop]
    by_cases hi : count + i < original.length
    · have hbyte := h i original[count + i] (by
        rw [List.getElem?_drop]
        exact List.getElem?_eq_getElem hi)
      rw [Nat.add_assoc] at hbyte
      rw [← hpatched _ hi, List.getElem?_eq_getElem hi]
      exact hbyte.symm
    · rw [List.getElem?_eq_none (by omega), List.getElem?_eq_none (by omega)]
  · intro h i byte hbyte
    have hi := (List.getElem?_eq_some_iff.mp hbyte).1
    rw [List.length_drop] at hi
    rw [h, List.getElem?_drop, ← hpatched _ (by omega)] at hbyte
    rw [Nat.add_assoc]
    exact hbyte

theorem removeSimpleHook_ok {later : Target} {cave : ℕ} {original : List UInt8}
    (hne : original ≠ []) :
    (removeSimpleHook proc ⟨address, cave + 16, cave, original, original.length⟩ later).1 =
      (proc.transfer (proc.protect later address original.length MemProt.all) address
        original).isSome := by
  rw [removeSimpleHook, if_neg hne]
  rfl

theorem removable_iff {cave : ℕ} {original : List UInt8} (hroom : 5 ≤ original.length) :
    (∀ later : Target, Holds later address (hookPatch address cave original.length) →
      (removeSimpleHook proc ⟨address, cave + 16, cave, original, original.length⟩ later).1 = true →
        Holds (removeSimpleHook proc ⟨address, cave + 16, cave, original, original.length⟩ later).2
          address original) ↔
      Removable proc address cave original := by
  have hne : original ≠ [] := List.ne_nil_of_length_pos (by omega)
  constructor
  · intro h later hlater count hcount
    refine (holds_removed_iff hroom hlater hcount).mp (h later hlater ?_)
    rw [removeSimpleHook_ok hne, hcount]
    rfl
  · intro h later hlater hok
    rw [removeSimpleHook_ok hne] at hok
    obtain ⟨count, hcount⟩ := Option.isSome_iff_exists.mp hok
    exact (holds_removed_iff hroom hlater hcount).mpr (h later hlater count hcount)

end Steps

section Exact

variable (proc : HookedProcess) (dis : Disassembler) (address target : ℕ) (t : Target)

/-- Where writing a hook into a block of its own ends as a whole or with nothing. -/
theorem allOrNothing_writeHook {cave : ℕ} {allocated : Target} {original : List UInt8}
    (hblock : NewBlock t allocated cave (64 + original.length)) (hroom : 5 ≤ original.length)
    (horiginal : Holds t address original)
    (hinstall : installSimpleHook proc dis address target t =
      writeHook proc address target cave original allocated) :
    AllOrNothing proc dis address target t ↔
      Lands proc allocated cave (putAbsJmp target) ∧
      Lands proc (withGate proc target cave allocated) (cave + 16)
        (trampolineBytes address original) ∧
      Lands proc (unprotected proc address target cave original allocated) address
        (hookPatch address cave original.length) ∧
      Removable proc address cave original := by
  -- the block is left if nothing is returned
  have hleft : AllOrNothing proc dis address target t →
      (writeHook proc address target cave original allocated).1 ≠ none := by
    intro h hnone
    have hmemory := h.failed (by rw [hinstall, hnone])
    have hmapped :
        ((writeHook proc address target cave original allocated).2.memory cave).isSome =
          (allocated.memory cave).isSome := isSome_memory_writeHook cave original cave
    rw [← hinstall, hmemory] at hmapped
    have hfresh := hblock.fresh 0 (by omega)
    have hnew := hblock.mapped 0 (by omega)
    rw [Nat.add_zero] at hfresh hnew
    rw [hfresh, hnew] at hmapped
    cases hmapped
  constructor
  · intro h
    have hne := hleft h
    have hend := @writeHook_eq proc address target allocated cave original
    cases hfirst : proc.transfer allocated cave (putAbsJmp target) with
    | none =>
      rw [hfirst] at hend
      exact absurd (congrArg Prod.fst hend) hne
    | some first =>
      cases hsecond : proc.transfer (withGate proc target cave allocated) (cave + 16)
          (trampolineBytes address original) with
      | none =>
        rw [hfirst, hsecond] at hend
        exact absurd (congrArg Prod.fst hend) hne
      | some second =>
        cases hthird : proc.transfer (unprotected proc address target cave original allocated)
            address (hookPatch address cave original.length) with
        | none =>
          rw [hfirst, hsecond, hthird] at hend
          exact absurd (congrArg Prod.fst hend) hne
        | some third =>
          rw [hfirst, hsecond, hthird, ← hinstall] at hend
          have hsome : (installSimpleHook proc dis address target t).1 =
              some ⟨address, cave + 16, cave, original, original.length⟩ := by rw [hend]
          obtain ⟨hgate, htrampoline, hpatch⟩ := (installed_iff hblock hroom horiginal hfirst hsecond
            hthird (by rw [hend]; rfl)).mp (h.installed _ hsome)
          have hremoved := h.removed _ hsome
          have hremovable : Removable proc address cave original := by
            rw [← removable_iff hroom]
            exact hremoved
          exact ⟨⟨first, hfirst, hgate⟩, ⟨second, hsecond, htrampoline⟩, ⟨third, hthird, hpatch⟩,
            hremovable⟩
  · rintro ⟨⟨first, hfirst, hgate⟩, ⟨second, hsecond, htrampoline⟩, ⟨third, hthird, hpatch⟩,
      hremovable⟩
    have hend := @writeHook_eq proc address target allocated cave original
    rw [hfirst, hsecond, hthird, ← hinstall] at hend
    have hhook : ∀ hook, (installSimpleHook proc dis address target t).1 = some hook →
        hook = ⟨address, cave + 16, cave, original, original.length⟩ := by
      intro hook hsome
      rw [hend] at hsome
      exact (Option.some.inj hsome).symm
    refine ⟨fun hnone ↦ ?_, fun hook hsome ↦ ?_, fun hook hsome ↦ ?_⟩
    · rw [hend] at hnone
      cases hnone
    · obtain rfl := hhook hook hsome
      exact (installed_iff hblock hroom horiginal hfirst hsecond hthird (by rw [hend]; rfl)).mpr
        ⟨hgate, htrampoline, hpatch⟩
    · obtain rfl := hhook hook hsome
      exact (removable_iff hroom).mpr hremovable

/-- An installation is all or nothing exactly if nothing goes wrong once it has a block. -/
theorem installSimpleHook_allOrNothing_iff :
    AllOrNothing proc dis address target t ↔ Completes proc dis address target t := by
  unfold Completes
  cases hstolen : stolenCode proc dis address t with
  | none =>
    have hinstall : installSimpleHook proc dis address target t = (none, t) := by
      rw [installSimpleHook, hstolen]
    refine iff_of_true ⟨fun _ ↦ by rw [hinstall], fun hook hsome ↦ ?_, fun hook hsome ↦ ?_⟩
      (fun original hsome ↦ by cases hsome)
    · rw [hinstall] at hsome
      cases hsome
    · rw [hinstall] at hsome
      cases hsome
  | some original =>
    obtain ⟨hroom, hlength, horiginal⟩ := stolenCode_eq_some hstolen
    cases hallocate : t.allocate proc.kernel (64 + original.length) address with | mk block allocated =>
    cases block with
    | error message =>
      have hinstall : installSimpleHook proc dis address target t = (none, allocated) := by
        simp only [installSimpleHook, hstolen, hallocate]
      have hmemory : allocated.memory = t.memory := by
        unfold Target.allocate at hallocate
        split at hallocate
        · rw [← (Prod.mk.inj hallocate).2]
        · cases (Prod.mk.inj hallocate).1
      refine iff_of_true ⟨fun _ ↦ by rw [hinstall, hmemory], fun hook hsome ↦ ?_,
        fun hook hsome ↦ ?_⟩ ?_
      · rw [hinstall] at hsome
        cases hsome
      · rw [hinstall] at hsome
        cases hsome
      · intro other hsome cave after hblock
        obtain rfl := Option.some.inj hsome
        rw [hallocate] at hblock
        cases hblock
    | ok cave =>
      have hblock := allocate_newBlock (by omega) hallocate
      have honly : ∀ P : List UInt8 → ℕ → Target → Prop,
          (∀ other, some original = some other → ∀ cave after,
            t.allocate proc.kernel (64 + other.length) address = (.ok cave, after) →
              P other cave after) ↔ P original cave allocated := by
        intro P
        constructor
        · exact fun h ↦ h original rfl cave allocated hallocate
        · intro h other hsome cave' after hother
          obtain rfl := Option.some.inj hsome
          rw [hallocate] at hother
          obtain ⟨hcave, rfl⟩ := Prod.mk.inj hother
          obtain rfl := Except.ok.inj hcave
          exact h
      rw [honly]
      by_cases hreach : reachable address cave = true
      · have hinstall : installSimpleHook proc dis address target t =
            writeHook proc address target cave original allocated := by
          simp only [installSimpleHook, hstolen, hallocate, if_pos hreach]
        rw [allOrNothing_writeHook proc dis address target t hblock hroom horiginal hinstall]
        exact (and_iff_right hreach).symm
      · have hinstall : installSimpleHook proc dis address target t = (none, allocated) := by
          simp only [installSimpleHook, hstolen, hallocate, if_neg hreach]
        refine iff_of_false (fun h ↦ ?_) fun h ↦ hreach h.1
        have hmemory := h.failed (by rw [hinstall])
        have hfresh := hblock.fresh 0 (by omega)
        have hnew := hblock.mapped 0 (by omega)
        rw [hinstall] at hmemory
        rw [hmemory, hfresh] at hnew
        cases hnew

end Exact

/-! ### A block out of reach -/

/-- A process that maps new blocks at one address, far from its code. -/
def farProcess : HookedProcess where
  kernel := {
    mmap := fun t size _ ↦
      if t.top ≤ 0x7f0000000000 ∧ 0 < pageAlign size then .ok 0x7f0000000000 else .error []
    munmap := fun _ _ _ ↦ none
    mprotect := fun t _ _ ↦ (t.protection, none)
    mmap_fresh := by
      intro t size _ address h
      split_ifs at h with hfree
      obtain rfl := Except.ok.inj h
      exact ⟨by decide, hfree.2, fun x hx ↦ t.unmapped x (hfree.1.trans hx.1)⟩ }
  runs32BitCode := false
  transfer := fun t address bytes ↦ (t.write address bytes).1
  mprotect := fun _ _ _ protection _ ↦ protection

/-- 32 bytes of code. -/
def nops : Target where
  memory := fun x ↦ if 0x1000 ≤ x ∧ x < 0x1020 then some 0x90 else none
  top := 0x1020
  unmapped := fun _ hx ↦ if_neg fun h ↦ absurd h.2 (not_lt.mpr hx)
  protection := fun _ ↦ MemProt.all
  events := []

def nopDisassembler : Disassembler where
  disassemble := fun _ _ code ↦ code.map fun _ ↦ ⟨"nop".toList, 1, false, 0⟩
  within := by
    intro _ _ code
    simp

/-- The installation fails and the block stays mapped. -/
theorem block_out_of_reach :
    (installSimpleHook farProcess nopDisassembler 0x1000 0x2000 nops).1 = none ∧
      (installSimpleHook farProcess nopDisassembler 0x1000 0x2000 nops).2.memory 0x7f0000000000 =
        some 0 ∧
      nops.memory 0x7f0000000000 = none ∧
      ¬AllOrNothing farProcess nopDisassembler 0x1000 0x2000 nops := by
  have hnone : (installSimpleHook farProcess nopDisassembler 0x1000 0x2000 nops).1 = none := by
    decide
  have hmapped : (installSimpleHook farProcess nopDisassembler 0x1000 0x2000 nops).2.memory
      0x7f0000000000 = some 0 := by
    decide
  have hfree : nops.memory 0x7f0000000000 = none := by decide
  refine ⟨hnone, hmapped, hfree, fun h ↦ ?_⟩
  rw [h.failed hnone, hfree] at hmapped
  cases hmapped

end Cecore.Platform
