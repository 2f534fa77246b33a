import Cecore.Core.Digits
import Cecore.Core.Types
import Cecore.Library.Markup
import Mathlib.Data.Int.ModEq

/-!
# Effective addresses

What `buildInstruction` of `arch/disassembler.cpp` takes over from a decoded instruction, and what
`computeEffectiveAddress` makes of it and the registers. Signed 64-bit sums wrap. The names of the
registers are a parameter, for they are Capstone's.
-/

set_option autoImplicit false
set_option relaxedAutoImplicit false

namespace Cecore.Disassembly

open Library.Markup (cut)

/-! ### Decoded instructions -/

inductive Arch
  | x86_32
  | x86_64
  | arm32
  | arm64
  deriving DecidableEq, Repr

/-- The general-purpose registers, whatever part of them is named. -/
inductive Gpr
  | ax | bx | cx | dx | si | di | bp | sp
  | r8 | r9 | r10 | r11 | r12 | r13 | r14 | r15
  deriving DecidableEq, Repr

/-- `x86_reg`, as far as memory operands have them. -/
inductive X86Reg
  | invalid
  | gpr64 (g : Gpr)
  | gpr32 (g : Gpr)
  | gpr16 (g : Gpr)
  | rip
  | eip
  /-- The index that an encoding names and that is no register. -/
  | riz
  | eiz
  | segment (n : ℕ)
  | vector (n : ℕ)
  deriving DecidableEq, Repr

/-- `x86_op_mem`. -/
structure X86OpMem where
  segment : X86Reg := .invalid
  base : X86Reg
  index : X86Reg
  scale : ℤ
  disp : BitVec 64
  deriving DecidableEq, Repr

/-- `cs_x86_op`. -/
inductive X86Op
  | reg (r : X86Reg)
  | imm (value : BitVec 64)
  | mem (m : X86OpMem)
  deriving DecidableEq, Repr

/-- `cs_x86`, with the fields of its encoding that are taken over. The address size is in bytes. -/
structure CsX86 where
  addrSize : ℕ
  operands : List X86Op
  dispOffset : ℕ
  dispSize : ℕ
  immOffset : ℕ
  immSize : ℕ
  deriving DecidableEq, Repr

/-- `cs_insn`. -/
structure CsInsn where
  address : BitVec 64
  size : ℕ
  bytes : List UInt8
  mnemonic : Text
  opStr : Text
  detail : Option CsX86
  deriving DecidableEq, Repr

structure MemoryOperand where
  present : Bool := false
  ripRelative : Bool := false
  baseReg : Text := []
  indexReg : Text := []
  scale : ℤ := 1
  disp : BitVec 64 := 0
  deriving DecidableEq, Repr

structure Instruction where
  address : BitVec 64
  bytes : List UInt8
  mnemonic : Text
  operands : Text
  size : ℕ
  ripTarget : BitVec 64 := 0
  memory : MemoryOperand := {}
  dispOffset : ℕ := 0
  dispSize : ℕ := 0
  immOffset : ℕ := 0
  immSize : ℕ := 0
  deriving DecidableEq, Repr

def X86Op.mem? : X86Op → Option X86OpMem
  | .mem m => some m
  | _ => none

/-- The operand is `[rip + disp]`. -/
def X86Op.ripMem? (op : X86Op) : Option X86OpMem :=
  op.mem?.filter fun m ↦ m.base = .rip ∧ m.index = .invalid

/-- `resolveRipRelative`: the target, and the text of the operands with the target in it. -/
def resolveRipRelative (insn : CsInsn) (ops : Text) : BitVec 64 × Text :=
  match insn.detail with
  | none => (0, ops)
  | some x86 =>
    match x86.operands.findSome? X86Op.ripMem? with
    | none => (0, ops)
    | some m =>
      let abs := insn.address + BitVec.ofNat 64 insn.size + m.disp
      match cut "[rip".toList ops with
      | none => (abs, ops)
      | some (before, rest) =>
        match cut [']'] rest with
        | none => (abs, ops)
        | some (_, after) => (abs, before ++ "[0x".toList ++ hex abs.toNat ++ "]".toList ++ after)

/-- `extractMemoryOperand`: the first memory operand. -/
def extractMemoryOperand (csRegName : X86Reg → Option Text) (insn : CsInsn) : MemoryOperand :=
  match insn.detail with
  | none => {}
  | some x86 =>
    match x86.operands.findSome? X86Op.mem? with
    | none => {}
    | some m =>
      { present := true
        ripRelative := m.base = .rip
        baseReg := if m.base = .rip ∨ m.base = .invalid then [] else (csRegName m.base).getD []
        indexReg := if m.index = .invalid then [] else (csRegName m.index).getD []
        scale := if m.scale ≠ 0 then m.scale else 1
        disp := m.disp }

/-- The detail is that of an x86 instruction on x86 only. -/
def buildInstruction (csRegName : X86Reg → Option Text) (insn : CsInsn) (arch : Arch) :
    Instruction :=
  let inst : Instruction :=
    { address := insn.address
      bytes := insn.bytes
      mnemonic := insn.mnemonic
      operands := insn.opStr
      size := insn.size % 2 ^ 8 }
  if arch = .x86_32 ∨ arch = .x86_64 then
    let resolved := resolveRipRelative insn inst.operands
    let inst := { inst with
      ripTarget := resolved.1
      operands := resolved.2
      memory := extractMemoryOperand csRegName insn }
    match insn.detail with
    | none => inst
    | some x86 =>
      { inst with
        dispOffset := x86.dispOffset
        dispSize := x86.dispSize
        immOffset := x86.immOffset
        immSize := x86.immSize }
  else inst

/-! ### Registers -/

/-- The registers of `CpuContext` that a memory operand can name. -/
structure CpuContext where
  rax : BitVec 64 := 0
  rbx : BitVec 64 := 0
  rcx : BitVec 64 := 0
  rdx : BitVec 64 := 0
  rsi : BitVec 64 := 0
  rdi : BitVec 64 := 0
  rbp : BitVec 64 := 0
  rsp : BitVec 64 := 0
  r8 : BitVec 64 := 0
  r9 : BitVec 64 := 0
  r10 : BitVec 64 := 0
  r11 : BitVec 64 := 0
  r12 : BitVec 64 := 0
  r13 : BitVec 64 := 0
  r14 : BitVec 64 := 0
  r15 : BitVec 64 := 0
  rip : BitVec 64 := 0
  deriving DecidableEq, Repr

def kRegs : List (Text × (CpuContext → BitVec 64)) :=
  [("rax".toList, CpuContext.rax), ("rbx".toList, CpuContext.rbx), ("rcx".toList, CpuContext.rcx),
    ("rdx".toList, CpuContext.rdx), ("rsi".toList, CpuContext.rsi), ("rdi".toList, CpuContext.rdi),
    ("rbp".toList, CpuContext.rbp), ("rsp".toList, CpuContext.rsp), ("r8".toList, CpuContext.r8),
    ("r9".toList, CpuContext.r9), ("r10".toList, CpuContext.r10), ("r11".toList, CpuContext.r11),
    ("r12".toList, CpuContext.r12), ("r13".toList, CpuContext.r13), ("r14".toList, CpuContext.r14),
    ("r15".toList, CpuContext.r15), ("rip".toList, CpuContext.rip),
    ("eax".toList, CpuContext.rax), ("ebx".toList, CpuContext.rbx), ("ecx".toList, CpuContext.rcx),
    ("edx".toList, CpuContext.rdx), ("esi".toList, CpuContext.rsi), ("edi".toList, CpuContext.rdi),
    ("ebp".toList, CpuContext.rbp), ("esp".toList, CpuContext.rsp), ("r8d".toList, CpuContext.r8),
    ("r9d".toList, CpuContext.r9), ("r10d".toList, CpuContext.r10), ("r11d".toList, CpuContext.r11),
    ("r12d".toList, CpuContext.r12), ("r13d".toList, CpuContext.r13),
    ("r14d".toList, CpuContext.r14), ("r15d".toList, CpuContext.r15)]

/-- A name that is not in the table reads as zero. -/
def registerValueByName (c : CpuContext) (name : Text) : BitVec 64 :=
  match kRegs.lookup name with
  | some register => register c
  | none => 0

def computeEffectiveAddress (inst : Instruction) (ctx : CpuContext) : BitVec 64 :=
  if !inst.memory.present then 0
  else if inst.memory.ripRelative then inst.ripTarget
  else
    let ea := inst.memory.disp
    let ea :=
      if inst.memory.baseReg ≠ [] then ea + registerValueByName ctx inst.memory.baseReg else ea
    if inst.memory.indexReg ≠ [] then
      ea + registerValueByName ctx inst.memory.indexReg * BitVec.ofInt 64 inst.memory.scale
    else ea

/-- The whole of a general-purpose register. -/
def CpuContext.gpr (c : CpuContext) : Gpr → BitVec 64
  | .ax => c.rax
  | .bx => c.rbx
  | .cx => c.rcx
  | .dx => c.rdx
  | .si => c.rsi
  | .di => c.rdi
  | .bp => c.rbp
  | .sp => c.rsp
  | .r8 => c.r8
  | .r9 => c.r9
  | .r10 => c.r10
  | .r11 => c.r11
  | .r12 => c.r12
  | .r13 => c.r13
  | .r14 => c.r14
  | .r15 => c.r15

/-! ### The addresses of the processor -/

/-- What a register counts for in an address; `next` is the address of the instruction behind. The
lanes of a vector register address on their own and are left out. -/
def X86Reg.content (ctx : CpuContext) (next : ℤ) : X86Reg → ℤ
  | .gpr64 g => (ctx.gpr g).toNat
  | .gpr32 g => (ctx.gpr g).toNat % 2 ^ 32
  | .gpr16 g => (ctx.gpr g).toNat % 2 ^ 16
  | .rip | .eip => next
  | .invalid | .riz | .eiz | .segment _ | .vector _ => 0

/-- The address of the processor, which is as wide as the address size. -/
def effectiveAddress (ctx : CpuContext) (insn : CsInsn) (x86 : CsX86) (m : X86OpMem) : ℕ :=
  let next : ℤ := insn.address.toNat + insn.size
  ((m.base.content ctx next + m.index.content ctx next * m.scale + m.disp.toInt) %
    2 ^ (8 * x86.addrSize)).toNat

/-- `m` is the first memory operand, without a segment override. -/
structure Accesses (insn : CsInsn) (x86 : CsX86) (m : X86OpMem) : Prop where
  detail : insn.detail = some x86
  first : x86.operands.findSome? X86Op.mem? = some m
  segment : m.segment = .invalid

def Gpr.name64 : Gpr → Text
  | .ax => "rax".toList
  | .bx => "rbx".toList
  | .cx => "rcx".toList
  | .dx => "rdx".toList
  | .si => "rsi".toList
  | .di => "rdi".toList
  | .bp => "rbp".toList
  | .sp => "rsp".toList
  | .r8 => "r8".toList
  | .r9 => "r9".toList
  | .r10 => "r10".toList
  | .r11 => "r11".toList
  | .r12 => "r12".toList
  | .r13 => "r13".toList
  | .r14 => "r14".toList
  | .r15 => "r15".toList

def Gpr.name32 : Gpr → Text
  | .ax => "eax".toList
  | .bx => "ebx".toList
  | .cx => "ecx".toList
  | .dx => "edx".toList
  | .si => "esi".toList
  | .di => "edi".toList
  | .bp => "ebp".toList
  | .sp => "esp".toList
  | .r8 => "r8d".toList
  | .r9 => "r9d".toList
  | .r10 => "r10d".toList
  | .r11 => "r11d".toList
  | .r12 => "r12d".toList
  | .r13 => "r13d".toList
  | .r14 => "r14d".toList
  | .r15 => "r15d".toList

/-- `cs_reg_name` has the names of the processor's manual. -/
structure RegNames (csRegName : X86Reg → Option Text) : Prop where
  gpr64 : ∀ g, csRegName (.gpr64 g) = some g.name64
  gpr32 : ∀ g, csRegName (.gpr32 g) = some g.name32
  riz : csRegName .riz = some "riz".toList
  eiz : csRegName .eiz = some "eiz".toList

/-- The register is one of those of an address size, in bytes. -/
def X86Reg.Addresses (size : ℕ) : X86Reg → Prop
  | .invalid => True
  | .gpr64 _ | .riz => size = 8
  | .gpr32 _ | .eiz => size = 4
  | _ => False

/-- A memory operand that is `[rip + disp]`, or whose registers are those of the address size. -/
structure Decoded (x86 : CsX86) (m : X86OpMem) : Prop where
  scale : m.scale = 1 ∨ m.scale = 2 ∨ m.scale = 4 ∨ m.scale = 8
  registers : m.base = .rip ∧ m.index = .invalid ∧ x86.addrSize = 8 ∨
    m.base.Addresses x86.addrSize ∧ m.index.Addresses x86.addrSize

/-! ### The sum -/

/-- What a register counts for in the sum, which is all of it. -/
def X86Reg.whole (ctx : CpuContext) (next : ℤ) : X86Reg → ℤ
  | .gpr64 g | .gpr32 g => (ctx.gpr g).toNat
  | .rip => next
  | _ => 0

/-- Base, index and displacement of an operand, not reduced. -/
def wholeSum (ctx : CpuContext) (insn : CsInsn) (m : X86OpMem) : ℤ :=
  let next : ℤ := insn.address.toNat + insn.size
  m.base.whole ctx next + m.index.whole ctx next * m.scale + m.disp.toInt

variable {csRegName : X86Reg → Option Text} {ctx : CpuContext} {insn : CsInsn} {x86 : CsX86}
  {m : X86OpMem}

theorem Gpr.registerValueByName_name64 (ctx : CpuContext) (g : Gpr) :
    registerValueByName ctx g.name64 = ctx.gpr g := by
  cases g <;> rfl

theorem Gpr.registerValueByName_name32 (ctx : CpuContext) (g : Gpr) :
    registerValueByName ctx g.name32 = ctx.gpr g := by
  cases g <;> rfl

/-- A register that is named is found in the table, with all of its bits; an index that is no
register is not found. -/
theorem RegNames.value (h : RegNames csRegName) {r : X86Reg} {size : ℕ} (hr : r.Addresses size)
    (hne : r ≠ .invalid) (ctx : CpuContext) (next : ℤ) :
    ∃ name, csRegName r = some name ∧ name ≠ [] ∧
      registerValueByName ctx name = BitVec.ofInt 64 (r.whole ctx next) := by
  cases r with
  | invalid => exact absurd rfl hne
  | gpr64 g =>
    refine ⟨_, h.gpr64 g, by cases g <;> decide, ?_⟩
    rw [g.registerValueByName_name64, X86Reg.whole, BitVec.ofInt_natCast, BitVec.ofNat_toNat,
      BitVec.setWidth_eq]
  | gpr32 g =>
    refine ⟨_, h.gpr32 g, by cases g <;> decide, ?_⟩
    rw [g.registerValueByName_name32, X86Reg.whole, BitVec.ofInt_natCast, BitVec.ofNat_toNat,
      BitVec.setWidth_eq]
  | riz => exact ⟨_, h.riz, by decide, rfl⟩
  | eiz => exact ⟨_, h.eiz, by decide, rfl⟩
  | gpr16 g => exact hr.elim
  | rip => exact hr.elim
  | eip => exact hr.elim
  | segment n => exact hr.elim
  | vector n => exact hr.elim

/-- One register is added, times `k`, if there is one. -/
theorem RegNames.add_register (h : RegNames csRegName) {r : X86Reg} {size : ℕ}
    (hr : r.Addresses size) (ctx : CpuContext) (next : ℤ) (ea k : BitVec 64) :
    (let name := if r = .invalid then [] else (csRegName r).getD []
      if name ≠ [] then ea + registerValueByName ctx name * k else ea) =
        ea + BitVec.ofInt 64 (r.whole ctx next) * k := by
  by_cases hne : r = .invalid
  · subst hne
    simp [X86Reg.whole]
  · obtain ⟨name, hname, hnil, hvalue⟩ := h.value hr hne ctx next
    simp [hne, hname, hnil, hvalue]

/-- The operand that is resolved is the first one. -/
theorem findSome?_ripMem? {operands : List X86Op} (hfirst : operands.findSome? X86Op.mem? = some m)
    (hbase : m.base = .rip) (hindex : m.index = .invalid) :
    operands.findSome? X86Op.ripMem? = some m := by
  induction operands with
  | nil => cases hfirst
  | cons op operands ih =>
    rw [List.findSome?_cons] at hfirst ⊢
    cases hop : op.mem? with
    | none =>
      rw [hop] at hfirst
      rw [X86Op.ripMem?, hop]
      exact ih hfirst
    | some m' =>
      rw [hop] at hfirst
      cases hfirst
      rw [X86Op.ripMem?, hop, Option.filter_some_pos (by simp [hbase, hindex])]

theorem resolveRipRelative_target (hdetail : insn.detail = some x86)
    (hfound : x86.operands.findSome? X86Op.ripMem? = some m) (ops : Text) :
    (resolveRipRelative insn ops).1 = insn.address + BitVec.ofNat 64 insn.size + m.disp := by
  simp only [resolveRipRelative, hdetail, hfound]
  split
  · rfl
  · split <;> rfl

theorem buildInstruction_x86 (csRegName : X86Reg → Option Text) (insn : CsInsn) {arch : Arch}
    (harch : arch = .x86_32 ∨ arch = .x86_64) :
    (buildInstruction csRegName insn arch).memory = extractMemoryOperand csRegName insn ∧
      (buildInstruction csRegName insn arch).ripTarget =
        (resolveRipRelative insn insn.opStr).1 := by
  rw [buildInstruction, if_pos harch]
  cases insn.detail <;> exact ⟨rfl, rfl⟩

theorem computeEffectiveAddress_eq_wholeSum (hnames : RegNames csRegName) {arch : Arch}
    (harch : arch = .x86_32 ∨ arch = .x86_64) (hop : Accesses insn x86 m) (hm : Decoded x86 m)
    (ctx : CpuContext) :
    computeEffectiveAddress (buildInstruction csRegName insn arch) ctx =
      BitVec.ofInt 64 (wholeSum ctx insn m) := by
  obtain ⟨hmemory, htarget⟩ := buildInstruction_x86 csRegName insn harch
  have hextract : extractMemoryOperand csRegName insn =
      { present := true
        ripRelative := m.base = .rip
        baseReg := if m.base = .rip ∨ m.base = .invalid then [] else (csRegName m.base).getD []
        indexReg := if m.index = .invalid then [] else (csRegName m.index).getD []
        scale := m.scale
        disp := m.disp } := by
    have hscale : m.scale ≠ 0 := by
      rcases hm.scale with h | h | h | h <;> omega
    simp [extractMemoryOperand, hop.detail, hop.first, hscale]
  rw [computeEffectiveAddress, hmemory, htarget, hextract]
  rcases hm.registers with ⟨hbase, hindex, -⟩ | ⟨hbase, hindex⟩
  · have hfound := findSome?_ripMem? hop.first hbase hindex
    rw [resolveRipRelative_target hop.detail hfound]
    simp [hbase, hindex, wholeSum, X86Reg.whole, BitVec.ofInt_add]
  · have hrip : m.base ≠ .rip := fun h ↦ by simp [h, X86Reg.Addresses] at hbase
    have haddBase := hnames.add_register hbase ctx (insn.address.toNat + insn.size) m.disp 1#64
    have haddIndex := hnames.add_register hindex ctx (insn.address.toNat + insn.size)
      (m.disp + BitVec.ofInt 64 (m.base.whole ctx (insn.address.toNat + insn.size)))
      (BitVec.ofInt 64 m.scale)
    simp only [BitVec.mul_one] at haddBase
    simp only [hrip, false_or, decide_false, Bool.not_true, Bool.false_eq_true, if_false, haddBase,
      haddIndex, wholeSum, BitVec.ofInt_add, BitVec.ofInt_mul, BitVec.ofInt_toInt]
    ac_rfl

theorem X86Reg.Addresses.content_modEq {r : X86Reg} {size : ℕ} (hr : r.Addresses size)
    (ctx : CpuContext) (next : ℤ) :
    r.content ctx next ≡ r.whole ctx next [ZMOD 2 ^ (8 * size)] := by
  cases r with
  | gpr32 g =>
    cases hr
    exact Int.mod_modEq _ _
  | invalid | gpr64 | riz | eiz => exact Int.ModEq.rfl
  | gpr16 | rip | eip | segment | vector => exact hr.elim

/-- The processor adds up less of the registers, and the address is the same. -/
theorem Decoded.effectiveAddress_eq (hm : Decoded x86 m) (ctx : CpuContext) (insn : CsInsn) :
    (effectiveAddress ctx insn x86 m : ℤ) = wholeSum ctx insn m % 2 ^ (8 * x86.addrSize) := by
  have hmod : ∀ next : ℤ, m.base.content ctx next + m.index.content ctx next * m.scale +
      m.disp.toInt ≡ m.base.whole ctx next + m.index.whole ctx next * m.scale + m.disp.toInt
        [ZMOD 2 ^ (8 * x86.addrSize)] := by
    intro next
    rcases hm.registers with ⟨hbase, hindex, -⟩ | ⟨hbase, hindex⟩
    · rw [hbase, hindex]
      exact Int.ModEq.rfl
    · exact ((hbase.content_modEq ctx next).add
        ((hindex.content_modEq ctx next).mul_right m.scale)).add_right _
  rw [effectiveAddress, Int.toNat_of_nonneg (Int.emod_nonneg _ (by positivity))]
  exact hmod _

/-- The address that is computed is the sum of the whole registers, reduced to 64 bits. This is the
address of the processor for an address size of 64 bits. For one of 32 bits it agrees with it up to
the reduction, which is not made. -/
theorem computeEffectiveAddress_not_truncated (hnames : RegNames csRegName) {arch : Arch}
    (harch : arch = .x86_32 ∨ arch = .x86_64) (hop : Accesses insn x86 m) (hm : Decoded x86 m)
    (ctx : CpuContext) :
    ((computeEffectiveAddress (buildInstruction csRegName insn arch) ctx).toNat : ℤ) =
        wholeSum ctx insn m % 2 ^ 64 ∧
      (x86.addrSize = 8 →
        (computeEffectiveAddress (buildInstruction csRegName insn arch) ctx).toNat =
          effectiveAddress ctx insn x86 m) ∧
      (x86.addrSize = 4 →
        (computeEffectiveAddress (buildInstruction csRegName insn arch) ctx).toNat % 2 ^ 32 =
            effectiveAddress ctx insn x86 m ∧
          ((computeEffectiveAddress (buildInstruction csRegName insn arch) ctx).toNat =
              effectiveAddress ctx insn x86 m ↔
            wholeSum ctx insn m % 2 ^ 64 < 2 ^ 32)) := by
  have haddress := hm.effectiveAddress_eq ctx insn
  have hcomputed :
      ((computeEffectiveAddress (buildInstruction csRegName insn arch) ctx).toNat : ℤ) =
        wholeSum ctx insn m % 2 ^ 64 := by
    rw [computeEffectiveAddress_eq_wholeSum hnames harch hop hm ctx, BitVec.toNat_ofInt,
      Int.toNat_of_nonneg (Int.emod_nonneg _ (by decide))]
    rfl
  refine ⟨hcomputed, fun hsize ↦ ?_, fun hsize ↦ ?_⟩
  · rw [hsize] at haddress
    exact Int.ofNat_inj.mp (hcomputed.trans haddress.symm)
  · rw [hsize] at haddress
    omega

/-! ### Instructions whose address is not that of the processor -/

/-- The names that Capstone gives to the registers of the processor. -/
def manualName : X86Reg → Option Text
  | .gpr64 g => some g.name64
  | .gpr32 g => some g.name32
  | .gpr16 g => some (if g.name32.head? = some 'e' then g.name32.tail else g.name64 ++ ['w'])
  | .rip => some "rip".toList
  | .eip => some "eip".toList
  | .riz => some "riz".toList
  | .eiz => some "eiz".toList
  | .invalid | .segment _ | .vector _ => none

theorem regNames_manualName : RegNames manualName := ⟨fun _ ↦ rfl, fun _ ↦ rfl, rfl, rfl⟩

/-- The detail of a load of `eax` by a memory operand. -/
def loadDetail (m : X86OpMem) (addrSize : ℕ) : CsX86 :=
  ⟨addrSize, [.reg (.gpr32 .ax), .mem m], 0, 0, 0, 0⟩

def loadEax (m : X86OpMem) (addrSize : ℕ) (bytes : List UInt8) (operand : String) : CsInsn where
  address := 0x401000
  size := bytes.length
  bytes := bytes
  mnemonic := "mov".toList
  opStr := "eax, dword ptr ".toList ++ operand.toList
  detail := some (loadDetail m addrSize)

/-- `[ebx + ecx*4]`, as in a walk down an array. -/
def indexed : X86OpMem := ⟨.invalid, .gpr32 .bx, .gpr32 .cx, 4, 0⟩

/-- `[eip + 0x100]`, behind an address size prefix in 64-bit code. -/
def eipRelative : X86OpMem := ⟨.invalid, .eip, .invalid, 1, 0x100⟩

/-- `[bx + 4]`, behind an address size prefix in 32-bit code. -/
def baseBx : X86OpMem := ⟨.invalid, .gpr16 .bx, .invalid, 1, 4⟩

def loadIndexed : CsInsn := loadEax indexed 4 [0x8B, 0x04, 0x8B] "[ebx + ecx*4]"

def loadEipRelative : CsInsn :=
  loadEax eipRelative 4 [0x67, 0x8B, 0x05, 0, 1, 0, 0] "[eip + 0x100]"

def loadBaseBx : CsInsn := loadEax baseBx 2 [0x67, 0x8B, 0x47, 0x04] "[bx + 4]"

/-- The index is `-1`. -/
def indexMinusOne : CpuContext where
  rbx := 0x1000
  rcx := 0xFFFFFFFF

/-- The sum of an index of `-1` leaves the 32 bits, and neither `eip` nor `bx` is in the table. -/
theorem computeEffectiveAddress_ne_effectiveAddress :
    (Accesses loadIndexed (loadDetail indexed 4) indexed ∧
      (computeEffectiveAddress (buildInstruction manualName loadIndexed .x86_32)
        indexMinusOne).toNat = 0x400000FFC ∧
      effectiveAddress indexMinusOne loadIndexed (loadDetail indexed 4) indexed = 0xFFC) ∧
    (Accesses loadEipRelative (loadDetail eipRelative 4) eipRelative ∧
      (computeEffectiveAddress (buildInstruction manualName loadEipRelative .x86_64)
        indexMinusOne).toNat = 0x100 ∧
      effectiveAddress indexMinusOne loadEipRelative (loadDetail eipRelative 4) eipRelative =
        0x401107) ∧
    (Accesses loadBaseBx (loadDetail baseBx 2) baseBx ∧
      (computeEffectiveAddress (buildInstruction manualName loadBaseBx .x86_32)
        indexMinusOne).toNat = 4 ∧
      effectiveAddress indexMinusOne loadBaseBx (loadDetail baseBx 2) baseBx = 0x1004) :=
  ⟨⟨⟨rfl, rfl, rfl⟩, rfl, rfl⟩, ⟨⟨rfl, rfl, rfl⟩, rfl, rfl⟩, ⟨rfl, rfl, rfl⟩, rfl, rfl⟩

theorem computeEffectiveAddress_indexed :
    (computeEffectiveAddress (buildInstruction manualName loadIndexed .x86_32)
      indexMinusOne).toNat % 2 ^ 32 = 0xFFC := by
  have hop : Accesses loadIndexed (loadDetail indexed 4) indexed := ⟨rfl, rfl, rfl⟩
  have hm : Decoded (loadDetail indexed 4) indexed := ⟨.inr (.inr (.inl rfl)), .inr ⟨rfl, rfl⟩⟩
  exact ((computeEffectiveAddress_not_truncated regNames_manualName (.inl rfl) hop hm
    indexMinusOne).2.2 rfl).1

end Cecore.Disassembly
