import Cecore.AutoAsm.Environment

/-!
# Plain surroundings

A kernel that maps above everything mapped so far and refuses nothing else, and an environment
around it: no modules, hooks, commands or files, an assembler that knows no instruction, and an
injector whose threads return at once. Runs on given inputs use it.
-/

set_option autoImplicit false
set_option relaxedAutoImplicit false

namespace Cecore.AutoAsm

open Platform

/-- Maps the next page above `top`. -/
def bumpKernel : Kernel where
  mmap t size _ := if pageAlign size = 0 then .error "mmap failed".toList
    else .ok ((t.top / 4096 + 1) * 4096)
  munmap _ _ _ := none
  mprotect t address size :=
    (fun x ↦ if address ≤ x ∧ x < address + size then MemProt.all else t.protection x, none)
  mmap_fresh t size _ address h := by
    split_ifs at h with hsize
    rw [← Except.ok.inj h]
    refine ⟨by omega, by omega, fun x hx ↦ t.unmapped x ?_⟩
    have hle := hx.1
    omega

def plainEnvironment : Environment where
  kernel := bumpKernel
  host := Scanner.sampleHost
  runs32BitCode _ := false
  modules _ := []
  queryRegions _ := []
  pagemap _ _ := none
  assemble _ _ _ := .error "unknown instruction".toList
  disassemble _ _ _ := none
  fromChars _ _ := none
  file _ := none
  fileExists _ := false
  preprocessScript code := ⟨true, code, [], []⟩
  customCommand _ := none
  tracerHint _ := []
  injectLibrary t _ := (.error "no injector".toList, t)
  createRemoteThread t _ _ _ := (.ok {}, t)
  createRemoteThread_stack t t' entryPoint wait timeoutMs info h := by
    rw [← Except.ok.inj (Prod.mk.inj h).1]

theorem plainEnvironment_runsCode {t t' : Target} (h : plainEnvironment.RunsCode t t') : t' = t := by
  cases h <;> rfl

theorem plainEnvironment_quiet : plainEnvironment.Quiet := fun t t' hruns x byte hbyte ↦ by
  rw [plainEnvironment_runsCode hruns]
  exact hbyte

theorem plainEnvironment_keepsMapped : plainEnvironment.KeepsMapped := fun t t' hruns x hx ↦ by
  rw [plainEnvironment_runsCode hruns]
  exact hx

/-- One page at `0x1000` that holds zeros. -/
def onePage : Target where
  memory x := if 0x1000 ≤ x ∧ x < 0x2000 then some 0 else none
  top := 0x2000
  unmapped x hx := by
    rw [if_neg]
    omega
  protection _ := MemProt.all
  events := []

end Cecore.AutoAsm
