import Cecore.AutoAsm.Execute
import Cecore.Library.Effects

/-!
# What a line can do

Each line of the emission pass moves the run by a few kinds of steps (`LineStep`), whatever line it
is and whether it fails or not: it keeps target, maps and `DisableInfo`; it changes protections,
records original bytes, writes over recorded bytes, unregisters a name it lists, frees a tracked
block it lists, or has code run in the target. `emitLine_along` says so for every line. The
invariants of the later modules are proved of these steps.
-/

set_option autoImplicit false
set_option relaxedAutoImplicit false

namespace Cecore.AutoAsm

open Platform Emit Library.Effects Library.Journal

/-- The names that an `UNREGISTERSYMBOL` line lists. -/
def Line.unregisters : Line → List Text
  | .unregisterSymbol args => listedNames args
  | _ => []

/-- The names that a `DEALLOC` line lists. -/
def Line.deallocates : Line → List Text
  | .dealloc args => listedNames args
  | _ => []

/-- A change that a line makes to a run. -/
inductive LineStep (env : Environment) (line : Line) : Run → Run → Prop
  | keeps {s s' : Run} (htarget : s'.target = s.target) (hregistry : s'.registry = s.registry)
      (hinfo : s'.disableInfo = s.disableInfo) : LineStep env line s s'
  | protects (s : Run) (address size : ℕ) :
      LineStep env line s { s with target := (s.target.protect env.kernel address size).2 }
  | records (s : Run) (original : OriginalBytes)
      (hread : ∀ x byte, original.at x = some byte → s.target.memory x = some byte) :
      LineStep env line s { s with
        disableInfo := { s.disableInfo with originals := s.disableInfo.originals ++ [original] } }
  | writes (s : Run) (address : ℕ) (bytes : List UInt8)
      (hrecorded : ∃ original ∈ s.disableInfo.originals, original.address = address ∧
        original.cells.length = bytes.length) :
      LineStep env line s { s with target := (s.target.write address bytes).2 }
  | unregisters (s : Run) (name : Text) (hname : name ∈ line.unregisters) :
      LineStep env line s (unregister name s)
  | frees (s : Run) (name : Text) (entry : AllocEntry) (after : Target)
      (hname : name ∈ line.deallocates)
      (hknown : s.registry.knownAllocations name = some entry)
      (hfree : s.target.free env.kernel entry.address entry.size = (none, after)) :
      LineStep env line s (forgetAlloc name { s with target := after })
  | refuses (s : Run) (name : Text) (entry : AllocEntry) (message : Text) (after : Target)
      (hname : name ∈ line.deallocates)
      (hknown : s.registry.knownAllocations name = some entry)
      (hfree : s.target.free env.kernel entry.address entry.size = (some message, after)) :
      LineStep env line s { s with target := after }
  | foreign (s : Run) (t : Target)
      (hruns : env.RunsCode s.target t) :
      LineStep env line s { s with
        target := { t with events := s.target.events ++ [.foreign] } }

section Lines

variable {env : Environment} {script : Script} {line : Line} {s : Run}

theorem addLog_along (entry : Text) : Along (LineStep env line) (addLog entry) s :=
  Along.update (LineStep.keeps rfl rfl rfl)

theorem fail_along {α : Type} (error : Text) : Along (LineStep env line) (fail error : Emit α) s :=
  Along.raise _

theorem failBack_along {α : Type} (error : Text) :
    Along (LineStep env line) (failBack error : Emit α) s :=
  Along.raise _

theorem setCurrentAddr_along (address : ℕ) :
    Along (LineStep env line) (setCurrentAddr address) s :=
  Along.update (LineStep.keeps rfl rfl rfl)

/-! ### Patches -/

theorem patchMemory_along (addr : ℕ) (bytes : List UInt8) :
    Along (LineStep env line) (patchMemory env addr bytes) s := by
  unfold patchMemory
  refine Along.read ?_
  cases hread : s.target.readWhole addr bytes.length with
  | none => exact failBack_along _
  | some orig =>
    obtain ⟨hlength, hbytes⟩ := Target.readWhole_eq_some hread
    have hrecorded : ∃ original ∈ s.disableInfo.originals ++ [⟨addr, orig⟩],
        original.address = addr ∧ original.cells.length = bytes.length :=
      ⟨⟨addr, orig⟩, by simp, rfl, hlength⟩
    refine Along.updateThen (LineStep.records s ⟨addr, orig⟩ hbytes) ?_
    refine Along.updateGetThen (LineStep.writes _ addr bytes hrecorded) ?_
    split_ifs
    · exact Along.ret _
    · refine Along.updateGetThen (LineStep.protects _ addr bytes.length) ?_
      refine Along.updateGetThen (LineStep.writes _ addr bytes hrecorded) ?_
      split_ifs
      · exact Along.ret _
      · exact failBack_along _

theorem emitHere_along (bytes : List UInt8) :
    Along (LineStep env line) (emitHere env bytes) s := by
  unfold emitHere
  refine Along.read (Along.andThen (patchMemory_along _ _) fun _ _ _ ↦ ?_)
  exact Along.update (LineStep.keeps rfl rfl rfl)

/-! ### Lines that need no current address -/

theorem emitLabel_along (labelName : Text) :
    Along (LineStep env line) (emitLabel script labelName) s := by
  unfold emitLabel
  refine Along.read ?_
  split
  · exact setCurrentAddr_along _
  · split
    · split_ifs
      · exact fail_along _
      · exact Along.update (LineStep.keeps rfl rfl rfl)
    · dsimp only
      split_ifs
      · exact fail_along _
      · exact setCurrentAddr_along _

theorem emitFullAccess_along (args : Text) :
    Along (LineStep env line) (emitFullAccess env script args) s := by
  unfold emitFullAccess
  refine Along.read ?_
  split
  · exact fail_along _
  · dsimp only
    split
    · exact fail_along _
    · split_ifs
      · exact fail_along _
      · refine Along.updateGetThen (LineStep.protects s _ _) ?_
        split
        · exact fail_along _
        · exact addLog_along _

theorem emitAssert_along (args : Text) :
    Along (LineStep env line) (emitAssert script args) s := by
  unfold emitAssert
  refine Along.read ?_
  dsimp only
  split
  · exact fail_along _
  · exact addLog_along _

theorem emitUnregister_along (names : List Text) (hnames : ∀ name ∈ names, name ∈ line.unregisters) :
    Along (LineStep env line) (emitUnregister names) s := by
  induction names generalizing s with
  | nil => exact Along.ret _
  | cons name rest ih =>
    unfold emitUnregister
    refine Along.updateThen (LineStep.unregisters s name (hnames name List.mem_cons_self)) ?_
    refine Along.andThen (addLog_along _) fun _ _ _ ↦ ?_
    exact ih fun other hother ↦ hnames other (List.mem_cons_of_mem _ hother)

/-- A tracked block is freed and forgotten, or the refused call ends the line. -/
theorem deallocTracked_eq (name : Text) (entry : AllocEntry) (s : Run) :
    deallocTracked env name entry s =
      match s.target.free env.kernel entry.address entry.size with
      | (some message, after) =>
        .error ⟨false, "DEALLOC failed for ".toList ++ name ++ ": ".toList ++ message⟩
          { s with target := after }
      | (none, after) =>
        .ok ⟨⟩ { forgetAlloc name { s with target := after } with
          log := s.log ++ ["DEALLOC: ".toList ++ name] } := by
  unfold deallocTracked onTarget
  simp only [bind_apply, modifyGet_apply]
  rcases s.target.free env.kernel entry.address entry.size with ⟨refused, after⟩
  cases refused <;> rfl

theorem deallocTracked_along {name : Text} {entry : AllocEntry} (hname : name ∈ line.deallocates)
    (hknown : s.registry.knownAllocations name = some entry) :
    Along (LineStep env line) (deallocTracked env name entry) s := by
  unfold Along
  rw [deallocTracked_eq]
  rcases hfree : s.target.free env.kernel entry.address entry.size with ⟨refused, after⟩
  cases refused with
  | some message =>
    exact Relation.ReflTransGen.single (LineStep.refuses s name entry message after hname hknown hfree)
  | none =>
    have hfreed := LineStep.frees s name entry after hname hknown hfree
    exact (Relation.ReflTransGen.single hfreed).tail (LineStep.keeps rfl rfl rfl)

theorem emitDealloc_along (names : List Text) (hnames : ∀ name ∈ names, name ∈ line.deallocates) :
    Along (LineStep env line) (emitDealloc env names) s := by
  induction names generalizing s with
  | nil => exact Along.ret _
  | cons name rest ih =>
    have hrest : ∀ s', Along (LineStep env line) (emitDealloc env rest) s' := fun s' ↦
      ih fun other hother ↦ hnames other (List.mem_cons_of_mem _ hother)
    unfold emitDealloc
    refine Along.read ?_
    split
    · exact Along.andThen (addLog_along _) fun _ s' _ ↦ hrest s'
    · next entry hknown =>
      refine Along.andThen ?_ fun _ s' _ ↦ hrest s'
      exact deallocTracked_along (hnames name List.mem_cons_self) hknown

theorem emitCreateThread_along (trimmedLine : Text) (thread : DeferredThread) :
    Along (LineStep env line) (emitCreateThread trimmedLine thread) s := by
  unfold emitCreateThread
  exact Along.updateThen (LineStep.keeps rfl rfl rfl) (addLog_along _)

theorem emitCreateThreadAndWait_along (trimmedLine args : Text) :
    Along (LineStep env line) (emitCreateThreadAndWait trimmedLine args) s := by
  unfold emitCreateThreadAndWait
  split
  · exact fail_along _
  · exact fail_along _
  · split
    · exact emitCreateThread_along _ _
    · split
      · exact fail_along _
      · exact emitCreateThread_along _ _

theorem emitLoadBinary_along (args : Text) :
    Along (LineStep env line) (emitLoadBinary env script args) s := by
  unfold emitLoadBinary
  refine Along.read ?_
  split
  · next address file _ =>
    dsimp only
    split_ifs
    · exact fail_along _
    · split
      · exact fail_along _
      · next content _ =>
        split_ifs
        · exact fail_along _
        · split
          · exact fail_along _
          · next orig hread =>
            obtain ⟨hlength, hbytes⟩ := Target.readWhole_eq_some hread
            refine Along.updateThen (LineStep.records s ⟨_, orig⟩ hbytes) ?_
            refine Along.updateGetThen (LineStep.writes _ _ _
              ⟨⟨_, orig⟩, List.mem_append_right _ List.mem_cons_self, rfl, hlength⟩) ?_
            split_ifs
            · exact addLog_along _
            · exact fail_along _
  · exact fail_along _

theorem emitLoadLibrary_along (args : Text) :
    Along (LineStep env line) (emitLoadLibrary env args) s := by
  unfold emitLoadLibrary
  dsimp only
  split_ifs
  · exact fail_along _
  · exact fail_along _
  · refine Along.updateGetThen (LineStep.foreign s _ (.injectLibrary _)) ?_
    split
    · exact fail_along _
    · exact addLog_along _

/-! ### Lines at the current address -/

theorem emitReassemble_along (addrExpr : Text) :
    Along (LineStep env line) (emitReassemble env script addrExpr) s := by
  unfold emitReassemble
  refine Along.read ?_
  dsimp only
  split_ifs
  · exact Along.ret _
  · split
    · split
      · split_ifs
        · exact Along.ret _
        · exact emitHere_along _
      · exact Along.ret _
    · exact Along.ret _

theorem emitReadMem_along (args : Text) :
    Along (LineStep env line) (emitReadMem env script args) s := by
  unfold emitReadMem
  refine Along.read ?_
  split
  · exact Along.ret _
  · dsimp only
    split
    · exact fail_along _
    · split_ifs
      · exact fail_along _
      · exact Along.ret _
      · split
        · exact fail_along _
        · exact emitHere_along _

theorem emitFillMem_along (args : Text) :
    Along (LineStep env line) (emitFillMem env script args) s := by
  unfold emitFillMem
  refine Along.read ?_
  split
  · dsimp only
    split
    · split_ifs
      · exact fail_along _
      · exact fail_along _
      · exact Along.andThen (patchMemory_along _ _) fun _ _ _ ↦ addLog_along _
    · exact fail_along _
  · exact fail_along _

theorem emitNop_along (countExpr : Text) :
    Along (LineStep env line) (emitNop env countExpr) s := by
  unfold emitNop
  split
  · exact fail_along _
  · exact emitHere_along _

theorem emitDs_along (text : Text) : Along (LineStep env line) (emitDs env text) s := by
  unfold emitDs
  split_ifs
  · exact fail_along _
  · exact emitHere_along _

theorem emitData_along (op values : Text) :
    Along (LineStep env line) (emitData env script op values) s := by
  unfold emitData
  refine Along.read ?_
  split
  · exact fail_along _
  · split_ifs
    · exact Along.ret _
    · exact emitHere_along _

theorem emitAsm_along (trimmedLine code : Text) :
    Along (LineStep env line) (emitAsm env script trimmedLine code) s := by
  unfold emitAsm
  refine Along.read ?_
  split
  · exact Along.andThen (addLog_along _) fun _ _ _ ↦ failBack_along _
  · split_ifs
    · exact Along.ret _
    · exact emitHere_along _

theorem emitAtAddress_along (trimmedLine : Text) (kind : Line) :
    Along (LineStep env line) (emitAtAddress env script trimmedLine kind) s := by
  cases kind with
  | reassemble addrExpr => exact emitReassemble_along addrExpr
  | readMem args => exact emitReadMem_along args
  | fillMem args => exact emitFillMem_along args
  | nop countExpr => exact emitNop_along countExpr
  | ds text => exact emitDs_along text
  | data op values => exact emitData_along op values
  | asm code => exact emitAsm_along trimmedLine code
  | _ => exact Along.ret _

/-- A line moves the run by its steps. -/
theorem emitLine_along (rawLine : Text) (s : Run) :
    Along (LineStep env (classify (trim rawLine))) (emitLine env script rawLine) s := by
  unfold emitLine
  dsimp only
  split
  · exact emitLabel_along _
  · exact emitFullAccess_along _
  · exact emitAssert_along _
  · next args hkind =>
    refine emitUnregister_along _ fun name hname ↦ ?_
    rw [hkind]
    exact hname
  · next args hkind =>
    refine emitDealloc_along _ fun name hname ↦ ?_
    rw [hkind]
    exact hname
  · exact emitCreateThread_along _ _
  · exact emitCreateThreadAndWait_along _ _
  · exact emitLoadBinary_along _
  · exact emitLoadLibrary_along _
  · refine Along.read ?_
    split_ifs
    · exact fail_along _
    · exact emitAtAddress_along _ _

end Lines

end Cecore.AutoAsm
