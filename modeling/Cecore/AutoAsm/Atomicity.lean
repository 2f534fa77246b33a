import Cecore.AutoAsm.SymbolOwnership
import Cecore.AutoAsm.Undo

/-!
# Executions that fail

A failing `execute` leaves target and maps as they were if it rolls back, or returns while it has
nothing to undo, and if the names it unregisters and deallocates are its own
(`execute_atomic`). Most failures of the emission loop return without rolling back: a failing
`ASSERT` behind a patch leaves the patch.
-/

set_option autoImplicit false
set_option relaxedAutoImplicit false

namespace Cecore.AutoAsm

open Platform Platform.Target Emit Library.Effects Library.Journal

/-! ### What a failure has to leave -/

/-- Mapped bytes hold their values, the blocks allocated in between have been freed, and the maps are
as they were, apart from the module bases. -/
structure Atomic (env : Environment) (before after : World) : Prop where
  restored : ∀ x byte, before.target.memory x = some byte → after.target.memory x = some byte
  freed : ∀ event ∈ since before.target after.target, ∀ block, event.allocated = some block →
    Event.free block.1 block.2 true ∈ since before.target after.target
  globalSymbols : after.registry.globalSymbols = (seeded env before).registry.globalSymbols
  knownAllocations : after.registry.knownAllocations = before.registry.knownAllocations

/-- The failure of the phases after parsing, if they fail, and the state they fail in. -/
def failing (env : Environment) (fuel : ℕ) (w : World) (scriptText : Text) :
    Option (Failure × Run) :=
  match parseScript env fuel (seeded env w) scriptText with
  | some (true, parsed) =>
    match executeParsed env (env.runs32BitCode w.target) parsed (startRun (seeded env w) parsed) with
    | .error failure run => some (failure, run)
    | .ok _ _ => none
  | _ => none

theorem failing_of_error {env : Environment} {fuel : ℕ} {w : World} {scriptText : Text}
    {parsed : Parsed} {failure : Failure} {run : Run}
    (hparse : parseScript env fuel (seeded env w) scriptText = some (true, parsed))
    (herror : executeParsed env (env.runs32BitCode w.target) parsed (startRun (seeded env w) parsed) =
      .error failure run) : failing env fuel w scriptText = some (failure, run) := by
  rw [failing, hparse]
  dsimp only
  rw [herror]

/-- The kernel refuses none of the blocks when they are freed in turn. -/
def Unmaps (env : Environment) : List AllocEntry → World → Prop
  | [], _ => True
  | a :: rest, w => env.kernel.munmap w.target a.address a.size = none ∧
      Unmaps env rest (freeAlloc env a w)

/-- A name under which no block was known before, and that at most one of the blocks has. -/
def OwnName (known : Text → Option AllocEntry) (allocs : List Alloc) (name : Text) : Prop :=
  known name = none ∧ ∀ a ∈ allocs, ∀ b ∈ allocs, a.name = name → b.name = name → a = b

/-- An execution that returns without rolling back has nothing to undo, and its lines unregister no
symbol and free no block but its own. -/
structure UndoesFailure (env : Environment) (fuel : ℕ) (w : World) (scriptText : Text) : Prop where
  returned : ∀ failure run, failing env fuel w scriptText = some (failure, run) →
    failure.rollback = false → run.disableInfo.originals = [] ∧ run.disableInfo.allocs = []
  finished : ∀ parsed run, parseScript env fuel (seeded env w) scriptText = some (true, parsed) →
    executeParsed env (env.runs32BitCode w.target) parsed (startRun (seeded env w) parsed) =
      .ok ⟨⟩ run → parsed.error = []
  unregistered : ∀ script rawLine run, ReachesLine env fuel w scriptText script rawLine run →
    ∀ name ∈ (classify (trim rawLine)).unregisters,
      (seeded env w).registry.globalSymbols name = none
  deallocated : ∀ script rawLine run, ReachesLine env fuel w scriptText script rawLine run →
    ∀ name ∈ (classify (trim rawLine)).deallocates,
      OwnName w.registry.knownAllocations script.allocs name
  allocated : ∀ parsed allocs allocated,
    parseScript env fuel (seeded env w) scriptText = some (true, parsed) →
      allocateAll env parsed.labels parsed.defines [] parsed.allocs
        (startRun (seeded env w) parsed) = .ok allocs allocated →
      ∀ a ∈ allocs, w.registry.knownAllocations a.name = none
  unmapped : ∀ failure run, failing env fuel w scriptText = some (failure, run) →
    failure.rollback = true → Unmaps env run.disableInfo.allocs
      ⟨restoreOriginals run.disableInfo.originals run.target, run.registry⟩

/-! ### What the lines of such an execution do -/

/-- The run `s` went on from `allocated`, the end of the allocation phase, by lines that free only
blocks of the script. -/
structure Accounted (known : Text → Option AllocEntry) (allocs : List Alloc) (allocated s : Run) :
    Prop where
  globalSymbols : s.registry.globalSymbols = allocated.registry.globalSymbols
  known : ∀ name, s.registry.knownAllocations name = allocated.registry.knownAllocations name ∨
    s.registry.knownAllocations name = none ∧ OwnName known allocs name
  entries : s.disableInfo.allocs = allocated.disableInfo.allocs.filter fun a ↦
    (s.registry.knownAllocations a.name).isSome
  events : ∃ added, s.target.events = allocated.target.events ++ added ∧
    (∀ event ∈ added, event.allocated = none) ∧
    (∀ address size, Event.free address size true ∈ added →
      ∃ a ∈ allocs, a.address = address ∧ a.size = size) ∧
    ∀ name entry, allocated.registry.knownAllocations name = some entry →
      s.registry.knownAllocations name = none →
        Event.free entry.address entry.size true ∈ added

section Lines

variable {env : Environment} {known : Text → Option AllocEntry} {allocs : List Alloc}
  {start allocated s s' : Run}

theorem Accounted.refl
    (h : ∀ a ∈ allocated.disableInfo.allocs, (allocated.registry.knownAllocations a.name).isSome) :
    Accounted known allocs allocated allocated where
  globalSymbols := rfl
  known _ := .inl rfl
  entries := (List.filter_eq_self.mpr h).symm
  events := by
    refine ⟨[], by simp, by simp, by simp, fun name entry hsome hnone ↦ ?_⟩
    rw [hnone] at hsome
    cases hsome

/-- A change that touches no block and no name. -/
theorem Accounted.keep (h : Accounted known allocs allocated s) (added : List Event)
    (hregistry : s'.registry = s.registry)
    (hallocs : s'.disableInfo.allocs = s.disableInfo.allocs)
    (hevents : s'.target.events = s.target.events ++ added)
    (hadded : ∀ event ∈ added, event.allocated = none ∧
      ∀ address size, event ≠ .free address size true) : Accounted known allocs allocated s' where
  globalSymbols := by
    rw [hregistry]
    exact h.globalSymbols
  known := by
    rw [hregistry]
    exact h.known
  entries := by
    rw [hregistry, hallocs]
    exact h.entries
  events := by
    obtain ⟨old, hold, hnone, hfrees, hgone⟩ := h.events
    refine ⟨old ++ added, by rw [hevents, hold, List.append_assoc], fun event hevent ↦ ?_,
      fun address size hevent ↦ ?_, fun name entry hsome hgiven ↦ ?_⟩
    · rcases List.mem_append.mp hevent with hevent | hevent
      · exact hnone event hevent
      · exact (hadded event hevent).1
    · rcases List.mem_append.mp hevent with hevent | hevent
      · exact hfrees address size hevent
      · exact absurd rfl ((hadded _ hevent).2 address size)
    · rw [hregistry] at hgiven
      exact List.mem_append_left _ (hgone name entry hsome hgiven)

/-- A block of the script freed by its name. -/
theorem Accounted.forget (h : Accounted known allocs allocated s)
    (hallocated : allocated.registry.knownAllocations = trackAll known allocs) {name : Text}
    {entry : AllocEntry} {after : Target} (hname : OwnName known allocs name)
    (hknown : s.registry.knownAllocations name = some entry)
    (hfree : s.target.free env.kernel entry.address entry.size = (none, after)) :
    Accounted known allocs allocated (forgetAlloc name { s with target := after }) := by
  have hentry : allocated.registry.knownAllocations name = some entry := by
    rcases h.known name with hsame | ⟨hnone, -⟩
    · rw [← hsame, hknown]
    · rw [hnone] at hknown
      cases hknown
  have hevents : after.events = s.target.events ++ [.free entry.address entry.size true] := by
    rcases free_eq s.target env.kernel entry.address entry.size with
      ⟨message, hcall⟩ | ⟨other, hcall, hother, -⟩
    · rw [hcall] at hfree
      cases hfree
    · rw [hcall] at hfree
      rw [← (Prod.mk.inj hfree).2, hother]
  -- the block known under the name is one of the script
  have hown : ∃ a ∈ allocs, a.address = entry.address ∧ a.size = entry.size := by
    rw [hallocated] at hentry
    by_cases hmem : name ∈ allocs.map Alloc.name
    · obtain ⟨a, ha, -, htracked⟩ := trackAll_of_mem hmem
      rw [htracked] at hentry
      rw [← Option.some_inj.mp hentry]
      exact ⟨a, ha, rfl, rfl⟩
    · rw [trackAll_of_not_mem hmem, hname.1] at hentry
      cases hentry
  refine ⟨h.globalSymbols, fun other ↦ ?_, ?_, ?_⟩
  · by_cases hother : other = name
    · exact .inr ⟨by simp [forgetAlloc, hother], hother ▸ hname⟩
    · simpa [forgetAlloc, hother] using h.known other
  · change s.disableInfo.allocs.filter _ = _
    rw [h.entries, List.filter_filter]
    refine List.filter_congr fun a _ ↦ ?_
    by_cases ha : a.name = name <;> simp [forgetAlloc, ha]
  · obtain ⟨old, hold, hnone, hfrees, hgone⟩ := h.events
    refine ⟨old ++ [.free entry.address entry.size true], ?_, fun event hevent ↦ ?_,
      fun address size hevent ↦ ?_, fun other block hsome hgiven ↦ ?_⟩
    · change after.events = _
      rw [hevents, hold, List.append_assoc]
    · rcases List.mem_append.mp hevent with hevent | hevent
      · exact hnone event hevent
      · rw [List.mem_singleton.mp hevent]
        rfl
    · rcases List.mem_append.mp hevent with hevent | hevent
      · exact hfrees address size hevent
      · obtain ⟨rfl, rfl, -⟩ := Event.free.inj (List.mem_singleton.mp hevent)
        exact hown
    · by_cases hother : other = name
      · obtain rfl : entry = block := by
          rw [hother, hentry] at hsome
          exact Option.some_inj.mp hsome
        exact List.mem_append_right _ List.mem_cons_self
      · refine List.mem_append_left _ (hgone other block hsome ?_)
        simpa [forgetAlloc, hother] using hgiven

/-- A line that unregisters no symbol of before and frees own blocks only. -/
theorem Accounted.lineStep {line : Line} (hstep : LineStep env line s s')
    (hallocated : allocated.registry.knownAllocations = trackAll known allocs)
    (hunregisters : ∀ name ∈ line.unregisters, allocated.registry.globalSymbols name = none)
    (hdeallocates : ∀ name ∈ line.deallocates, OwnName known allocs name)
    (h : Accounted known allocs allocated s) : Accounted known allocs allocated s' := by
  cases hstep with
  | keeps htarget hregistry hinfo =>
    exact h.keep [] hregistry (by rw [hinfo]) (by rw [htarget]; simp) (by simp)
  | protects address size =>
    exact h.keep _ rfl rfl rfl (by simp [Event.allocated])
  | records original => exact h.keep [] rfl rfl (by simp) (by simp)
  | writes address bytes => exact h.keep _ rfl rfl rfl (by simp [Event.allocated])
  | unregisters name hname =>
    have hnone : s.registry.globalSymbols name = none := by
      rw [h.globalSymbols]
      exact hunregisters name hname
    have hsame : (unregister name s).registry = s.registry := by
      have hupdate : Function.update s.registry.globalSymbols name none =
          s.registry.globalSymbols := by
        rw [← hnone, Function.update_eq_self]
      rw [unregister, hupdate]
    exact h.keep [] hsame rfl (by simp [unregister]) (by simp)
  | frees name entry after hname hknown hfree =>
    exact h.forget hallocated (hdeallocates name hname) hknown hfree
  | refuses name entry message after hname hknown hfree =>
    rcases free_eq s.target env.kernel entry.address entry.size with
      ⟨other, hcall⟩ | ⟨other, hcall, -, -⟩
    · rw [hcall] at hfree
      refine h.keep [.free entry.address entry.size false] rfl rfl ?_ (by simp [Event.allocated])
      rw [← (Prod.mk.inj hfree).2]
    · rw [hcall] at hfree
      cases hfree
  | foreign t =>
    exact h.keep _ rfl rfl rfl (by simp [Event.allocated])

end Lines

/-! ### The phases -/

/-- The run `s` of an execution that allocated `allocs`: what it has done to its blocks, and that its
originals bring every byte back. -/
structure Undoable (start : Run) (allocs : List Alloc) (allocated s : Run) : Prop where
  blocks : Allocated start allocs allocated
  accounted : Accounted start.registry.knownAllocations allocs allocated s
  recoverable : ∀ x byte, start.target.memory x = some byte → Recoverable start.target x byte s

section Phases

variable {env : Environment} {start allocated s s' : Run} {allocs : List Alloc}

theorem Undoable.lineStep (hquiet : env.Quiet) {line : Line} (hstep : LineStep env line s s')
    (hunregisters : ∀ name ∈ line.unregisters, start.registry.globalSymbols name = none)
    (hdeallocates : ∀ name ∈ line.deallocates,
      OwnName start.registry.knownAllocations allocs name)
    (h : Undoable start allocs allocated s) : Undoable start allocs allocated s' where
  blocks := h.blocks
  accounted := by
    refine h.accounted.lineStep hstep h.blocks.known (fun name hname ↦ ?_) hdeallocates
    rw [h.blocks.globalSymbols]
    exact hunregisters name hname
  recoverable x byte hbyte := (h.recoverable x byte hbyte).lineStep hquiet hstep

/-- A line without names. -/
theorem Undoable.plainStep (hquiet : env.Quiet) (hstep : LineStep env (.ds []) s s')
    (h : Undoable start allocs allocated s) : Undoable start allocs allocated s' :=
  h.lineStep hquiet hstep (fun _ hname ↦ absurd hname List.not_mem_nil)
    fun _ hname ↦ absurd hname List.not_mem_nil

theorem Allocated.undoable (h : Allocated start allocs s) (hinfo : start.disableInfo = {}) :
    Undoable start allocs s s where
  blocks := h
  accounted := by
    refine .refl fun entry hentry ↦ ?_
    rw [h.info, hinfo] at hentry
    obtain ⟨a, ha, rfl⟩ := List.mem_map.mp hentry
    obtain ⟨b, -, -, hb⟩ := trackAll_of_mem (List.mem_map_of_mem (f := Alloc.name) ha)
    rw [h.known]
    exact Option.isSome_iff_exists.mpr ⟨_, hb⟩
  recoverable x byte hbyte := h.recoverable (by rw [hinfo]) hbyte

/-- A failing execution, in whichever phase it fails. -/
theorem executeParsed_undoable {is32 : Bool} {parsed : Parsed} {run : Run} {failure : Failure}
    (hquiet : env.Quiet) (hinfo : start.disableInfo = {})
    (hunregisters : ∀ script rawLine run, ReachesFrom env is32 parsed start script rawLine run →
      ∀ name ∈ (classify (trim rawLine)).unregisters, start.registry.globalSymbols name = none)
    (hdeallocates : ∀ script rawLine run, ReachesFrom env is32 parsed start script rawLine run →
      ∀ name ∈ (classify (trim rawLine)).deallocates,
        OwnName start.registry.knownAllocations script.allocs name)
    (hfail : executeParsed env is32 parsed start = .error failure run) :
    ∃ allocs allocated, Undoable start allocs allocated run ∧
      (allocateAll env parsed.labels parsed.defines [] parsed.allocs start = .ok allocs allocated ∨
        failure.rollback = false ∧ run.disableInfo.allocs = allocs.map Alloc.entry) := by
  unfold executeParsed at hfail
  rw [bind_apply] at hfail
  rcases @allocateAll_allocated env parsed.labels parsed.defines start parsed.allocs [] start
    (Allocated.refl start) with
    ⟨allocs, allocated, hok, hallocated, -⟩ |
    ⟨error, allocs, mid, s', size, herror, hmid, -, -, hregistry, hsame, hmemory, hevents⟩
  · rw [hok] at hfail
    refine ⟨allocs, allocated, ?_, .inl hok⟩
    have hstart := hallocated.undoable hinfo
    have hprepared := (prepareLines_along env (.ds []) ⟨is32, allocs, parsed.defines⟩ parsed.labels
      parsed.asmLines allocated).preserves (fun _ _ hstep hs ↦ hs.plainStep hquiet hstep) hstart
    dsimp only at hfail
    rw [bind_apply] at hfail
    cases hlines : prepareLines env ⟨is32, allocs, parsed.defines⟩ parsed.labels parsed.asmLines
        allocated with
    | error e s =>
      rw [hlines] at hprepared hfail
      obtain ⟨-, rfl⟩ := EStateM.Result.error.inj hfail
      exact hprepared
    | ok lines prepared =>
      rw [hlines] at hprepared hfail
      have hemitted := emitLines_induct ⟨is32, allocs, parsed.defines⟩ lines hprepared
        fun before rawLine after run hsplit hreach hs ↦ by
          have hreaches : ReachesFrom env is32 parsed start ⟨is32, allocs, parsed.defines⟩ rawLine
              run := ⟨allocs, allocated, lines, prepared, before, after, hok, rfl, hlines, hsplit,
            hreach⟩
          exact (emitLine_along rawLine run).preserves (fun _ _ hstep hs ↦ hs.lineStep hquiet hstep
            (hunregisters _ _ _ hreaches) (hdeallocates _ _ _ hreaches)) hs
      dsimp only at hfail
      rw [bind_apply] at hfail
      change Undoable start allocs allocated (finalState (emitLines env _ lines prepared))
        at hemitted
      cases hemit : emitLines env ⟨is32, allocs, parsed.defines⟩ lines prepared with
      | error e s =>
        rw [hemit] at hemitted hfail
        obtain ⟨-, rfl⟩ := EStateM.Result.error.inj hfail
        exact hemitted
      | ok _ emitted =>
        rw [hemit] at hemitted hfail
        have hthreads := (createThreads_along env ⟨is32, allocs, parsed.defines⟩ (.ds [])
          emitted.deferredThreads emitted).preserves
            (fun _ _ hstep hs ↦ hs.plainStep hquiet hstep) hemitted
        change (createThreads env _ emitted.deferredThreads >>= fun _ ↦ _) emitted = _ at hfail
        rw [bind_apply] at hfail
        cases hcreate : createThreads env ⟨is32, allocs, parsed.defines⟩ emitted.deferredThreads
            emitted with
        | error e s =>
          rw [hcreate] at hthreads hfail
          obtain ⟨-, rfl⟩ := EStateM.Result.error.inj hfail
          exact hthreads
        | ok _ created =>
          rw [hcreate] at hfail
          cases hfail
  · rw [herror] at hfail
    obtain ⟨rfl, rfl⟩ := EStateM.Result.error.inj hfail
    have hundoable := hmid.undoable hinfo
    refine ⟨allocs, mid, ⟨hmid, ?_, fun x byte hbyte ↦ ?_⟩, .inr ⟨rfl, ?_⟩⟩
    · exact hundoable.accounted.keep _ hregistry (by rw [hsame]) hevents (by simp [Event.allocated])
    · exact (hundoable.recoverable x byte hbyte).keep _ hevents (fun _ ↦ by rw [hmemory])
        (by rw [hsame])
    · rw [hsame, hmid.info, hinfo]
      rfl

end Phases

/-! ### Rolling back -/

section Back

variable {env : Environment}

theorem knownAllocations_freeAllocs_of_none {allocs : List AllocEntry} {w : World} {name : Text}
    (h : w.registry.knownAllocations name = none) :
    (freeAllocs env allocs w).registry.knownAllocations name = none := by
  induction allocs generalizing w with
  | nil => exact h
  | cons a rest ih =>
    refine ih ?_
    unfold freeAlloc forgetBlock
    dsimp only
    split
    · split_ifs
      · dsimp only
        rw [Function.update_apply, h, ite_self]
      · exact h
    · exact h

theorem knownAllocations_freeAlloc_of_ne {a : AllocEntry} {w : World} {name : Text}
    (h : a.name ≠ name) :
    (freeAlloc env a w).registry.knownAllocations name = w.registry.knownAllocations name := by
  unfold freeAlloc forgetBlock
  dsimp only
  split
  · split_ifs
    · dsimp only
      rw [Function.update_of_ne h.symm]
    · rfl
  · rfl

theorem knownAllocations_freeAllocs_of_ne {allocs : List AllocEntry} {w : World} {name : Text}
    (h : ∀ a ∈ allocs, a.name ≠ name) :
    (freeAllocs env allocs w).registry.knownAllocations name =
      w.registry.knownAllocations name := by
  induction allocs generalizing w with
  | nil => rfl
  | cons a rest ih =>
    rw [List.forall_mem_cons] at h
    rw [freeAllocs, ih h.2, knownAllocations_freeAlloc_of_ne h.1]

/-- A block that is freed is known no longer. -/
theorem knownAllocations_freeAllocs_of_mem {allocs : List AllocEntry} {w : World}
    {entry : AllocEntry} (hmem : entry ∈ allocs)
    (h : w.registry.knownAllocations entry.name = some entry) :
    (freeAllocs env allocs w).registry.knownAllocations entry.name = none := by
  induction allocs generalizing w with
  | nil => cases hmem
  | cons a rest ih =>
    rw [freeAllocs]
    by_cases hname : a.name = entry.name
    · by_cases haddress : entry.address = a.address
      · refine knownAllocations_freeAllocs_of_none ?_
        unfold freeAlloc forgetBlock
        dsimp only
        rw [hname, h]
        dsimp only
        rw [if_pos haddress]
        exact Function.update_self _ _ _
      · have hrest : entry ∈ rest :=
          (List.mem_cons.mp hmem).resolve_left fun heq ↦ haddress (heq ▸ rfl)
        refine ih hrest ?_
        unfold freeAlloc forgetBlock
        dsimp only
        rw [hname, h]
        dsimp only
        rw [if_neg haddress, h]
    · have hrest : entry ∈ rest :=
        (List.mem_cons.mp hmem).resolve_left fun heq ↦ hname (heq ▸ rfl)
      exact ih hrest (by rw [knownAllocations_freeAlloc_of_ne hname, h])

theorem events_freeAllocs_of_unmaps {allocs : List AllocEntry} {w : World}
    (h : Unmaps env allocs w) : (freeAllocs env allocs w).target.events =
      w.target.events ++ allocs.map fun a ↦ Event.free a.address a.size true := by
  induction allocs generalizing w with
  | nil => simp [freeAllocs]
  | cons a rest ih =>
    have hfree : (freeAlloc env a w).target.events =
        w.target.events ++ [.free a.address a.size true] := by
      unfold freeAlloc Target.free
      rw [h.1]
    rw [freeAllocs, ih h.2, hfree, List.append_assoc, List.map_cons, List.singleton_append]

end Back

/-! ### Atomicity -/

section Failure

variable {env : Environment} {w : World} {start allocated run : Run} {allocs : List Alloc}

/-- A block of the script is still to be freed, or was freed by its name. -/
theorem Undoable.held_or_freed (h : Undoable start allocs allocated run)
    (hinfo : start.disableInfo = {}) {added : List Event}
    (hadded : run.target.events = allocated.target.events ++ added) {a : Alloc} (ha : a ∈ allocs) :
    a.entry ∈ run.disableInfo.allocs ∨ Event.free a.address a.size true ∈ added := by
  obtain ⟨b, hb, hname, hknown⟩ :=
    trackAll_of_mem (List.mem_map_of_mem (f := Alloc.name) ha)
  rw [← h.blocks.known] at hknown
  cases hrun : run.registry.knownAllocations a.name with
  | some entry =>
    refine .inl ?_
    rw [h.accounted.entries, h.blocks.info, hinfo, List.mem_filter]
    refine ⟨List.mem_map_of_mem ha, ?_⟩
    change (run.registry.knownAllocations a.name).isSome = true
    rw [hrun]
    rfl
  | none =>
    obtain ⟨events, hevents, -, -, hfreed⟩ := h.accounted.events
    obtain rfl : added = events := List.append_cancel_left (hadded.symm.trans hevents)
    have hfree := hfreed a.name b.entry hknown hrun
    rcases h.accounted.known a.name with hsame | ⟨-, hown⟩
    · rw [hrun, hknown] at hsame
      cases hsame
    · obtain rfl : a = b := hown.2 a ha b hb rfl hname
      exact .inr hfree

/-- A name that no block of the script has is known as before. -/
theorem Undoable.known_of_ne (h : Undoable start allocs allocated run) {name : Text}
    (hname : name ∉ allocs.map Alloc.name) :
    run.registry.knownAllocations name = start.registry.knownAllocations name := by
  have hallocated : allocated.registry.knownAllocations name =
      start.registry.knownAllocations name := by
    rw [h.blocks.known, trackAll_of_not_mem hname]
  rcases h.accounted.known name with hsame | ⟨hnone, hown⟩
  · rw [hsame, hallocated]
  · rw [hnone, hown.1]

/-- A name of the script is known as a block that is still to be freed, or no longer. -/
theorem Undoable.known_of_mem (h : Undoable start allocs allocated run)
    (hinfo : start.disableInfo = {}) {name : Text} (hname : name ∈ allocs.map Alloc.name) :
    run.registry.knownAllocations name = none ∨ ∃ entry ∈ run.disableInfo.allocs,
      entry.name = name ∧ run.registry.knownAllocations name = some entry := by
  obtain ⟨b, hb, hbName, hknown⟩ :=
    trackAll_of_mem hname
  rw [← h.blocks.known] at hknown
  rcases h.accounted.known name with hsame | ⟨hnone, -⟩
  · refine .inr ⟨b.entry, ?_, hbName, by rw [hsame, hknown]⟩
    rw [h.accounted.entries, h.blocks.info, hinfo, List.mem_filter]
    refine ⟨List.mem_map_of_mem hb, ?_⟩
    change (run.registry.knownAllocations b.name).isSome = true
    rw [hbName, hsame, hknown]
    rfl
  · exact .inl hnone

/-- Nothing that was mapped before is given up. -/
theorem Undoable.not_givenUp (h : Undoable start allocs allocated run) {events : List Event}
    (hevents : ∀ address size, Event.free address size true ∈ events →
      ∃ a ∈ allocs, a.address = address ∧ a.size = size) {x : ℕ} {byte : UInt8}
    (hbyte : start.target.memory x = some byte) : ¬GivenUp events x := by
  rintro ⟨address, size, hevent, hx⟩
  obtain ⟨a, ha, rfl, rfl⟩ := hevents address size hevent
  rw [(h.blocks.fresh a ha).2 x hx] at hbyte
  cases hbyte

theorem entry_of_mem_allocs (h : Undoable start allocs allocated run)
    (hinfo : start.disableInfo = {}) {entry : AllocEntry} (hentry : entry ∈ run.disableInfo.allocs) :
    ∃ a ∈ allocs, a.entry = entry := by
  rw [h.accounted.entries, h.blocks.info, hinfo] at hentry
  exact List.mem_map.mp (List.mem_filter.mp hentry).1

/-- A failure after which every block of the script is freed, its names are forgotten and the bytes
are back. -/
theorem Undoable.atomic {parsed : Parsed}
    (h : Undoable (startRun (seeded env w) parsed) allocs allocated run)
    (hown : ∀ a ∈ allocs, w.registry.knownAllocations a.name = none)
    {after : World} {more : List Event} (hevents : after.target.events = run.target.events ++ more)
    (hnone : ∀ event ∈ more, event.allocated = none)
    (hfreed : ∀ entry ∈ run.disableInfo.allocs,
      Event.free entry.address entry.size true ∈ more)
    (hrestored : ∀ x byte, w.target.memory x = some byte → after.target.memory x = some byte)
    (hglobal : after.registry.globalSymbols = run.registry.globalSymbols)
    (hgone : ∀ entry ∈ run.disableInfo.allocs,
      run.registry.knownAllocations entry.name = some entry →
        after.registry.knownAllocations entry.name = none)
    (hstill : ∀ name, run.registry.knownAllocations name = none →
      after.registry.knownAllocations name = none)
    (hkept : ∀ name, (∀ entry ∈ run.disableInfo.allocs, entry.name ≠ name) →
      after.registry.knownAllocations name = run.registry.knownAllocations name) :
    Atomic env w after := by
  obtain ⟨added, hadded, haddedNone, -, -⟩ := h.accounted.events
  have hsince : since w.target after.target =
      allocs.map (fun a ↦ Event.allocate (some a.address) a.size) ++ (added ++ more) := by
    refine since_eq ?_
    rw [hevents, hadded, h.blocks.events]
    simp only [List.append_assoc]
    rfl
  refine ⟨hrestored, fun event hevent block hblock ↦ ?_, ?_, funext fun name ↦ ?_⟩
  · rw [hsince] at hevent ⊢
    rcases List.mem_append.mp hevent with hevent | hevent
    · obtain ⟨a, ha, rfl⟩ := List.mem_map.mp hevent
      obtain rfl : (a.address, a.size) = block := Option.some_inj.mp hblock
      refine List.mem_append_right _ (List.mem_append.mpr ?_)
      rcases h.held_or_freed rfl hadded ha with hheld | hfree
      · exact .inr (hfreed a.entry hheld)
      · exact .inl hfree
    · have hnot : event.allocated = none :=
        (List.mem_append.mp hevent).elim (haddedNone event) (hnone event)
      rw [hnot] at hblock
      cases hblock
  · rw [hglobal, h.accounted.globalSymbols, h.blocks.globalSymbols]
    rfl
  · by_cases hname : name ∈ allocs.map Alloc.name
    · obtain ⟨a, ha, hsame⟩ := List.mem_map.mp hname
      rw [← hsame, hown a ha, hsame]
      rcases h.known_of_mem rfl hname with hnone | ⟨entry, hentry, rfl, hknown⟩
      · exact hstill name hnone
      · exact hgone entry hentry hknown
    · rw [hkept name fun entry hentry heq ↦ hname ?_, h.known_of_ne hname]
      · rfl
      · obtain ⟨a, ha, rfl⟩ := entry_of_mem_allocs h rfl hentry
        exact heq ▸ List.mem_map_of_mem ha

/-- The calls up to the failure give up no byte that was mapped. -/
theorem Undoable.events_own (h : Undoable start allocs allocated run) :
    ∃ events, run.target.events = start.target.events ++ events ∧
      ∀ address size, Event.free address size true ∈ events →
        ∃ a ∈ allocs, a.address = address ∧ a.size = size := by
  obtain ⟨added, hadded, -, hfrees, -⟩ := h.accounted.events
  refine ⟨_, by rw [hadded, h.blocks.events, List.append_assoc], fun address size hevent ↦ ?_⟩
  rcases List.mem_append.mp hevent with hevent | hevent
  · obtain ⟨a, -, heq⟩ := List.mem_map.mp hevent
    cases heq
  · exact hfrees address size hevent

/-- A return with nothing to undo. -/
theorem Undoable.atomic_returned {parsed : Parsed}
    (h : Undoable (startRun (seeded env w) parsed) allocs allocated run)
    (hown : ∀ a ∈ allocs, w.registry.knownAllocations a.name = none)
    (horiginals : run.disableInfo.originals = []) (hallocs : run.disableInfo.allocs = []) :
    Atomic env w ⟨run.target, run.registry⟩ := by
  have hentries {P : AllocEntry → Prop} : ∀ entry ∈ run.disableInfo.allocs, P entry := by
    rw [hallocs]
    exact fun entry hentry ↦ absurd hentry List.not_mem_nil
  refine h.atomic hown (List.append_nil _).symm (fun _ hevent ↦ absurd hevent List.not_mem_nil)
    hentries (fun x byte hbyte ↦ ?_) rfl hentries (fun _ hnone ↦ hnone) fun _ _ ↦ rfl
  obtain ⟨events, hevents, hfrees⟩ := h.events_own
  obtain ⟨added, hadded, hcase⟩ := h.recoverable x byte hbyte
  obtain rfl : events = added := List.append_cancel_left (hevents.symm.trans hadded)
  obtain ⟨-, hrecovers⟩ := hcase.resolve_left (h.not_givenUp hfrees hbyte)
  rw [horiginals] at hrecovers
  exact hrecovers

/-- Rolling back. -/
theorem Undoable.atomic_undo {parsed : Parsed}
    (h : Undoable (startRun (seeded env w) parsed) allocs allocated run)
    (hown : ∀ a ∈ allocs, w.registry.knownAllocations a.name = none)
    (hrestorable : Restorable run.target run.disableInfo.originals)
    (hunmaps : Unmaps env run.disableInfo.allocs
      ⟨restoreOriginals run.disableInfo.originals run.target, run.registry⟩) :
    Atomic env w (undo env run.disableInfo ⟨run.target, run.registry⟩) := by
  obtain ⟨writes, hwrites, hwritesNone⟩ :=
    events_restoreOriginals (t := run.target) run.disableInfo.originals
  have hevents : (undo env run.disableInfo ⟨run.target, run.registry⟩).target.events =
      run.target.events ++ (writes ++
        run.disableInfo.allocs.map fun a ↦ Event.free a.address a.size true) := by
    rw [undo, events_freeAllocs_of_unmaps hunmaps]
    dsimp only
    rw [hwrites, List.append_assoc]
  refine h.atomic hown hevents (fun event hevent ↦ ?_) (fun entry hentry ↦ ?_)
    (fun x byte hbyte ↦ ?_) (globalSymbols_undo _ _)
    (fun entry hentry hknown ↦ knownAllocations_freeAllocs_of_mem hentry hknown)
    (fun name hnone ↦ knownAllocations_freeAllocs_of_none hnone)
    fun name hne ↦ knownAllocations_freeAllocs_of_ne hne
  · rcases List.mem_append.mp hevent with hevent | hevent
    · exact (hwritesNone event hevent).1
    · obtain ⟨a, -, rfl⟩ := List.mem_map.mp hevent
      rfl
  · exact List.mem_append_right _ (List.mem_map_of_mem hentry)
  · obtain ⟨before, hbefore, hfrees⟩ := h.events_own
    obtain ⟨added, hadded, hcase⟩ : ∃ added, (undo env run.disableInfo
        ⟨run.target, run.registry⟩).target.events = w.target.events ++ added ∧
          (GivenUp added x ∨
            (undo env run.disableInfo ⟨run.target, run.registry⟩).target.memory x = some byte) :=
      (h.recoverable x byte hbyte).undo hrestorable
    rw [hevents, hbefore, List.append_assoc] at hadded
    obtain rfl := List.append_cancel_left hadded
    refine hcase.resolve_left (h.not_givenUp (fun address size hevent ↦ ?_) hbyte)
    rcases List.mem_append.mp hevent with hevent | hevent
    · exact hfrees address size hevent
    · rcases List.mem_append.mp hevent with hevent | hevent
      · have hnot := (hwritesNone _ hevent).2
        cases hnot
      · obtain ⟨entry, hentry, heq⟩ := List.mem_map.mp hevent
        obtain ⟨a, ha, rfl⟩ := entry_of_mem_allocs h rfl hentry
        obtain ⟨rfl, rfl, -⟩ := Event.free.inj heq
        exact ⟨a, ha, rfl, rfl⟩

end Failure

/-- Seeding alone changes nothing else. -/
theorem atomic_seeded (env : Environment) (w : World) : Atomic env w (seeded env w) where
  restored _ _ hbyte := hbyte
  freed event hevent := by
    have hsince : since w.target (seeded env w).target = [] := since_eq (List.append_nil _).symm
    rw [hsince] at hevent
    cases hevent
  globalSymbols := rfl
  knownAllocations := rfl

/-- A failing execution that undoes what it did leaves target and maps as they were. -/
theorem execute_atomic (env : Environment) (hquiet : env.Quiet) (fuel : ℕ) (w w' : World)
    (scriptText : Text) (result : AutoAsmResult)
    (hcall : execute env fuel w scriptText = some (w', result)) (hfail : result.success = false)
    (hrestorable : ∀ failure run, failing env fuel w scriptText = some (failure, run) →
      failure.rollback = true → Restorable run.target run.disableInfo.originals)
    (h : UndoesFailure env fuel w scriptText) : Atomic env w w' := by
  unfold execute at hcall
  dsimp only at hcall
  split at hcall
  · cases hcall
  · rw [← (Prod.mk.inj (Option.some.inj hcall)).1]
    exact atomic_seeded env w
  · next parsed hparse =>
    have hcall := Option.some.inj hcall
    change finish env parsed.error (executeParsed env (env.runs32BitCode w.target) parsed
      (startRun (seeded env w) parsed)) = _ at hcall
    cases houtcome : executeParsed env (env.runs32BitCode w.target) parsed
        (startRun (seeded env w) parsed) with
    | ok _ run =>
      rw [houtcome] at hcall
      rw [← (Prod.mk.inj hcall).2] at hfail
      exact absurd (h.finished parsed run hparse houtcome) (of_decide_eq_false hfail)
    | error failure run =>
      rw [houtcome] at hcall
      have hfails := failing_of_error hparse houtcome
      obtain ⟨allocs, allocated, hundoable, hphase⟩ := executeParsed_undoable hquiet rfl
        (fun script rawLine run hreaches ↦ h.unregistered script rawLine run ⟨parsed, hparse, hreaches⟩)
        (fun script rawLine run hreaches ↦ h.deallocated script rawLine run ⟨parsed, hparse, hreaches⟩)
        houtcome
      unfold finish at hcall
      dsimp only at hcall
      cases hrollback : failure.rollback with
      | true =>
        rw [hrollback] at hcall hphase
        rw [← (Prod.mk.inj hcall).1]
        refine hundoable.atomic_undo (fun a ha ↦ ?_) (hrestorable failure run hfails hrollback)
          (h.unmapped failure run hfails hrollback)
        have hok := hphase.resolve_right fun hreturned ↦ Bool.noConfusion hreturned.1
        exact h.allocated parsed allocs allocated hparse hok a ha
      | false =>
        rw [hrollback] at hcall hphase
        rw [← (Prod.mk.inj hcall).1]
        obtain ⟨horiginals, hallocs⟩ := h.returned failure run hfails hrollback
        refine hundoable.atomic_returned (fun a ha ↦ ?_) horiginals hallocs
        rcases hphase with hok | ⟨-, hentries⟩
        · exact h.allocated parsed allocs allocated hparse hok a ha
        · rw [hallocs, eq_comm, List.map_eq_nil_iff] at hentries
          rw [hentries] at ha
          cases ha

theorem unmaps_plainEnvironment (allocs : List AllocEntry) (w : World) :
    Unmaps plainEnvironment allocs w := by
  induction allocs generalizing w with
  | nil => trivial
  | cons a rest ih => exact ⟨rfl, ih _⟩

/-- A patch of a block of its own and one of the page, and then one where nothing is mapped. -/
theorem execute_atomic_unmapped :
    ∃ w' result, execute plainEnvironment 10 ⟨onePage, {}⟩
        "alloc(m,64)\nm:\ndb 90\n1000:\ndb 90\n9000:\ndb 90".toList = some (w', result) ∧
      Atomic plainEnvironment ⟨onePage, {}⟩ w' := by
  set scriptText := "alloc(m,64)\nm:\ndb 90\n1000:\ndb 90\n9000:\ndb 90".toList with htext
  have hrun : (execute plainEnvironment 10 ⟨onePage, {}⟩ scriptText).map
      (fun out ↦ out.2.success) = some false := by
    decide +kernel
  have hfailing : (failing plainEnvironment 10 ⟨onePage, {}⟩ scriptText).map
      (fun out ↦ (out.1.rollback, out.2.disableInfo.originals,
        [0x1000, 0x3000].map out.2.target.writable)) =
      some (true, [⟨0x3000, [0]⟩, ⟨0x1000, [0]⟩], [true, true]) := by
    decide +kernel
  have hparse : (parseScript plainEnvironment 10 (seeded plainEnvironment ⟨onePage, {}⟩)
      scriptText).map (fun out ↦ (out.2.error, out.2.allocs.length)) = some ([], 1) := by
    decide +kernel
  obtain ⟨⟨w', result⟩, hcall, hsuccess⟩ := Option.map_eq_some_iff.mp hrun
  obtain ⟨⟨failed, stopped⟩, hfails, hfacts⟩ := Option.map_eq_some_iff.mp hfailing
  obtain ⟨hrollback, hfacts⟩ := Prod.mk.inj hfacts
  obtain ⟨horiginals, hwritable⟩ := Prod.mk.inj hfacts
  refine ⟨w', result, hcall, execute_atomic plainEnvironment plainEnvironment_quiet 10 ⟨onePage, {}⟩
    w' scriptText result hcall hsuccess (fun failure run hrun _ ↦ ?_) ?_⟩
  · obtain ⟨rfl, rfl⟩ := Prod.mk.inj (Option.some.inj (hfails.symm.trans hrun))
    simp only [List.map_cons, List.map_nil, List.cons.injEq, and_true] at hwritable
    dsimp only at horiginals
    rw [horiginals]
    intro original horiginal x hx _ y hle hyx
    rw [Record.isSome_at] at hx
    simp only [List.mem_cons, List.not_mem_nil, or_false] at horiginal
    rcases horiginal with rfl | rfl
    · have hy : y = 0x3000 := by
        simp only [List.length_cons, List.length_nil] at hx hle
        omega
      rw [hy]
      exact hwritable.2
    · have hy : y = 0x1000 := by
        simp only [List.length_cons, List.length_nil] at hx hle
        omega
      rw [hy]
      exact hwritable.1
  · constructor
    · intro failure run hrun hreturned
      obtain ⟨rfl, rfl⟩ := Prod.mk.inj (Option.some.inj (hfails.symm.trans hrun))
      exact absurd (hrollback.symm.trans hreturned) Bool.noConfusion
    · intro parsed run hparsed _
      rw [hparsed] at hparse
      exact (Prod.mk.inj (Option.some.inj hparse)).1
    · exact fun _ _ _ _ _ _ ↦ rfl
    · rintro script rawLine run ⟨parsed, hparsed, hreaches⟩ name _
      rw [hparsed] at hparse
      have hlength : parsed.allocs.length = 1 := (Prod.mk.inj (Option.some.inj hparse)).2
      obtain ⟨a, ha⟩ := List.length_eq_one_iff.mp (hreaches.length_allocs.trans hlength)
      refine ⟨rfl, fun b hb c hc _ _ ↦ ?_⟩
      rw [ha, List.mem_singleton] at hb hc
      rw [hb, hc]
    · exact fun _ _ _ _ _ _ _ ↦ rfl
    · exact fun _ _ _ _ ↦ unmaps_plainEnvironment _ _

/-- An `ASSERT` that fails behind a patch leaves the patch. -/
theorem assert_leaves_patch :
    ∃ w' result, execute plainEnvironment 10 ⟨onePage, {}⟩
        "1000:\ndb 90\nassert(1000,CC)".toList = some (w', result) ∧ result.success = false ∧
      Restorable w'.target result.disableInfo.originals ∧
      ¬Atomic plainEnvironment ⟨onePage, {}⟩ w' := by
  have hrun : (execute plainEnvironment 10 ⟨onePage, {}⟩
      "1000:\ndb 90\nassert(1000,CC)".toList).map (fun out ↦
        (out.2.success, out.2.disableInfo.originals, out.1.target.writable 0x1000,
          out.1.target.memory 0x1000)) =
      some (false, [⟨0x1000, [0]⟩], true, some 0x90) := by
    decide +kernel
  obtain ⟨⟨w', result⟩, hcall, hfacts⟩ := Option.map_eq_some_iff.mp hrun
  obtain ⟨hsuccess, hfacts⟩ := Prod.mk.inj hfacts
  obtain ⟨horiginals, hfacts⟩ := Prod.mk.inj hfacts
  obtain ⟨hwritable, hmemory⟩ := Prod.mk.inj hfacts
  refine ⟨w', result, hcall, hsuccess, ?_, fun hatomic ↦ ?_⟩
  · dsimp only at horiginals
    rw [horiginals]
    intro original horiginal x hx _ y hle hyx
    rw [List.mem_singleton.mp horiginal, Record.isSome_at] at hx
    rw [List.mem_singleton.mp horiginal] at hle
    have hy : y = 0x1000 := by
      simp only [List.length_cons, List.length_nil] at hx hle
      omega
    rw [hy]
    exact hwritable
  · have hbyte := hatomic.restored 0x1000 0 rfl
    rw [hmemory] at hbyte
    exact absurd hbyte (by decide)

end Cecore.AutoAsm
