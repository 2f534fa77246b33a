import Cecore.AutoAsm.Session
import Cecore.AutoAsm.Surroundings

/-!
# The blocks of an assembler

A block has one owner, the `DisableInfo` of the execution that allocated it. `Ledger` says that the
blocks of the owners are allocated and distinct and that `knownAllocations_` only names such blocks.
An execution keeps it as long as its `DEALLOC` lines name its own blocks (`DeallocatesOwn`); a line
that frees the block of another script leaves that script's `DisableInfo` with a block that is gone,
which its `disable` frees again.
-/

set_option autoImplicit false
set_option relaxedAutoImplicit false

namespace Cecore.AutoAsm

open Platform Platform.Target Emit Library.Effects

/-- The blocks `held` by the owners are allocated, and the names known are names of such blocks. -/
structure Ledger (held : List AllocEntry) (w : World) : Prop where
  safe : NoDoubleFree w.target.events
  intact : w.target.Intact
  live : ∀ a ∈ held, (a.address, a.size) ∈ liveBlocks w.target.events
  distinct : (held.map AllocEntry.address).Nodup
  known : ∀ name entry, w.registry.knownAllocations name = some entry →
    entry.name = name ∧ entry ∈ held

section Steps

variable {env : Environment} {held : List AllocEntry} {w : World}

/-- One more call that neither allocates nor frees nor unmaps. -/
theorem Ledger.call (h : Ledger held w) {t : Target} {event : Event} {registry : Registry}
    (hevents : t.events = w.target.events ++ [event])
    (hblocks : ∀ blocks, blocksAfter blocks event = blocks)
    (hfree : ∀ address size accepted, event = .free address size accepted →
      address ∈ (liveBlocks w.target.events).map Prod.fst)
    (hmapped : ∀ x, (w.target.memory x).isSome → (t.memory x).isSome)
    (hregistry : registry.knownAllocations = w.registry.knownAllocations) :
    Ledger held ⟨t, registry⟩ := by
  have hlive : liveBlocks t.events = liveBlocks w.target.events := by
    rw [hevents, liveBlocks_concat, hblocks]
  refine ⟨?_, h.intact.of_mapped hlive hmapped, ?_, h.distinct, ?_⟩
  · rw [hevents]
    exact h.safe.concat hfree
  · rw [hlive]
    exact h.live
  · rw [hregistry]
    exact h.known

/-- A block allocated for an owner. -/
theorem Ledger.allocate (h : Ledger held w) {name : Text} {address size preferred : ℕ}
    {after : Target} {registry : Registry}
    (hcall : w.target.allocate env.kernel size preferred = (.ok address, after))
    (hregistry : registry.knownAllocations =
      Function.update w.registry.knownAllocations name (some ⟨name, address, size⟩)) :
    Ledger (held ++ [⟨name, address, size⟩]) ⟨after, registry⟩ := by
  have hblocks := liveBlocks_allocate hcall
  refine ⟨?_, h.intact.allocate hcall, fun a ha ↦ ?_, ?_, fun other entry hknown ↦ ?_⟩
  · have hevents : after.events = w.target.events ++ [.allocate (some address) size] := by
      unfold Target.allocate at hcall
      split at hcall
      · simp at hcall
      · simp only [Prod.mk.injEq, Except.ok.injEq] at hcall
        rw [← hcall.2, hcall.1]
    rw [hevents]
    exact h.safe.concat (by simp)
  · rw [hblocks, List.mem_append, List.mem_singleton]
    rcases List.mem_append.mp ha with hold | hnew
    · exact Or.inl (h.live a hold)
    · rw [List.mem_singleton.mp hnew]
      exact Or.inr rfl
  · rw [List.map_append, List.nodup_append]
    refine ⟨h.distinct, List.nodup_singleton _, fun b hb c hc ↦ ?_⟩
    obtain ⟨a, ha, hab⟩ := List.mem_map.mp hb
    rw [List.mem_singleton.mp hc, ← hab]
    exact h.intact.ne_of_allocate hcall (h.live a ha)
  · rw [hregistry] at hknown
    by_cases hname : other = name
    · rw [hname, Function.update_self, Option.some.injEq] at hknown
      rw [← hknown, hname]
      exact ⟨rfl, List.mem_append_right _ List.mem_cons_self⟩
    · rw [Function.update_of_ne hname] at hknown
      obtain ⟨hentry, hmem⟩ := h.known other entry hknown
      exact ⟨hentry, List.mem_append_left _ hmem⟩

/-- A held block freed, and its owner's entry with it. -/
theorem Ledger.free (h : Ledger held w) {a : AllocEntry} (ha : a ∈ held) {rest : List AllocEntry}
    (hrest : rest.Sublist held) (hapart : ∀ b ∈ rest, b.address ≠ a.address) {registry : Registry}
    (hknown : ∀ name entry, registry.knownAllocations name = some entry →
      w.registry.knownAllocations name = some entry ∧ entry ∈ rest) :
    Ledger rest ⟨(w.target.free env.kernel a.address a.size).2, registry⟩ := by
  have hlive := h.live a ha
  have hown : a.address ∈ (liveBlocks w.target.events).map Prod.fst :=
    List.mem_map.mpr ⟨_, hlive, rfl⟩
  refine ⟨?_, h.intact.free hlive, fun b hb ↦ ?_, h.distinct.sublist (hrest.map _), ?_⟩
  · rcases free_eq w.target env.kernel a.address a.size with
      ⟨message, hcall⟩ | ⟨after, hcall, hevents, -⟩
    · rw [hcall]
      exact h.safe.concat fun address size accepted hevent ↦ by cases hevent; exact hown
    · rw [hcall, hevents]
      exact h.safe.concat fun address size accepted hevent ↦ by cases hevent; exact hown
  · have hold := h.live b (hrest.subset hb)
    rcases free_eq w.target env.kernel a.address a.size with
      ⟨message, hcall⟩ | ⟨after, hcall, hevents, -⟩
    · rw [hcall, liveBlocks_concat]
      exact hold
    · rw [hcall, hevents, liveBlocks_concat]
      exact List.mem_filter.mpr ⟨hold, by simpa using hapart b hb⟩
  · intro name entry hentry
    obtain ⟨hold, hmem⟩ := hknown name entry hentry
    exact ⟨(h.known name entry hold).1, hmem⟩

/-- The blocks of one owner freed. -/
theorem Ledger.freeAllocs {before after : List AllocEntry} (allocs : List AllocEntry) (w : World)
    (h : Ledger (before ++ allocs ++ after) w) :
    Ledger (before ++ after) (freeAllocs env allocs w) := by
  induction allocs generalizing w with
  | nil => simpa [AutoAsm.freeAllocs] using h
  | cons a rest ih =>
    refine ih (freeAlloc env a w) ?_
    have hmem : a ∈ before ++ a :: rest ++ after := by simp
    have hsub : (before ++ rest ++ after).Sublist (before ++ a :: rest ++ after) :=
      ((List.Sublist.refl before).append (List.sublist_cons_self a rest)).append
        (List.Sublist.refl after)
    have hapart : ∀ b ∈ before ++ rest ++ after, b.address ≠ a.address := by
      have hdistinct := h.distinct
      rw [List.append_assoc, List.cons_append, List.map_append, List.map_cons,
        List.nodup_middle, ← List.map_append, ← List.append_assoc] at hdistinct
      intro b hb hsame
      exact (List.nodup_cons.mp hdistinct).1 (List.mem_map.mpr ⟨b, hb, hsame⟩)
    refine h.free hmem hsub hapart fun name entry hknown ↦ ?_
    have hold : w.registry.knownAllocations name = some entry ∧
        ¬(name = a.name ∧ entry.address = a.address) := by
      unfold forgetBlock at hknown
      split at hknown
      · next known hfound =>
        split_ifs at hknown with haddress
        · by_cases hname : name = a.name
          · simp [hname] at hknown
          · exact ⟨by simpa [hname] using hknown, fun hboth ↦ hname hboth.1⟩
        · refine ⟨hknown, fun hboth ↦ haddress ?_⟩
          rw [hboth.1, hfound, Option.some.injEq] at hknown
          rw [hknown]
          exact hboth.2
      · next hfound =>
        refine ⟨hknown, fun hboth ↦ ?_⟩
        rw [hboth.1, hfound] at hknown
        cases hknown
    refine ⟨hold.1, ?_⟩
    obtain ⟨hname, hheld⟩ := h.known name entry hold.1
    have hne : entry ≠ a := by
      intro heq
      exact hold.2 ⟨by rw [← hname, heq], by rw [heq]⟩
    simp only [List.append_assoc, List.cons_append, List.mem_append, List.mem_cons] at hheld ⊢
    rcases hheld with hb | rfl | hr | hafter
    · exact Or.inl hb
    · exact absurd rfl hne
    · exact Or.inr (Or.inl hr)
    · exact Or.inr (Or.inr hafter)

/-- Original bytes written back. -/
theorem Ledger.restoreOriginals (originals : List OriginalBytes) {registry : Registry}
    (h : Ledger held ⟨w.target, registry⟩) :
    Ledger held ⟨restoreOriginals originals w.target, registry⟩ := by
  induction originals with
  | nil => exact h
  | cons original rest ih =>
    exact ih.call rfl (fun _ ↦ rfl) (by simp) (fun x hx ↦ by
      change ((poke _ _ _).memory x).isSome
      rw [isSome_memory_poke]
      exact hx) rfl

theorem Ledger.undo {before after : List AllocEntry} (info : DisableInfo) {w : World}
    (h : Ledger (before ++ info.allocs ++ after) w) :
    Ledger (before ++ after) (undo env info w) :=
  Ledger.freeAllocs info.allocs _ (h.restoreOriginals info.originals)

end Steps

/-! ### An execution -/

/-- A known block is one of the run, except under a name that the script does not allocate. -/
def Tracked (names : List Text) (start : Registry) (run : Run) : Prop :=
  ∀ name entry, run.registry.knownAllocations name = some entry →
    (entry.name = name ∧ entry ∈ run.disableInfo.allocs) ∨
      (name ∉ names ∧ start.knownAllocations name = some entry)

theorem Tracked.lineStep {env : Environment} {line : Line} {names : List Text} {start : Registry}
    {s s' : Run} (hstep : LineStep env line s s') (h : Tracked names start s) :
    Tracked names start s' := by
  cases hstep with
  | keeps htarget hregistry hinfo =>
    unfold Tracked
    rw [hregistry, hinfo]
    exact h
  | frees name entry after =>
    intro other otherEntry hknown
    by_cases hname : other = name
    · simp [forgetAlloc, hname] at hknown
    · have hold : s.registry.knownAllocations other = some otherEntry := by
        simpa [forgetAlloc, hname] using hknown
      rcases h other otherEntry hold with ⟨hentry, hmem⟩ | hstart
      · exact Or.inl ⟨hentry, List.mem_filter.mpr ⟨hmem, by simpa [hentry] using hname⟩⟩
      · exact Or.inr hstart
  | protects | records | writes | unregisters | refuses | foreign => exact h

theorem allocateAll_tracked {env : Environment} {labels : List Label} {defines : List Define}
    {start : Registry} (rest : List Alloc) {done allocs : List Alloc} {s s' : Run}
    (hcall : allocateAll env labels defines done rest s = .ok allocs s')
    (h : Tracked (done.map Alloc.name) start s) :
    Tracked (allocs.map Alloc.name) start s' := by
  induction rest generalizing done s with
  | nil =>
    cases hcall
    exact h
  | cons a rest ih =>
    obtain ⟨preferred, hcons⟩ := allocateAll_cons env labels defines done a rest s
    rw [hcons] at hcall
    split at hcall
    · cases hcall
    · next address after _ =>
      refine ih hcall fun name entry hknown ↦ ?_
      rw [List.map_append, List.map_singleton, List.mem_append, List.mem_singleton]
      by_cases hname : name = a.name
      · have hentry : (⟨a.name, address, a.size⟩ : AllocEntry) = entry := by
          simpa [trackAlloc, hname] using hknown
        rw [← hentry]
        exact Or.inl ⟨hname.symm, List.mem_append_right _ List.mem_cons_self⟩
      · have hold : s.registry.knownAllocations name = some entry := by
          simpa [trackAlloc, hname] using hknown
        rcases h name entry hold with ⟨hentry, hmem⟩ | ⟨hdone, hstart⟩
        · exact Or.inl ⟨hentry, List.mem_append_left _ hmem⟩
        · exact Or.inr ⟨fun hor ↦ hor.elim hdone hname, hstart⟩

/-- At every reached line, the names the script allocates stand for its own blocks. -/
theorem ReachesLine.tracked {env : Environment} {fuel : ℕ} {w : World} {scriptText : Text}
    {script : Script} {rawLine : Text} {run : Run}
    (h : ReachesLine env fuel w scriptText script rawLine run) :
    Tracked (script.allocs.map Alloc.name) w.registry run := by
  obtain ⟨parsed, -, hreach⟩ := h
  obtain ⟨allocated, halloc, hchain⟩ := hreach.along
  have hstart : Tracked (([] : List Alloc).map Alloc.name) w.registry
      (startRun (seeded env w) parsed) := fun name entry hknown ↦ Or.inr ⟨List.not_mem_nil, hknown⟩
  have hallocated := allocateAll_tracked parsed.allocs halloc hstart
  exact preserves_of_chain (fun _ _ hstep hs ↦ hstep.elim fun _ hline ↦ hs.lineStep hline)
    hchain hallocated

theorem Ledger.lineStep {env : Environment} (hkeeps : env.KeepsMapped) {line : Line}
    {names : List Text} {start : Registry} {others : List AllocEntry} {s s' : Run}
    (hstep : LineStep env line s s') (htracked : Tracked names start s)
    (hown : ∀ name ∈ line.deallocates, name ∈ names ∨ start.knownAllocations name = none)
    (h : Ledger (others ++ s.disableInfo.allocs) ⟨s.target, s.registry⟩) :
    Ledger (others ++ s'.disableInfo.allocs) ⟨s'.target, s'.registry⟩ := by
  cases hstep with
  | keeps htarget hregistry hinfo =>
    rw [htarget, hregistry, hinfo]
    exact h
  | protects address size => exact h.call rfl (fun _ ↦ rfl) (by simp) (fun _ hx ↦ hx) rfl
  | records original => exact h
  | writes address bytes =>
    refine h.call rfl (fun _ ↦ rfl) (by simp) (fun x hx ↦ ?_) rfl
    change ((poke _ _ _).memory x).isSome
    rw [isSome_memory_poke]
    exact hx
  | unregisters name => exact ⟨h.safe, h.intact, h.live, h.distinct, h.known⟩
  | frees name entry after hname hknown hfree =>
    have hmem : entry ∈ s.disableInfo.allocs := by
      rcases htracked name entry hknown with ⟨-, hmem⟩ | ⟨hnot, hstart⟩
      · exact hmem
      · rcases hown name hname with hin | hnone
        · exact absurd hin hnot
        · rw [hnone] at hstart
          cases hstart
    have hentry := (h.known name entry hknown).1
    set kept := s.disableInfo.allocs.filter fun alloc ↦ alloc.name ≠ name with hkept
    have hsub : (others ++ kept).Sublist (others ++ s.disableInfo.allocs) :=
      (List.Sublist.refl others).append List.filter_sublist
    have hapart : ∀ b ∈ others ++ kept, b.address ≠ entry.address := by
      intro b hb hsame
      have hbMem := hsub.subset hb
      have heq : b = entry :=
        List.inj_on_of_nodup_map h.distinct hbMem (List.mem_append_right _ hmem) hsame
      rcases List.mem_append.mp hb with hother | hin
      · have hdistinct := h.distinct
        rw [List.map_append, List.nodup_append] at hdistinct
        exact hdistinct.2.2 b.address (List.mem_map_of_mem hother) entry.address
          (List.mem_map_of_mem hmem) hsame
      · rw [hkept, List.mem_filter, heq] at hin
        simp [hentry] at hin
    have hfreed := @Ledger.free env _ _ h entry (List.mem_append_right others hmem) _ hsub hapart
      (forgetAlloc name { s with target := after }).registry ?_
    · rw [hfree] at hfreed
      exact hfreed
    · intro other otherEntry hother
      by_cases hsame : other = name
      · simp [forgetAlloc, hsame] at hother
      · have hold : s.registry.knownAllocations other = some otherEntry := by
          simpa [forgetAlloc, hsame] using hother
        obtain ⟨hotherName, hotherMem⟩ := h.known other otherEntry hold
        refine ⟨hold, ?_⟩
        rcases List.mem_append.mp hotherMem with hin | hin
        · exact List.mem_append_left _ hin
        · refine List.mem_append_right _ (List.mem_filter.mpr ⟨hin, ?_⟩)
          simpa [hotherName] using hsame
  | refuses name entry message after hname hknown hfree =>
    obtain ⟨hentryName, hmem⟩ := h.known name entry hknown
    rcases free_eq s.target env.kernel entry.address entry.size with
      ⟨other, hcall⟩ | ⟨other, hcall, -⟩
    · rw [hcall] at hfree
      rw [← (Prod.mk.inj hfree).2]
      refine h.call rfl (fun _ ↦ rfl) (fun address size accepted hevent ↦ ?_) (fun _ hx ↦ hx) rfl
      cases hevent
      exact List.mem_map.mpr ⟨_, h.live entry hmem, rfl⟩
    · rw [hcall] at hfree
      cases hfree
  | foreign t hruns =>
    exact h.call rfl (fun _ ↦ rfl) (by simp) (hkeeps s.target t hruns) rfl

theorem Ledger.allocStep {env : Environment} {others : List AllocEntry} {s s' : Run}
    (hstep : AllocStep env s s') (h : Ledger (others ++ s.disableInfo.allocs) ⟨s.target, s.registry⟩) :
    Ledger (others ++ s'.disableInfo.allocs) ⟨s'.target, s'.registry⟩ := by
  cases hstep with
  | keeps htarget hregistry hinfo =>
    rw [htarget, hregistry, hinfo]
    exact h
  | refused size preferred message after hcall =>
    unfold Target.allocate at hcall
    split at hcall
    · rw [← (Prod.mk.inj hcall).2]
      exact h.call rfl (fun _ ↦ rfl) (by simp) (fun _ hx ↦ hx) rfl
    · simp at hcall
  | allocates a preferred address after hcall =>
    rw [trackAlloc, ← List.append_assoc]
    exact h.allocate hcall rfl

/-! ### Sessions -/

/-- The `DEALLOC` lines that an execution reaches name blocks of the script itself, or nothing that
is known. -/
def DeallocatesOwn (env : Environment) (s : Session) : Call → Prop
  | .execute fuel scriptText => ∀ script rawLine run,
      ReachesLine env fuel s.world scriptText script rawLine run →
        ∀ name ∈ (classify (trim rawLine)).deallocates,
          name ∈ script.allocs.map Alloc.name ∨ s.world.registry.knownAllocations name = none
  | .disable _ | .elapse => True

theorem Ledger.execute {env : Environment} (hkeeps : env.KeepsMapped) {s : Session} {fuel : ℕ}
    {scriptText : Text} {w : World} {result : AutoAsmResult}
    (hcall : AutoAsm.execute env fuel s.world scriptText = some (w, result))
    (hown : DeallocatesOwn env s (.execute fuel scriptText)) (h : Ledger s.held s.world) :
    Ledger (s.held ++ result.disableInfo.allocs) w := by
  have hseeded : Ledger s.held (seeded env s.world) :=
    ⟨h.safe, h.intact, h.live, h.distinct, h.known⟩
  have hstart : ∀ parsed, Ledger (s.held ++ (startRun (seeded env s.world) parsed).disableInfo.allocs)
      (seeded env s.world) := fun parsed ↦ by
    rw [show (startRun (seeded env s.world) parsed).disableInfo.allocs = [] from rfl,
      List.append_nil]
    exact hseeded
  have hrun := execute_induct
    (P := fun run ↦ Ledger (s.held ++ run.disableInfo.allocs) ⟨run.target, run.registry⟩) hcall
    hstart (fun _ _ ↦ Ledger.allocStep)
    (fun script rawLine run hreach hledger ↦
      ((emitLine_along rawLine run).preserves
        (p := fun run ↦ Tracked (script.allocs.map Alloc.name) s.world.registry run ∧
          Ledger (s.held ++ run.disableInfo.allocs) ⟨run.target, run.registry⟩)
        (fun _ _ hstep hboth ↦ ⟨hboth.1.lineStep hstep,
          Ledger.lineStep hkeeps hstep hboth.1 (hown script rawLine run hreach) hboth.2⟩)
        ⟨hreach.tracked, hledger⟩).2)
    (fun s s' hstep ↦ Ledger.lineStep hkeeps hstep
      (fun name entry hknown ↦ Or.inr ⟨List.not_mem_nil, hknown⟩) (by simp [Line.deallocates]))
  rcases hrun with ⟨log, error, hw, hresult⟩ | ⟨parsed, outcome, hsettled, hfinish⟩
  · rw [hw, hresult, List.append_nil]
    exact hseeded
  cases outcome with
  | ok _ run =>
    obtain ⟨script, emitted, hledger, hrun⟩ := hsettled
    obtain ⟨htarget, hknown, hallocs, -⟩ :=
      registerSymbols_blocks script parsed.registeredSymbols emitted
    obtain ⟨hw, hresult⟩ := Prod.mk.inj hfinish
    rw [hw, hresult, hrun]
    dsimp only
    rw [hallocs]
    refine ⟨?_, ?_, ?_, hledger.distinct, ?_⟩
    · rw [htarget]; exact hledger.safe
    · rw [htarget]; exact hledger.intact
    · rw [htarget]; exact hledger.live
    · rw [hknown]; exact hledger.known
  | error failure run =>
    unfold finish at hfinish
    dsimp only at hfinish
    split_ifs at hfinish
    · have hledger : Ledger (s.held ++ run.disableInfo.allocs ++ []) ⟨run.target, run.registry⟩ := by
        rw [List.append_nil]
        exact hsettled
      obtain ⟨hw, hresult⟩ := Prod.mk.inj hfinish
      rw [hw, hresult]
      exact hledger.undo run.disableInfo
    · obtain ⟨hw, hresult⟩ := Prod.mk.inj hfinish
      rw [hw, hresult]
      exact hsettled

theorem Ledger.step {env : Environment} (hkeeps : env.KeepsMapped) {s s' : Session} {call : Call}
    (hstep : Session.Step env s call s') (hown : DeallocatesOwn env s call)
    (h : Ledger s.held s.world) : Ledger s'.held s'.world := by
  cases hstep with
  | execute fuel script w result hcall =>
    have hexecuted := Ledger.execute hkeeps hcall hown h
    simpa [Session.held] using hexecuted
  | disable index result hpending =>
    obtain ⟨hindex, hresult⟩ := List.getElem?_eq_some_iff.mp hpending
    have hsplit : s.pending = s.pending.take index ++ result :: s.pending.drop (index + 1) := by
      rw [← hresult, List.cons_getElem_drop_succ, List.take_append_drop]
    have hheld : Ledger (Session.held ⟨s.world, s.pending.take index⟩ ++ result.disableInfo.allocs ++
        Session.held ⟨s.world, s.pending.drop (index + 1)⟩) (seeded env s.world) := by
      have hledger : Ledger s.held (seeded env s.world) :=
        ⟨h.safe, h.intact, h.live, h.distinct, h.known⟩
      rw [Session.held, hsplit] at hledger
      simpa [Session.held] using hledger
    have hundone := @Ledger.undo env _ _ result.disableInfo _ hheld
    have hdisabled : Ledger (Session.held ⟨s.world, s.pending.take index⟩ ++
        Session.held ⟨s.world, s.pending.drop (index + 1)⟩)
        (AutoAsm.disable env s.world result.disableInfo).1 :=
      ⟨hundone.safe, hundone.intact, hundone.live, hundone.distinct, hundone.known⟩
    rw [Session.held, List.eraseIdx_eq_take_drop_succ, List.flatMap_append]
    exact hdisabled
  | elapse t hevents hmapped =>
    refine ⟨?_, h.intact.of_mapped (congrArg liveBlocks hevents) hmapped, ?_, h.distinct, h.known⟩
    · rw [hevents]; exact h.safe
    · rw [hevents]; exact h.live

/-- While scripts deallocate only their own blocks, every `free` in a sequence of calls is of a
block that is allocated. -/
theorem noDoubleFree_of_deallocatesOwn (env : Environment) (hkeeps : env.KeepsMapped)
    (target : Target) (globalSymbols : Text → Option ℕ) (s : Session)
    (hruns : Session.Runs env (DeallocatesOwn env) (Session.fresh target globalSymbols) s) :
    NoDoubleFree s.world.target.events := by
  have hfresh : Ledger (Session.fresh target globalSymbols).held
      (Session.fresh target globalSymbols).world :=
    ⟨noDoubleFree_nil, ⟨by simp [Session.fresh, liveBlocks], by simp [Session.fresh, liveBlocks]⟩,
      by simp [Session.held, Session.fresh], List.nodup_nil, by simp [Session.fresh]⟩
  have hledger := preserves_of_chain (p := fun s ↦ Ledger s.held s.world)
    (fun s s' hstep hs ↦ by
      obtain ⟨call, hown, hcall⟩ := hstep
      exact Ledger.step hkeeps hcall hown hs) hruns hfresh
  exact hledger.safe

/-- A script that frees its own block, enabled and disabled on a new assembler. -/
theorem noDoubleFree_of_deallocatesOwn_single :
    ∃ s, (Session.fresh onePage fun _ ↦ none).nextAll plainEnvironment
        [.execute 10 "alloc(x,16)\ndealloc(x)".toList, .disable 0] = some s ∧
      NoDoubleFree s.world.target.events := by
  have hsome : ((Session.fresh onePage fun _ ↦ none).nextAll plainEnvironment
      [.execute 10 "alloc(x,16)\ndealloc(x)".toList, .disable 0]).isSome := by decide +kernel
  obtain ⟨s, hs⟩ := Option.isSome_iff_exists.mp hsome
  obtain ⟨enabled, henabled, hrest⟩ := Option.bind_eq_some_iff.mp hs
  obtain ⟨disabled, hdisabled, hlast⟩ := Option.bind_eq_some_iff.mp hrest
  obtain rfl : disabled = s := Option.some.inj hlast
  refine ⟨disabled, hs, noDoubleFree_of_deallocatesOwn plainEnvironment
    plainEnvironment_keepsMapped onePage (fun _ ↦ none) disabled ?_⟩
  have hexecute : Session.Runs plainEnvironment (DeallocatesOwn plainEnvironment) _ enabled :=
    Session.Runs.of_next henabled fun script rawLine run _ name _ ↦ Or.inr rfl
  exact hexecute.trans (Session.Runs.of_next hdisabled trivial)

/-- The second script frees the block of the first, and disabling the first frees it again. -/
theorem double_free_of_deallocated_by_other :
    ∃ s, Session.Runs plainEnvironment (fun _ _ ↦ True) (Session.fresh onePage fun _ ↦ none) s ∧
      ¬NoDoubleFree s.world.target.events := by
  have hevents : ((Session.fresh onePage fun _ ↦ none).nextAll plainEnvironment
      [.execute 10 "alloc(x,16)".toList, .execute 10 "dealloc(x)".toList, .disable 0]).map
        (fun s ↦ s.world.target.events) =
      some [.allocate (some 0x3000) 16, .free 0x3000 16 true, .free 0x3000 16 true] := by
    decide +kernel
  obtain ⟨s, hs, hlist⟩ := Option.map_eq_some_iff.mp hevents
  refine ⟨s, Session.Runs.of_nextAll _ hs, fun hsafe ↦ ?_⟩
  have hlive := hsafe [.allocate (some 0x3000) 16, .free 0x3000 16 true] [] 0x3000 16 true hlist
  simp [liveBlocks, blocksAfter] at hlive

end Cecore.AutoAsm
