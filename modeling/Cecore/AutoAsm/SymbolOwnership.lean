import Cecore.AutoAsm.Session
import Cecore.AutoAsm.Surroundings

/-!
# The symbols of enabled scripts

`globalSymbols_` keeps one address under a name, whoever registered it. `disable` erases the names
in its `DisableInfo` without looking at the address, also where another script registered the name
too. While no script registers or unregisters a name of another enabled script (`SharesNoSymbol`),
each name resolves to where its script registered it; once two enabled scripts share one, disabling
either leaves the other without it.
-/

set_option autoImplicit false
set_option relaxedAutoImplicit false

namespace Cecore.AutoAsm

open Platform Emit Library.Effects

/-- `AutoAssembler::resolveSymbol`. -/
def Registry.resolveSymbol (registry : Registry) (name : Text) : ℕ :=
  (registry.globalSymbols name).getD 0

/-- The base that seeding gives a name: that of the last module which has it. -/
def moduleBase (modules : List ModuleInfo) (name : Text) : Option ℕ :=
  if name = [] then none else (modules.reverse.find? fun m ↦ m.name = name).map ModuleInfo.base

namespace Session

/-- A script that is not disabled yet registered the name at the address. -/
def Registers (s : Session) (name : Text) (address : ℕ) : Prop :=
  ∃ result ∈ s.pending, result.disableInfo.symbols name = some address

/-- Every name resolves to where an enabled script registered it. -/
def SymbolsResolve (s : Session) : Prop :=
  ∀ name address, s.Registers name address → s.world.registry.resolveSymbol name = address

end Session

/-- The call leaves the names of the enabled scripts alone: no loaded module has one of them at
another base, and an execution lists none of them to register and gets to no `UNREGISTERSYMBOL` line
that lists one. -/
def SharesNoSymbol (env : Environment) (s : Session) (call : Call) : Prop :=
  (∀ name address base, s.Registers name address →
    moduleBase (env.modules s.world.target) name = some base → base = address) ∧
  match call with
  | .execute fuel scriptText =>
    (∀ ok parsed, parseScript env fuel (seeded env s.world) scriptText = some (ok, parsed) →
      ∀ name ∈ parsed.registeredSymbols, ∀ address, ¬s.Registers name address) ∧
    ∀ script rawLine run, ReachesLine env fuel s.world scriptText script rawLine run →
      ∀ name ∈ (classify (trim rawLine)).unregisters, ∀ address, ¬s.Registers name address
  | .disable _ | .elapse => True

/-! ### The map in one call -/

section Calls

variable {env : Environment}

theorem globalSymbols_seedModules (modules : List ModuleInfo) (registry : Registry) (name : Text) :
    (seedModules modules registry).globalSymbols name =
      (moduleBase modules name).or (registry.globalSymbols name) := by
  unfold seedModules moduleBase
  dsimp only
  induction modules using List.reverseRecOn with
  | nil => simp
  | append_singleton rest m ih =>
    rw [List.foldl_append, List.foldl_cons, List.foldl_nil, List.reverse_append,
      List.reverse_singleton, List.singleton_append, List.find?_cons]
    by_cases hm : m.name = []
    · rw [if_pos hm, ih]
      by_cases hname : name = []
      · rw [if_pos hname, if_pos hname]
      · rw [decide_eq_false fun heq : m.name = name ↦ hname (heq ▸ hm)]
    · rw [if_neg hm]
      by_cases hname : m.name = name
      · rw [hname, Function.update_self, decide_eq_true rfl, if_neg (hname ▸ hm)]
        rfl
      · rw [Function.update_of_ne (Ne.symm hname), ih, decide_eq_false hname]

theorem globalSymbols_freeAllocs (allocs : List AllocEntry) (w : World) :
    (freeAllocs env allocs w).registry.globalSymbols = w.registry.globalSymbols := by
  induction allocs generalizing w with
  | nil => rfl
  | cons a rest ih =>
    rw [freeAllocs, ih]
    unfold freeAlloc forgetBlock
    dsimp only
    split
    · split_ifs <;> rfl
    · rfl

theorem globalSymbols_undo (info : DisableInfo) (w : World) :
    (undo env info w).registry.globalSymbols = w.registry.globalSymbols :=
  globalSymbols_freeAllocs info.allocs _

/-- Disabling erases the names of its script and leaves the others as seeding left them. -/
theorem globalSymbols_disable (w : World) (info : DisableInfo) (name : Text) :
    (disable env w info).1.registry.globalSymbols name =
      if (info.symbols name).isSome then none
      else (moduleBase (env.modules w.target) name).or (w.registry.globalSymbols name) := by
  unfold disable
  dsimp only
  rw [globalSymbols_undo, seeded, globalSymbols_seedModules]

/-- While the run goes on, nothing was registered for its script, and the map of `start` is kept on
the names in `kept`. -/
structure Unregistered (kept : Text → Prop) (start : Registry) (run : Run) : Prop where
  none : ∀ name, run.disableInfo.symbols name = none
  kept : ∀ name, kept name → run.registry.globalSymbols name = start.globalSymbols name

variable {kept : Text → Prop} {start : Registry} {s s' : Run}

theorem Unregistered.allocStep (hstep : AllocStep env s s') (h : Unregistered kept start s) :
    Unregistered kept start s' := by
  cases hstep with
  | keeps htarget hregistry hinfo =>
    refine ⟨?_, ?_⟩
    · rw [hinfo]
      exact h.none
    · rw [hregistry]
      exact h.kept
  | refused | allocates => exact ⟨h.none, h.kept⟩

theorem Unregistered.lineStep {line : Line} (hstep : LineStep env line s s')
    (hline : ∀ name ∈ line.unregisters, ¬kept name) (h : Unregistered kept start s) :
    Unregistered kept start s' := by
  cases hstep with
  | keeps htarget hregistry hinfo =>
    refine ⟨?_, ?_⟩
    · rw [hinfo]
      exact h.none
    · rw [hregistry]
      exact h.kept
  | unregisters name hname =>
    refine ⟨fun other ↦ ?_, fun other hother ↦ ?_⟩
    · change Function.update s.disableInfo.symbols name Option.none other = Option.none
      by_cases hsame : other = name
      · rw [hsame, Function.update_self]
      · rw [Function.update_of_ne hsame, h.none]
    · change Function.update s.registry.globalSymbols name Option.none other = _
      have hne : other ≠ name := fun hsame ↦ hline name hname (hsame ▸ hother)
      rw [Function.update_of_ne hne, h.kept other hother]
  | protects | records | writes | frees | refuses | foreign => exact ⟨h.none, h.kept⟩

/-- What registration leaves: the script's names are among `names`, each in the map at the same
address, and the map of `start` is kept on the other names in `kept`. -/
structure Registered (names : List Text) (kept : Text → Prop) (start : Registry)
    (registry : Registry) (symbols : Text → Option ℕ) : Prop where
  listed : ∀ name address, symbols name = some address → name ∈ names
  resolves : ∀ name address, symbols name = some address →
    registry.globalSymbols name = some address ∧ address ≠ 0
  kept : ∀ name, kept name → name ∉ names → registry.globalSymbols name = start.globalSymbols name

theorem Registered.registerSymbol {names : List Text} {script : Script} {sym : Text} {run : Run}
    (hsym : sym ∈ names)
    (h : Registered names kept start run.registry run.disableInfo.symbols) :
    Registered names kept start (AutoAsm.registerSymbol script sym run).registry
      (AutoAsm.registerSymbol script sym run).disableInfo.symbols := by
  unfold AutoAsm.registerSymbol
  dsimp only
  split_ifs with haddr
  · exact h
  · set addr := (run.symbols script).resolveAddress sym with haddrEq
    refine ⟨fun name address hname ↦ ?_, fun name address hname ↦ ?_, fun name hkept hnot ↦ ?_⟩
    · dsimp only at hname
      by_cases hsame : name = sym
      · exact hsame ▸ hsym
      · rw [Function.update_of_ne hsame] at hname
        exact h.listed name address hname
    · dsimp only at hname ⊢
      by_cases hsame : name = sym
      · rw [hsame, Function.update_self, Option.some.injEq] at hname
        rw [hsame, Function.update_self, ← hname]
        exact ⟨rfl, haddr⟩
      · rw [Function.update_of_ne hsame] at hname ⊢
        exact h.resolves name address hname
    · have hne : name ≠ sym := fun hsame ↦ hnot (hsame ▸ hsym)
      dsimp only
      rw [Function.update_of_ne hne]
      exact h.kept name hkept hnot

theorem Unregistered.registerSymbols (script : Script) (symbols : List Text)
    (h : Unregistered kept start s) :
    Registered symbols kept start (registerSymbols script symbols s).registry
      (registerSymbols script symbols s).disableInfo.symbols := by
  have hfold : ∀ (rest : List Text) (run : Run), (∀ name ∈ rest, name ∈ symbols) →
      Registered symbols kept start run.registry run.disableInfo.symbols →
      Registered symbols kept start (AutoAsm.registerSymbols script rest run).registry
        (AutoAsm.registerSymbols script rest run).disableInfo.symbols := by
    intro rest
    induction rest with
    | nil => exact fun run _ hrun ↦ hrun
    | cons sym rest ih =>
      intro run hsub hrun
      exact ih _ (fun name hname ↦ hsub name (List.mem_cons_of_mem _ hname))
        (hrun.registerSymbol (hsub sym List.mem_cons_self))
  refine hfold symbols s (fun _ hname ↦ hname) ⟨?_, ?_, fun name hkept _ ↦ h.kept name hkept⟩
  · intro name address hname
    rw [h.none] at hname
    cases hname
  · intro name address hname
    rw [h.none] at hname
    cases hname

variable (kept) in
/-- An execution registers listed names only, each at an address that the map has for it, and leaves
the map on the other names in `kept` as seeding left it. -/
theorem Registered.execute {fuel : ℕ} {w w' : World} {scriptText : Text} {result : AutoAsmResult}
    (hcall : AutoAsm.execute env fuel w scriptText = some (w', result))
    (hkept : ∀ script rawLine run, ReachesLine env fuel w scriptText script rawLine run →
      ∀ name ∈ (classify (trim rawLine)).unregisters, ¬kept name) :
    ∃ ok parsed, parseScript env fuel (seeded env w) scriptText = some (ok, parsed) ∧
      Registered parsed.registeredSymbols kept (seeded env w).registry w'.registry
        result.disableInfo.symbols := by
  have hnone : ∀ (listed : List Text) (registry : Registry),
      (∀ name, kept name → registry.globalSymbols name =
        (seeded env w).registry.globalSymbols name) →
      Registered listed kept (seeded env w).registry registry fun _ ↦ none :=
    fun listed registry hsame ↦ ⟨by simp, by simp, fun name hname _ ↦ hsame name hname⟩
  unfold AutoAsm.execute at hcall
  dsimp only at hcall
  split at hcall
  · cases hcall
  · next parsed hparsed =>
    simp only [Option.some.injEq, Prod.mk.injEq] at hcall
    refine ⟨false, parsed, hparsed, ?_⟩
    rw [← hcall.1, ← hcall.2]
    exact hnone _ _ fun _ _ ↦ rfl
  · next parsed hparsed =>
    refine ⟨true, parsed, hparsed, ?_⟩
    have hsettled := @executeParsed_induct env (env.runs32BitCode (seeded env w).target) parsed
      (startRun (seeded env w) parsed) (Unregistered kept (seeded env w).registry)
      ⟨fun _ ↦ rfl, fun _ _ ↦ rfl⟩
      (fun _ _ ↦ Unregistered.allocStep)
      (fun script rawLine run hreach hrun ↦ (emitLine_along rawLine run).preserves
        (fun _ _ hstep ↦ Unregistered.lineStep hstep
          (hkept script rawLine run ⟨parsed, hparsed, hreach⟩)) hrun)
      (fun _ _ hstep ↦ Unregistered.lineStep hstep (by simp [Line.unregisters]))
    rw [Option.some.injEq] at hcall
    generalize executeParsed env (env.runs32BitCode (seeded env w).target) parsed
      (startRun (seeded env w) parsed) = outcome at hsettled hcall
    cases outcome with
    | ok _ run =>
      obtain ⟨script, emitted, hemitted, hrun⟩ := hsettled
      obtain ⟨hw, hresult⟩ := Prod.mk.inj hcall
      rw [← hw, ← hresult, hrun]
      exact hemitted.registerSymbols script parsed.registeredSymbols
    | error failure run =>
      have hunregistered : Unregistered kept (seeded env w).registry run := hsettled
      unfold finish at hcall
      dsimp only at hcall
      split_ifs at hcall
      · obtain ⟨hw, hresult⟩ := Prod.mk.inj hcall
        rw [← hw, ← hresult]
        refine hnone _ _ fun name hname ↦ ?_
        rw [globalSymbols_undo]
        exact hunregistered.kept name hname
      · obtain ⟨hw, hresult⟩ := Prod.mk.inj hcall
        rw [← hw, ← hresult, show run.disableInfo.symbols = fun _ ↦ none from
          funext hunregistered.none]
        exact hnone _ _ hunregistered.kept

end Calls

/-! ### Sequences of calls -/

/-- The scripts of two results registered no name in common. -/
def Apart (result other : AutoAsmResult) : Prop :=
  ∀ name address, result.disableInfo.symbols name = some address →
    other.disableInfo.symbols name = none

theorem Apart.symm {result other : AutoAsmResult} (h : Apart result other) : Apart other result := by
  intro name address hother
  cases hresult : result.disableInfo.symbols name with
  | none => rfl
  | some a =>
    rw [h name a hresult] at hother
    cases hother

/-- Every registered name belongs to one enabled script, and the map has it at that script's
address. -/
structure Owned (s : Session) : Prop where
  resolves : ∀ name address, s.Registers name address →
    s.world.registry.globalSymbols name = some address ∧ address ≠ 0
  apart : s.pending.Pairwise Apart

section Steps

variable {env : Environment} {s s' : Session}

/-- What is left when one result is taken out shares no name with it. -/
theorem Owned.apart_eraseIdx (h : Owned s) {index : ℕ} {result other : AutoAsmResult}
    (hpending : s.pending[index]? = some result) (hother : other ∈ s.pending.eraseIdx index) :
    Apart result other := by
  obtain ⟨hindex, hresult⟩ := List.getElem?_eq_some_iff.mp hpending
  have hsplit : s.pending = s.pending.take index ++ result :: s.pending.drop (index + 1) := by
    rw [← hresult, List.cons_getElem_drop_succ, List.take_append_drop]
  have hapart := h.apart
  rw [hsplit, List.pairwise_middle fun hxy ↦ hxy.symm, List.pairwise_cons] at hapart
  rw [List.eraseIdx_eq_take_drop_succ] at hother
  exact hapart.1 other hother

theorem Owned.step {call : Call} (hstep : Session.Step env s call s')
    (hshares : SharesNoSymbol env s call) (h : Owned s) : Owned s' := by
  obtain ⟨hmodules, hcalls⟩ := hshares
  have hseeded : ∀ name address, s.Registers name address →
      (moduleBase (env.modules s.world.target) name).or (s.world.registry.globalSymbols name) =
        some address := by
    intro name address hname
    rw [(h.resolves name address hname).1]
    cases hbase : moduleBase (env.modules s.world.target) name with
    | none => rfl
    | some base =>
      rw [hmodules name address base hname hbase]
      rfl
  cases hstep with
  | execute fuel script w result hcall =>
    obtain ⟨ok, parsed, hparsed, hregistered⟩ := Registered.execute
      (fun name ↦ ∃ address, s.Registers name address) hcall
      (fun script rawLine run hreach name hname ⟨address, hheld⟩ ↦
        hcalls.2 script rawLine run hreach name hname address hheld)
    have hfresh : ∀ name address, result.disableInfo.symbols name = some address →
        ∀ held, ¬s.Registers name held := fun name address hname ↦
      hcalls.1 ok parsed hparsed name (hregistered.listed name address hname)
    refine ⟨fun name address hname ↦ ?_, ?_⟩
    · obtain ⟨owner, howner, hname⟩ := hname
      rcases List.mem_append.mp howner with hold | hnew
      · have hheld : s.Registers name address := ⟨owner, hold, hname⟩
        refine ⟨?_, (h.resolves name address hheld).2⟩
        rw [hregistered.kept name ⟨address, hheld⟩ fun hlisted ↦
          hcalls.1 ok parsed hparsed name hlisted address hheld, seeded, globalSymbols_seedModules]
        exact hseeded name address hheld
      · rw [List.mem_singleton.mp hnew] at hname
        exact hregistered.resolves name address hname
    · refine List.pairwise_append.mpr ⟨h.apart, List.pairwise_singleton _ _, ?_⟩
      intro owner howner other hother name address hname
      rw [List.mem_singleton.mp hother]
      cases hnew : result.disableInfo.symbols name with
      | none => rfl
      | some a => exact absurd ⟨owner, howner, hname⟩ (hfresh name a hnew address)
  | disable index result hpending =>
    refine ⟨fun name address hname ↦ ?_, h.apart.sublist (List.eraseIdx_sublist _ _)⟩
    obtain ⟨owner, howner, hname⟩ := hname
    have hheld : s.Registers name address := ⟨owner, List.eraseIdx_subset howner, hname⟩
    have hout : result.disableInfo.symbols name = none :=
      (h.apart_eraseIdx hpending howner).symm name address hname
    refine ⟨?_, (h.resolves name address hheld).2⟩
    dsimp only
    rw [globalSymbols_disable, hout]
    exact hseeded name address hheld
  | elapse t hevents hmapped => exact ⟨h.resolves, h.apart⟩

/-- No script registers a name at zero. -/
def NonzeroSymbols (s : Session) : Prop := ∀ name address, s.Registers name address → address ≠ 0

theorem NonzeroSymbols.step {call : Call} (hstep : Session.Step env s call s')
    (h : NonzeroSymbols s) : NonzeroSymbols s' := by
  cases hstep with
  | execute fuel script w result hcall =>
    obtain ⟨ok, parsed, -, hregistered⟩ := Registered.execute (fun _ ↦ False) hcall
      fun _ _ _ _ _ _ ↦ id
    rintro name address ⟨owner, howner, hname⟩
    rcases List.mem_append.mp howner with hold | hnew
    · exact h name address ⟨owner, hold, hname⟩
    · rw [List.mem_singleton.mp hnew] at hname
      exact (hregistered.resolves name address hname).2
  | disable index result hpending =>
    rintro name address ⟨owner, howner, hname⟩
    exact h name address ⟨owner, List.eraseIdx_subset howner, hname⟩
  | elapse t hevents hmapped => exact h

/-- A name that still resolves after a `disable` was not registered by the disabled script too, and
no loaded module has it at another base. -/
theorem NonzeroSymbols.of_resolve (h : NonzeroSymbols s) {index : ℕ} {result : AutoAsmResult}
    (hpending : s.pending[index]? = some result) (hstep : Session.Step env s (.disable index) s')
    (hresolve : s'.SymbolsResolve) {name : Text} {address : ℕ} (hname : s'.Registers name address) :
    result.disableInfo.symbols name = none ∧
      ∀ base, moduleBase (env.modules s.world.target) name = some base → base = address := by
  have hfound := hresolve name address hname
  cases hstep with
  | disable _ other hother =>
    obtain rfl : other = result := Option.some.inj (hother.symm.trans hpending)
    have hnonzero : address ≠ 0 := by
      obtain ⟨owner, howner, hname⟩ := hname
      exact h name address ⟨owner, List.eraseIdx_subset howner, hname⟩
    unfold Registry.resolveSymbol at hfound
    rw [globalSymbols_disable] at hfound
    cases hsymbol : other.disableInfo.symbols name with
    | some a =>
      rw [hsymbol] at hfound
      exact absurd hfound.symm hnonzero
    | none =>
      rw [hsymbol] at hfound
      refine ⟨rfl, fun base hbase ↦ ?_⟩
      rw [hbase] at hfound
      exact hfound

end Steps

/-- While no script registers or unregisters a name of another enabled script, and no module takes
such a name, every name resolves to where an enabled script registered it, after every call. A
`disable` leaves the names of the other scripts so only if the disabled script registered none of
them and no module has one of them at another base. -/
theorem symbols_resolve_run (env : Environment) (target : Target)
    (globalSymbols : Text → Option ℕ) :
    (∀ s, Session.Runs env (SharesNoSymbol env) (Session.fresh target globalSymbols) s →
      s.SymbolsResolve) ∧
    ∀ s s' index result,
      Session.Runs env (fun _ _ ↦ True) (Session.fresh target globalSymbols) s →
      s.pending[index]? = some result → Session.Step env s (.disable index) s' →
      s'.SymbolsResolve → ∀ name address, s'.Registers name address →
        result.disableInfo.symbols name = none ∧
          ∀ base, moduleBase (env.modules s.world.target) name = some base → base = address := by
  have hempty : ∀ name address, ¬(Session.fresh target globalSymbols).Registers name address := by
    rintro name address ⟨owner, howner, -⟩
    cases howner
  constructor
  · intro s hruns name address hname
    have howned := preserves_of_chain (p := Owned)
      (fun s s' hstep hs ↦ by
        obtain ⟨call, hshares, hcall⟩ := hstep
        exact hs.step hcall hshares) hruns
      ⟨fun name address hname ↦ absurd hname (hempty name address), List.Pairwise.nil⟩
    rw [Registry.resolveSymbol, (howned.resolves name address hname).1]
    rfl
  · intro s s' index result hruns hpending hstep hresolve name address hname
    have hnonzero := preserves_of_chain (p := NonzeroSymbols)
      (fun s s' hstep hs ↦ by
        obtain ⟨call, -, hcall⟩ := hstep
        exact hs.step hcall) hruns fun name address hname ↦ absurd hname (hempty name address)
    exact hnonzero.of_resolve hpending hstep hresolve hname

/-- A script without lines to assemble gets to none. -/
theorem not_reachesLine {env : Environment} {fuel : ℕ} {w : World} {scriptText : Text}
    (h : ∀ ok parsed, parseScript env fuel (seeded env w) scriptText = some (ok, parsed) →
      parsed.asmLines = []) (script : Script) (rawLine : Text) (run : Run) :
    ¬ReachesLine env fuel w scriptText script rawLine run := by
  rintro ⟨parsed, hparsed, allocs, allocated, lines, prepared, before, after, -, -, hprepare, hlines, -⟩
  unfold prepareLines at hprepare
  obtain ⟨start, _, hget, hprepare⟩ := bind_eq_ok hprepare
  cases hget
  rw [h true parsed hparsed] at hprepare
  obtain ⟨_, mid, hmodify, hprepare⟩ := bind_eq_ok hprepare
  dsimp only [selectTryExceptBranches] at hprepare
  cases hlabels : resolveForwardLabels env script allocated.registry.globalSymbols allocated.target []
      parsed.labels with
  | error error =>
    rw [hlabels] at hprepare
    cases hprepare
  | ok labels =>
    rw [hlabels] at hprepare
    obtain ⟨_, last, hlast, hpure⟩ := bind_eq_ok hprepare
    obtain ⟨rfl, -⟩ := EStateM.Result.ok.inj hpure
    simp at hlines

/-- Two scripts that register different names, the first of them disabled. -/
theorem symbols_resolve_run_apart :
    ∃ s, (Session.fresh onePage fun _ ↦ none).nextAll plainEnvironment
        [.execute 10 "define(x,1000)\nregistersymbol(x)".toList,
          .execute 10 "define(y,2000)\nregistersymbol(y)".toList, .disable 0] = some s ∧
      s.SymbolsResolve := by
  have hsome : ((Session.fresh onePage fun _ ↦ none).nextAll plainEnvironment
      [.execute 10 "define(x,1000)\nregistersymbol(x)".toList,
        .execute 10 "define(y,2000)\nregistersymbol(y)".toList, .disable 0]).isSome := by
    decide +kernel
  have hparse : ((Session.fresh onePage fun _ ↦ none).next plainEnvironment
      (.execute 10 "define(x,1000)\nregistersymbol(x)".toList)).bind (fun s ↦
        (parseScript plainEnvironment 10 (seeded plainEnvironment s.world)
          "define(y,2000)\nregistersymbol(y)".toList).map fun out ↦
            (out.2.registeredSymbols, out.2.asmLines)) = some (["y".toList], []) := by
    decide +kernel
  have hnames : (parseScript plainEnvironment 10 (seeded plainEnvironment
      (Session.fresh onePage fun _ ↦ none).world) "define(x,1000)\nregistersymbol(x)".toList).map
        (fun out ↦ out.2.registeredSymbols) = some ["x".toList] := by
    decide +kernel
  obtain ⟨s, hs⟩ := Option.isSome_iff_exists.mp hsome
  obtain ⟨first, hfirst, hrest⟩ := Option.bind_eq_some_iff.mp hs
  obtain ⟨second, hsecond, hrest⟩ := Option.bind_eq_some_iff.mp hrest
  obtain ⟨disabled, hdisabled, hlast⟩ := Option.bind_eq_some_iff.mp hrest
  obtain rfl : disabled = s := Option.some.inj hlast
  refine ⟨disabled, hs, (symbols_resolve_run plainEnvironment onePage fun _ ↦ none).1 disabled ?_⟩
  have hmodules : ∀ (s : Session) (name : Text) (address base : ℕ), s.Registers name address →
      moduleBase (plainEnvironment.modules s.world.target) name = some base → base = address := by
    intro s name address base _ hbase
    simp [moduleBase, plainEnvironment] at hbase
  have hfresh : ∀ name address,
      ¬(Session.fresh onePage fun _ ↦ none).Registers name address := by
    rintro name address ⟨owner, howner, -⟩
    cases howner
  have honly : ∀ name address, first.Registers name address → name = "x".toList := by
    rintro name address ⟨owner, howner, hname⟩
    cases Session.Step.of_next hfirst with
    | execute _ _ w result hcall =>
      obtain rfl : owner = result := List.mem_singleton.mp howner
      obtain ⟨ok, parsed, hparsed, hregistered⟩ := Registered.execute (fun _ ↦ False) hcall
        fun _ _ _ _ _ _ ↦ id
      rw [hparsed, Option.map_some, Option.some.injEq] at hnames
      have hlisted := hregistered.listed name address hname
      rw [hnames] at hlisted
      exact List.mem_singleton.mp hlisted
  rw [hfirst, Option.bind_some] at hparse
  have hrun : Session.Runs plainEnvironment (SharesNoSymbol plainEnvironment) _ first :=
    Session.Runs.of_next hfirst ⟨hmodules _, fun _ _ _ _ _ address ↦ hfresh _ address,
      fun _ _ _ _ _ _ address ↦ hfresh _ address⟩
  refine (hrun.trans (Session.Runs.of_next hsecond ⟨hmodules _, ?_, ?_⟩)).trans
    (Session.Runs.of_next hdisabled ⟨hmodules _, trivial⟩)
  · intro ok parsed hparsed name hname address hheld
    rw [hparsed, Option.map_some, Option.some.injEq] at hparse
    rw [(Prod.mk.inj hparse).1, List.mem_singleton, honly name address hheld] at hname
    revert hname
    decide
  · intro script rawLine run hreach
    refine absurd hreach (not_reachesLine (fun ok parsed hparsed ↦ ?_) script rawLine run)
    rw [hparsed, Option.map_some, Option.some.injEq] at hparse
    exact (Prod.mk.inj hparse).2

/-- Two scripts register one name; disabling the first leaves the second without it. -/
theorem symbol_erased_by_other :
    ∃ s result, (Session.fresh onePage fun _ ↦ none).nextAll plainEnvironment
        [.execute 10 "define(x,1000)\nregistersymbol(x)".toList,
          .execute 10 "define(x,2000)\nregistersymbol(x)".toList, .disable 0] = some s ∧
      s.pending = [result] ∧ result.success = true ∧
      result.disableInfo.symbols "x".toList = some 0x2000 ∧
      s.world.registry.resolveSymbol "x".toList = 0 := by
  have hlast : ((Session.fresh onePage fun _ ↦ none).nextAll plainEnvironment
      [.execute 10 "define(x,1000)\nregistersymbol(x)".toList,
        .execute 10 "define(x,2000)\nregistersymbol(x)".toList, .disable 0]).map
        (fun s ↦ (s.pending.map fun result ↦
          (result.success, result.disableInfo.symbols "x".toList),
          s.world.registry.resolveSymbol "x".toList)) = some ([(true, some 0x2000)], 0) := by
    decide +kernel
  obtain ⟨s, hs, hview⟩ := Option.map_eq_some_iff.mp hlast
  obtain ⟨hpending, hresolve⟩ := Prod.mk.inj hview
  obtain ⟨result, hresult, hfields⟩ := List.map_eq_singleton_iff.mp hpending
  obtain ⟨hsuccess, hsymbol⟩ := Prod.mk.inj hfields
  exact ⟨s, result, hs, hresult, hsuccess, hsymbol, hresolve⟩

end Cecore.AutoAsm
