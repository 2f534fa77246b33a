import Cecore.AutoAsm.LineEffects

/-!
# The phases of an execution

An execution allocates, prepares its lines, emits them one by one, starts threads and registers
symbols. `ReachesLine` says that emission gets to a line and in which state, and
`executeParsed_induct` carries a property of the run through the phases: through allocations,
through each line that is reached, and through code run in the target.
-/

set_option autoImplicit false
set_option relaxedAutoImplicit false

namespace Cecore.AutoAsm

open Platform Emit Library.Effects

/-! ### Allocation -/

/-- A change that the allocation phase makes to a run. -/
inductive AllocStep (env : Environment) : Run → Run → Prop
  | keeps {s s' : Run} (htarget : s'.target = s.target) (hregistry : s'.registry = s.registry)
      (hinfo : s'.disableInfo = s.disableInfo) : AllocStep env s s'
  | refused (s : Run) (size preferred : ℕ) (message : Text) (after : Target)
      (hcall : s.target.allocate env.kernel size preferred = (.error message, after)) :
      AllocStep env s { s with target := after }
  | allocates (s : Run) (a : Alloc) (preferred address : ℕ) (after : Target)
      (hcall : s.target.allocate env.kernel a.size preferred = (.ok address, after)) :
      AllocStep env s (trackAlloc a address { s with target := after })

/-- What the allocation phase does with its next block. -/
theorem allocateAll_cons (env : Environment) (labels : List Label) (defines : List Define)
    (done : List Alloc) (a : Alloc) (rest : List Alloc) (s : Run) :
    ∃ preferred, allocateAll env labels defines done (a :: rest) s =
      match s.target.allocate env.kernel a.size preferred with
      | (.error message, after) =>
        .error ⟨false, allocationError a message (env.tracerHint s.target)⟩
          { s with target := after }
      | (.ok address, after) =>
        allocateAll env labels defines (done ++ [{ a with preferred, address }]) rest
          { trackAlloc a address { s with target := after } with
            log := s.log ++ ["Allocated ".toList ++ a.name ++ " at 0x".toList ++
              formatHex address] } := by
  refine ⟨if a.preferredExpr = [] then a.preferred
    else (Symbols.mk (done ++ a :: rest) labels defines s.registry.globalSymbols).resolveAddress
      (dollarToHex a.preferredExpr), ?_⟩
  rw [allocateAll]
  simp only [onTarget, bind_apply, modifyGet_apply, get_apply]
  generalize (if a.preferredExpr = [] then a.preferred
    else (Symbols.mk (done ++ a :: rest) labels defines s.registry.globalSymbols).resolveAddress
      (dollarToHex a.preferredExpr)) = preferred
  rcases s.target.allocate env.kernel a.size preferred with ⟨allocated, after⟩
  cases allocated <;> rfl

theorem allocateAll_along {env : Environment} (labels : List Label) (defines : List Define)
    (rest : List Alloc) (done : List Alloc) (s : Run) :
    Along (AllocStep env) (allocateAll env labels defines done rest) s := by
  induction rest generalizing done s with
  | nil => exact Along.ret _
  | cons a rest ih =>
    unfold Along
    obtain ⟨preferred, hcons⟩ := allocateAll_cons env labels defines done a rest s
    rw [hcons]
    rcases hcall : s.target.allocate env.kernel a.size preferred with ⟨allocated, after⟩
    cases allocated with
    | error message =>
      exact Relation.ReflTransGen.single (AllocStep.refused s a.size preferred message after hcall)
    | ok address =>
      have hallocates := AllocStep.allocates s a preferred address after hcall
      refine Relation.ReflTransGen.head hallocates ?_
      have hrest := ih (done ++ [{ a with preferred, address }])
        { trackAlloc a address { s with target := after } with
          log := s.log ++ ["Allocated ".toList ++ a.name ++ " at 0x".toList ++ formatHex address] }
      refine Relation.ReflTransGen.head ?_ hrest
      exact AllocStep.keeps rfl rfl rfl

/-! ### Threads -/

/-- Starting threads runs code in the target; the records of the blocks stay, since a thread's stack
is not among them. -/
theorem createThreads_along (env : Environment) (script : Script) (line : Line)
    (threads : List DeferredThread) (s : Run) :
    Along (LineStep env line) (createThreads env script threads) s := by
  induction threads generalizing s with
  | nil => exact Along.ret _
  | cons thread rest ih =>
    unfold createThreads
    refine Along.read ?_
    dsimp only
    by_cases haddr : (s.symbols script).resolveAddress thread.addressExpr = 0
    · rw [if_pos haddr]
      exact fail_along _
    · rw [if_neg haddr]
      set addr := (s.symbols script).resolveAddress thread.addressExpr with haddrEq
      refine Along.updateGetThen (LineStep.foreign s _ (.createRemoteThread _ _ _)) ?_
      split
      · exact fail_along _
      · next info hcreated =>
        have hstack := env.createRemoteThread_stack s.target _ addr thread.wait thread.timeoutMs
          info (Prod.ext hcreated rfl)
        rw [if_pos hstack]
        refine Along.andThen (addLog_along _) fun _ _ _ ↦ ?_
        split_ifs
        · exact fail_along _
        · exact ih _

/-! ### Reached lines -/

/-- Emission gets to `rawLine` in the state `run`. -/
def ReachesFrom (env : Environment) (is32 : Bool) (parsed : Parsed) (start : Run) (script : Script)
    (rawLine : Text) (run : Run) : Prop :=
  ∃ allocs allocated lines prepared before after,
    allocateAll env parsed.labels parsed.defines [] parsed.allocs start = .ok allocs allocated ∧
      script = ⟨is32, allocs, parsed.defines⟩ ∧
      prepareLines env script parsed.labels parsed.asmLines allocated = .ok lines prepared ∧
      lines = before ++ rawLine :: after ∧ emitLines env script before prepared = .ok ⟨⟩ run

/-- An execution of `scriptText` gets to the line `rawLine` in the state `run`. -/
def ReachesLine (env : Environment) (fuel : ℕ) (w : World) (scriptText : Text) (script : Script)
    (rawLine : Text) (run : Run) : Prop :=
  ∃ parsed, parseScript env fuel (seeded env w) scriptText = some (true, parsed) ∧
    ReachesFrom env (env.runs32BitCode w.target) parsed (startRun (seeded env w) parsed) script
      rawLine run

theorem prepareLines_along (env : Environment) (line : Line) (script : Script)
    (labels : List Label) (asmLines : List Text) (s : Run) :
    Along (LineStep env line) (prepareLines env script labels asmLines) s := by
  unfold prepareLines
  refine Along.read ?_
  dsimp only
  refine Along.updateThen (LineStep.keeps rfl rfl rfl) ?_
  split
  · exact fail_along _
  · split
    · exact fail_along _
    · exact Along.updateThen (LineStep.keeps rfl rfl rfl) (Along.ret _)

theorem emitLines_append (env : Environment) (script : Script) (first second : List Text) (s : Run) :
    emitLines env script (first ++ second) s =
      match emitLines env script first s with
      | .ok _ s' => emitLines env script second s'
      | .error e s' => .error e s' := by
  induction first generalizing s with
  | nil => rfl
  | cons line rest ih =>
    rw [List.cons_append, emitLines, emitLines, bind_apply, bind_apply]
    cases emitLine env script line s with
    | error e s' => rfl
    | ok a s' => exact ih s'

/-- What each reached line preserves holds when the loop ends. -/
theorem emitLines_induct {env : Environment} (script : Script) {P : Run → Prop}
    (lines : List Text) {s : Run} (hs : P s)
    (hline : ∀ before rawLine after run, lines = before ++ rawLine :: after →
      emitLines env script before s = .ok ⟨⟩ run → P run →
        P (finalState (emitLine env script rawLine run))) :
    P (finalState (emitLines env script lines s)) := by
  have hrest : ∀ rest before run, lines = before ++ rest →
      emitLines env script before s = .ok ⟨⟩ run → P run →
        P (finalState (emitLines env script rest run)) := by
    intro rest
    induction rest with
    | nil => exact fun _ _ _ _ hrun ↦ hrun
    | cons rawLine rest ih =>
      intro before run hsplit hreach hrun
      have hnext := hline before rawLine rest run hsplit hreach hrun
      rw [emitLines, bind_apply]
      cases hresult : emitLine env script rawLine run with
      | error e s' =>
        rw [hresult] at hnext
        exact hnext
      | ok a s' =>
        rw [hresult] at hnext
        refine ih (before ++ [rawLine]) s' (by simp [hsplit]) ?_ hnext
        rw [emitLines_append, hreach]
        dsimp only
        rw [emitLines, bind_apply, hresult]
        rfl
  exact hrest lines [] s rfl rfl hs

/-- Emission gets to a line from the end of the allocation phase by steps of lines. -/
theorem ReachesFrom.along {env : Environment} {is32 : Bool} {parsed : Parsed} {start : Run}
    {script : Script} {rawLine : Text} {run : Run}
    (h : ReachesFrom env is32 parsed start script rawLine run) :
    ∃ allocated, allocateAll env parsed.labels parsed.defines [] parsed.allocs start =
        .ok script.allocs allocated ∧
      Relation.ReflTransGen (fun s s' ↦ ∃ line, LineStep env line s s') allocated run := by
  obtain ⟨allocs, allocated, lines, prepared, before, after, halloc, hscript, hprepare, -, hreach⟩ := h
  have hprepared : Along (fun s s' ↦ ∃ line, LineStep env line s s')
      (prepareLines env script parsed.labels parsed.asmLines) allocated :=
    (prepareLines_along _ _ script parsed.labels parsed.asmLines allocated).mono
      fun _ _ hstep ↦ ⟨Line.ds [], hstep⟩
  unfold Along at hprepared
  rw [hprepare] at hprepared
  have hemitted := emitLines_induct script before
    (P := Relation.ReflTransGen (fun s s' ↦ ∃ line, LineStep env line s s') allocated) hprepared
    fun _ rawLine _ run _ _ hrun ↦ hrun.trans
      ((emitLine_along rawLine run).mono fun _ _ hstep ↦ ⟨_, hstep⟩)
  rw [show finalState (EStateM.Result.ok lines prepared : EStateM.Result Failure Run _) = prepared
    from rfl, hreach] at hemitted
  rw [hscript]
  exact ⟨allocated, halloc, hemitted⟩

/-- The run that an execution leaves: with its symbols registered when no phase failed. -/
def Settled (parsed : Parsed) (P : Run → Prop) : EStateM.Result Failure Run PUnit → Prop
  | .error _ run => P run
  | .ok _ run => ∃ script emitted, P emitted ∧
      run = registerSymbols script parsed.registeredSymbols emitted

/-- What allocations, reached lines and code run in the target preserve holds at the end, up to the
registration of the symbols. -/
theorem executeParsed_induct {env : Environment} {is32 : Bool} {parsed : Parsed} {start : Run}
    {P : Run → Prop} (hstart : P start)
    (halloc : ∀ s s', AllocStep env s s' → P s → P s')
    (hline : ∀ script rawLine run, ReachesFrom env is32 parsed start script rawLine run →
      P run → P (finalState (emitLine env script rawLine run)))
    (hquiet : ∀ s s', LineStep env (.ds []) s s' → P s → P s') :
    Settled parsed P (executeParsed env is32 parsed start) := by
  have hallocated := (allocateAll_along parsed.labels parsed.defines parsed.allocs [] start).preserves
    halloc hstart
  unfold executeParsed
  rw [bind_apply]
  cases hallocs : allocateAll env parsed.labels parsed.defines [] parsed.allocs start with
  | error e s =>
    rw [hallocs] at hallocated
    exact hallocated
  | ok allocs allocated =>
    rw [hallocs] at hallocated
    dsimp only
    have hprepared := (prepareLines_along _ _ ⟨is32, allocs, parsed.defines⟩ parsed.labels
      parsed.asmLines allocated).preserves hquiet hallocated
    rw [bind_apply]
    cases hlines : prepareLines env ⟨is32, allocs, parsed.defines⟩ parsed.labels parsed.asmLines
        allocated with
    | error e s =>
      rw [hlines] at hprepared
      exact hprepared
    | ok lines prepared =>
      rw [hlines] at hprepared
      change P prepared at hprepared
      have hreached : ∀ before rawLine after run, lines = before ++ rawLine :: after →
          emitLines env ⟨is32, allocs, parsed.defines⟩ before prepared = .ok ⟨⟩ run → P run →
            P (finalState (emitLine env ⟨is32, allocs, parsed.defines⟩ rawLine run)) :=
        fun before rawLine after run hsplit hreach hrun ↦
          hline _ rawLine run ⟨allocs, allocated, lines, prepared, before, after, hallocs, rfl,
            hlines, hsplit, hreach⟩ hrun
      have hemitted := emitLines_induct _ _ hprepared hreached
      dsimp only
      rw [bind_apply]
      cases hemit : emitLines env ⟨is32, allocs, parsed.defines⟩ lines prepared with
      | error e s =>
        rw [hemit] at hemitted
        exact hemitted
      | ok a emitted =>
        rw [hemit] at hemitted
        change P emitted at hemitted
        have hthreads := (createThreads_along env ⟨is32, allocs, parsed.defines⟩ (.ds [])
          emitted.deferredThreads emitted).preserves hquiet hemitted
        change Settled parsed P ((createThreads env _ emitted.deferredThreads >>= fun _ ↦ _) emitted)
        rw [bind_apply]
        cases hcreate : createThreads env ⟨is32, allocs, parsed.defines⟩ emitted.deferredThreads
            emitted with
        | error e s =>
          rw [hcreate] at hthreads
          exact hthreads
        | ok a created =>
          rw [hcreate] at hthreads
          exact ⟨_, created, hthreads, rfl⟩

/-! ### Executions that end without an error -/

/-- Registering symbols changes no block. -/
theorem registerSymbols_blocks (script : Script) (symbols : List Text) (run : Run) :
    (registerSymbols script symbols run).target = run.target ∧
      (registerSymbols script symbols run).registry.knownAllocations =
        run.registry.knownAllocations ∧
      (registerSymbols script symbols run).disableInfo.allocs = run.disableInfo.allocs ∧
      (registerSymbols script symbols run).disableInfo.originals = run.disableInfo.originals := by
  induction symbols generalizing run with
  | nil => exact ⟨rfl, rfl, rfl, rfl⟩
  | cons sym rest ih =>
    obtain ⟨htarget, hknown, hallocs, horiginals⟩ := ih (registerSymbol script sym run)
    rw [registerSymbols, List.foldl_cons, ← registerSymbols, htarget, hknown, hallocs, horiginals]
    unfold registerSymbol
    dsimp only
    split_ifs <;> exact ⟨rfl, rfl, rfl, rfl⟩

/-- The phases of an execution that gets to its end. -/
theorem executeParsed_ok {env : Environment} {is32 : Bool} {parsed : Parsed} {start run : Run}
    (h : executeParsed env is32 parsed start = .ok ⟨⟩ run) :
    ∃ script lines allocated prepared emitted created,
      allocateAll env parsed.labels parsed.defines [] parsed.allocs start =
          .ok script.allocs allocated ∧
        script = ⟨is32, script.allocs, parsed.defines⟩ ∧
        prepareLines env script parsed.labels parsed.asmLines allocated = .ok lines prepared ∧
        emitLines env script lines prepared = .ok ⟨⟩ emitted ∧
        createThreads env script emitted.deferredThreads emitted = .ok ⟨⟩ created ∧
        run = registerSymbols script parsed.registeredSymbols created := by
  unfold executeParsed at h
  obtain ⟨allocs, allocated, halloc, h⟩ := bind_eq_ok h
  obtain ⟨lines, prepared, hprepare, h⟩ := bind_eq_ok h
  obtain ⟨_, emitted, hemit, h⟩ := bind_eq_ok h
  obtain ⟨current, _, hget, h⟩ := bind_eq_ok h
  cases hget
  obtain ⟨_, created, hcreate, h⟩ := bind_eq_ok h
  cases h
  exact ⟨⟨is32, allocs, parsed.defines⟩, lines, allocated, prepared, emitted, created, halloc, rfl,
    hprepare, hemit, hcreate, rfl⟩

end Cecore.AutoAsm
