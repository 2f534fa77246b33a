import Cecore.AutoAsm.Accounts
import Cecore.AutoAsm.Session
import Cecore.AutoAsm.Surroundings

/-!
# Enabling and disabling a script

Each patch records the bytes it covers before it writes, so the recorded originals are an undo
journal of the target's memory (`Recoverable`), and `disable` replays it. What `disable` frees are
the entries that `DEALLOC` left in the `DisableInfo`. A `DEALLOC` drops every entry of its name but
frees only the block known under it, so two blocks under one name leave one that nobody frees.
-/

set_option autoImplicit false
set_option relaxedAutoImplicit false

namespace Cecore.AutoAsm

open Platform Platform.Target Emit Library.Effects Library.Journal

/-! ### The journal of a run -/

/-- Going back through the originals of the run brings `byte` back to `x`, unless the address was
given up since `before`. -/
def Recoverable (before : Target) (x : ℕ) (byte : UInt8) (run : Run) : Prop :=
  ∃ added, run.target.events = before.events ++ added ∧
    (GivenUp added x ∨ (run.target.memory x).isSome ∧
      Recovers run.disableInfo.originals x (run.target.memory x) (some byte))

section Steps

variable {env : Environment} {before : Target} {x : ℕ} {byte : UInt8} {s s' : Run}

/-- A change that leaves the byte and the originals as they are. -/
theorem Recoverable.keep (h : Recoverable before x byte s) (added : List Event)
    (hevents : s'.target.events = s.target.events ++ added)
    (hmemory : (s.target.memory x).isSome → s'.target.memory x = s.target.memory x)
    (horiginals : s'.disableInfo.originals = s.disableInfo.originals) :
    Recoverable before x byte s' := by
  obtain ⟨old, hold, hcase⟩ := h
  refine ⟨old ++ added, by rw [hevents, hold, List.append_assoc], ?_⟩
  rcases hcase with hgone | ⟨hmapped, hrecovers⟩
  · exact Or.inl (hgone.append_left added)
  · refine Or.inr ?_
    rw [hmemory hmapped, horiginals]
    exact ⟨hmapped, hrecovers⟩

/-- A block freed: the address is given up, or the byte stays. -/
theorem Recoverable.free (h : Recoverable before x byte s) (address size : ℕ)
    (htarget : s'.target = (s.target.free env.kernel address size).2)
    (horiginals : s'.disableInfo.originals = s.disableInfo.originals) :
    Recoverable before x byte s' := by
  rcases free_eq s.target env.kernel address size with
    ⟨message, hcall⟩ | ⟨after, hcall, hevents, hmemory⟩
  · rw [hcall] at htarget
    exact h.keep _ (by rw [htarget]) (fun _ ↦ by rw [htarget])
      horiginals
  · rw [hcall] at htarget
    by_cases hx : InBlock address size x
    · obtain ⟨old, hold, -⟩ := h
      refine ⟨old ++ [.free address size true], ?_, Or.inl ⟨address, size, by simp, hx⟩⟩
      rw [htarget, hevents, hold, List.append_assoc]
    · refine h.keep _ (by rw [htarget, hevents]) (fun _ ↦ ?_)
        horiginals
      rw [htarget, hmemory, if_neg hx]

/-- The bytes a write transfers lie in the range it was given. -/
theorem memory_write (t : Target) (address : ℕ) (bytes : List UInt8) :
    (t.write address bytes).2.memory x = t.memory x ∨
      address ≤ x ∧ x < address + bytes.length := by
  by_cases hx : address ≤ x ∧ x < address + bytes.length
  · exact Or.inr hx
  · refine Or.inl (memory_poke_of_not_covered fun hcovered ↦ hx ⟨hcovered.1, ?_⟩)
    have hle := List.length_take_le' (t.writableCount address bytes.length) bytes
    omega

theorem Recoverable.lineStep (hquiet : env.Quiet) {line : Line} (hstep : LineStep env line s s')
    (h : Recoverable before x byte s) : Recoverable before x byte s' := by
  cases hstep with
  | keeps htarget hregistry hinfo =>
    exact h.keep [] (by rw [htarget]; simp) (fun _ ↦ by rw [htarget]) (by rw [hinfo])
  | protects address size =>
    exact h.keep _ rfl (fun _ ↦ rfl) rfl
  | records original hread =>
    obtain ⟨old, hold, hcase⟩ := h
    refine ⟨old, hold, hcase.imp id fun ⟨hmapped, hrecovers⟩ ↦ ⟨hmapped, ?_⟩⟩
    exact hrecovers.record original (hread x)
  | writes address bytes hrecorded =>
    obtain ⟨old, hold, hcase⟩ := h
    refine ⟨old ++ [.write address (bytes.take (s.target.writableCount address
      bytes.length)).length], ?_, ?_⟩
    · change (s.target.events ++ [_]) = _
      rw [hold, List.append_assoc]
    · refine hcase.imp (fun hgone ↦ hgone.append_left _) fun ⟨hmapped, hrecovers⟩ ↦ ⟨?_, ?_⟩
      · change ((poke _ _ _).memory x).isSome
        rw [isSome_memory_poke]
        exact hmapped
      · refine hrecovers.write ((memory_write s.target address bytes).imp id fun hcovered ↦ ?_)
        obtain ⟨original, hmem, haddress, hlength⟩ := hrecorded
        refine ⟨original, hmem, ?_⟩
        rw [Record.isSome_at, haddress, hlength]
        exact hcovered
  | unregisters name => exact h.keep [] (by simp [unregister]) (fun _ ↦ rfl) rfl
  | frees name entry after hname hknown hfree =>
    exact h.free entry.address entry.size (by rw [hfree]; rfl) rfl
  | refuses name entry message after hname hknown hfree =>
    exact h.free entry.address entry.size (by rw [hfree]) rfl
  | foreign t hruns =>
    refine h.keep _ rfl (fun hmapped ↦ ?_) rfl
    obtain ⟨present, hpresent⟩ := Option.isSome_iff_exists.mp hmapped
    rw [hpresent]
    exact hquiet s.target t hruns x present hpresent

/-- After the allocation phase nothing was patched yet. -/
theorem Allocated.recoverable {start : Run} {done : List Alloc} (h : Allocated start done s)
    (horiginals : start.disableInfo.originals = []) (hbyte : start.target.memory x = some byte) :
    Recoverable start.target x byte s := by
  refine ⟨_, h.events, Or.inr ?_⟩
  rw [h.memory_eq hbyte, h.info]
  dsimp only
  rw [horiginals]
  exact ⟨rfl, rfl⟩

end Steps

/-! ### Going back -/

/-- Writing an original reaches every mapped address it covers. -/
def Restorable (t : Target) (originals : List OriginalBytes) : Prop :=
  ∀ original ∈ originals, ∀ x, (original.at x).isSome → (t.memory x).isSome →
    ∀ y, original.address ≤ y → y ≤ x → t.writable y = true

section Back

variable {env : Environment} {t : Target} {x : ℕ}

/-- Every address up to `x` is writable, so a write from below gets to `x`. -/
theorem lt_writableCount {address count : ℕ} (hle : address ≤ x) (hlt : x < address + count)
    (h : ∀ y, address ≤ y → y ≤ x → t.writable y = true) :
    x < address + t.writableCount address count := by
  induction count generalizing address with
  | zero => omega
  | succ count ih =>
    rw [writableCount, if_pos (h address le_rfl hle)]
    by_cases hx : address = x
    · omega
    · have hrest : x < address + 1 + t.writableCount (address + 1) count :=
        ih (by omega) (by omega) fun y hy hyx ↦ h y (by omega) hyx
      omega

theorem writable_restoreOriginals (originals : List OriginalBytes) (y : ℕ) :
    (restoreOriginals originals t).writable y = t.writable y := by
  induction originals with
  | nil => rfl
  | cons original rest ih =>
    rw [← ih]
    exact writable_poke _ y

/-- Restoring calls nothing but `write`, and maps and unmaps nothing. -/
theorem events_restoreOriginals (originals : List OriginalBytes) :
    ∃ added, (restoreOriginals originals t).events = t.events ++ added ∧
      ∀ event ∈ added, event.allocated = none ∧ event.freed = none := by
  induction originals with
  | nil => exact ⟨[], by simp [restoreOriginals], by simp⟩
  | cons original rest ih =>
    obtain ⟨added, hadded, hquiet⟩ := ih
    refine ⟨added ++ [.write original.address (original.cells.take
      ((restoreOriginals rest t).writableCount original.address original.cells.length)).length],
      ?_, fun event hevent ↦ ?_⟩
    · change (restoreOriginals rest t).events ++ [.write original.address (original.cells.take
        ((restoreOriginals rest t).writableCount original.address original.cells.length)).length] = _
      rw [hadded, List.append_assoc]
    · rcases List.mem_append.mp hevent with hold | hnew
      · exact hquiet event hold
      · rw [List.mem_singleton.mp hnew]
        exact ⟨rfl, rfl⟩

theorem isSome_memory_restoreOriginals (originals : List OriginalBytes) :
    ((restoreOriginals originals t).memory x).isSome = (t.memory x).isSome := by
  induction originals with
  | nil => rfl
  | cons original rest ih =>
    rw [← ih]
    exact isSome_memory_poke _ x

/-- Where the writes get through, restoring replays the journal. -/
theorem memory_restoreOriginals {originals : List OriginalBytes} {byte : UInt8}
    (hrestorable : Restorable t originals) (hmapped : (t.memory x).isSome)
    (hrecovers : Recovers originals x (t.memory x) (some byte)) :
    (restoreOriginals originals t).memory x = some byte := by
  refine hrecovers.replay
   
    fun first original last hsplit ↦ ?_
  change ((restoreOriginals last t).poke original.address (original.cells.take
    ((restoreOriginals last t).writableCount original.address original.cells.length))).memory x =
      (original.at x).or ((restoreOriginals last t).memory x)
  rw [memory_poke, isSome_memory_restoreOriginals, if_pos hmapped]
  cases hat : original.at x with
  | none =>
    have hnot : ¬(Record.at ⟨original.address, original.cells.take
        ((restoreOriginals last t).writableCount original.address original.cells.length)⟩ x).isSome := by
      rw [Record.isSome_at]
      have hout : ¬(original.at x).isSome := by simp [hat]
      rw [Record.isSome_at] at hout
      have hle := List.length_take_le' ((restoreOriginals last t).writableCount original.address
        original.cells.length) original.cells
      dsimp only
      omega
    rw [Option.not_isSome_iff_eq_none.mp hnot]
  | some cell =>
    have hsome : (original.at x).isSome := by simp [hat]
    have hcovered := (Record.isSome_at original x).mp hsome
    have hreach := lt_writableCount (t := restoreOriginals last t) hcovered.1 hcovered.2
      fun y hy hyx ↦ by
        rw [writable_restoreOriginals]
        exact hrestorable original (by simp [hsplit]) x hsome hmapped y hy hyx
    have hcell : Record.at ⟨original.address, original.cells.take
        ((restoreOriginals last t).writableCount original.address original.cells.length)⟩ x =
          some cell := by
      unfold Record.at at hat ⊢
      dsimp only
      rw [if_pos hcovered.1] at hat ⊢
      rw [List.getElem?_take_of_lt (by omega), hat]
    rw [hcell]

/-- Each entry is freed by one call. -/
theorem events_freeAllocs (allocs : List AllocEntry) (w : World) :
    ∃ added, (freeAllocs env allocs w).target.events = w.target.events ++ added ∧
      (∀ event ∈ added, event.allocated = none) ∧
      ∀ address, freeCount added address = allocs.countP fun a ↦ a.address = address := by
  induction allocs generalizing w with
  | nil => exact ⟨[], by simp [freeAllocs], by simp, by simp [freeCount]⟩
  | cons a rest ih =>
    obtain ⟨added, hadded, hnone, hcount⟩ := ih (freeAlloc env a w)
    have hfree : ∃ accepted, (freeAlloc env a w).target.events =
        w.target.events ++ [.free a.address a.size accepted] := by
      unfold freeAlloc
      rcases free_eq w.target env.kernel a.address a.size with
        ⟨message, hcall⟩ | ⟨after, hcall, hevents, -⟩
      · exact ⟨false, by rw [hcall]⟩
      · exact ⟨true, by rw [hcall, hevents]⟩
    obtain ⟨accepted, hfree⟩ := hfree
    refine ⟨.free a.address a.size accepted :: added, ?_, ?_, fun address ↦ ?_⟩
    · change (freeAllocs env rest (freeAlloc env a w)).target.events = _
      rw [hadded, hfree, List.append_assoc]
      rfl
    · intro event hevent
      rcases List.mem_cons.mp hevent with hnew | hold
      · rw [hnew]
        rfl
      · exact hnone event hold
    · have hrest := hcount address
      unfold freeCount at hrest ⊢
      rw [List.countP_cons, List.countP_cons, hrest]
      simp [Event.freed]

/-- Undoing brings the byte back, unless its address is given up. -/
theorem Recoverable.undo {before : Target} {byte : UInt8} {run : Run} {registry : Registry}
    (h : Recoverable before x byte run)
    (hrestorable : Restorable run.target run.disableInfo.originals) :
    ∃ added, (undo env run.disableInfo ⟨run.target, registry⟩).target.events =
        before.events ++ added ∧
      (GivenUp added x ∨
        (AutoAsm.undo env run.disableInfo ⟨run.target, registry⟩).target.memory x = some byte) := by
  have hfree : ∀ (allocs : List AllocEntry) (w : World),
      (∃ added, w.target.events = before.events ++ added ∧
        (GivenUp added x ∨ w.target.memory x = some byte)) →
      ∃ added, (freeAllocs env allocs w).target.events = before.events ++ added ∧
        (GivenUp added x ∨ (freeAllocs env allocs w).target.memory x = some byte) := by
    intro allocs
    induction allocs with
    | nil => exact fun w hw ↦ hw
    | cons a rest ih =>
      rintro w ⟨old, hold, hcase⟩
      refine ih (freeAlloc env a w) ?_
      unfold freeAlloc
      rcases free_eq w.target env.kernel a.address a.size with
        ⟨message, hcall⟩ | ⟨after, hcall, hevents, hmemory⟩
      · rw [hcall]
        refine ⟨old ++ [.free a.address a.size false], ?_,
          hcase.imp (fun hgone ↦ hgone.append_left _) id⟩
        dsimp only
        rw [hold, List.append_assoc]
      · rw [hcall]
        refine ⟨old ++ [.free a.address a.size true], ?_, ?_⟩
        · dsimp only
          rw [hevents, hold, List.append_assoc]
        · by_cases hx : InBlock a.address a.size x
          · exact Or.inl ⟨a.address, a.size, by simp, hx⟩
          · refine hcase.imp (fun hgone ↦ hgone.append_left _) fun hbyte ↦ ?_
            dsimp only
            rw [hmemory, if_neg hx, hbyte]
  refine hfree run.disableInfo.allocs _ ?_
  obtain ⟨old, hold, hcase⟩ := h
  obtain ⟨added, hadded, -⟩ := events_restoreOriginals (t := run.target) run.disableInfo.originals
  refine ⟨old ++ added, ?_, ?_⟩
  · dsimp only
    rw [hadded, hold, List.append_assoc]
  · exact hcase.imp (fun hgone ↦ hgone.append_left _) fun ⟨hmapped, hrecovers⟩ ↦
      memory_restoreOriginals hrestorable hmapped hrecovers

end Back

/-! ### Executions that succeed -/

/-- An execution allocates the blocks of `script` and goes on with the lines `lines`. -/
def Performs (env : Environment) (fuel : ℕ) (w : World) (scriptText : Text) (script : Script)
    (lines : List Text) : Prop :=
  ∃ parsed allocated prepared,
    parseScript env fuel (seeded env w) scriptText = some (true, parsed) ∧
      allocateAll env parsed.labels parsed.defines [] parsed.allocs
        (startRun (seeded env w) parsed) = .ok script.allocs allocated ∧
      script = ⟨env.runs32BitCode w.target, script.allocs, parsed.defines⟩ ∧
      prepareLines env script parsed.labels parsed.asmLines allocated = .ok lines prepared

theorem Performs.unique {env : Environment} {fuel : ℕ} {w : World} {scriptText : Text}
    {script other : Script} {lines otherLines : List Text}
    (h : Performs env fuel w scriptText script lines)
    (hother : Performs env fuel w scriptText other otherLines) :
    other = script ∧ otherLines = lines := by
  obtain ⟨parsed, allocated, prepared, hparse, halloc, hscript, hprepare⟩ := h
  obtain ⟨parsed', allocated', prepared', hparse', halloc', hscript', hprepare'⟩ := hother
  rw [hparse] at hparse'
  obtain rfl : parsed = parsed' := (Prod.mk.inj (Option.some.inj hparse')).2
  rw [halloc] at halloc'
  obtain ⟨hallocs, rfl⟩ := EStateM.Result.ok.inj halloc'
  obtain rfl : other = script := by rw [hscript, hscript', hallocs]
  rw [hprepare] at hprepare'
  exact ⟨rfl, (EStateM.Result.ok.inj hprepare').1.symm⟩

/-- What an execution that succeeds did: its blocks, its lines and the run they led to. -/
theorem execute_success {env : Environment} {fuel : ℕ} {w w' : World} {scriptText : Text}
    {result : AutoAsmResult} (hcall : execute env fuel w scriptText = some (w', result))
    (hsuccess : result.success = true) :
    ∃ script lines parsed allocated prepared emitted created,
      Performs env fuel w scriptText script lines ∧
        Allocated (startRun (seeded env w) parsed) script.allocs allocated ∧
        prepareLines env script parsed.labels parsed.asmLines allocated = .ok lines prepared ∧
        emitLines env script lines prepared = .ok ⟨⟩ emitted ∧
        createThreads env script emitted.deferredThreads emitted = .ok ⟨⟩ created ∧
        w' = ⟨(registerSymbols script parsed.registeredSymbols created).target,
          (registerSymbols script parsed.registeredSymbols created).registry⟩ ∧
        result.disableInfo =
          (registerSymbols script parsed.registeredSymbols created).disableInfo := by
  unfold execute at hcall
  dsimp only at hcall
  split at hcall
  · cases hcall
  · simp only [Option.some.injEq, Prod.mk.injEq] at hcall
    rw [← hcall.2] at hsuccess
    cases hsuccess
  · next parsed hparsed =>
    rw [Option.some.injEq] at hcall
    cases houtcome : executeParsed env (env.runs32BitCode (seeded env w).target) parsed
        (startRun (seeded env w) parsed) with
    | error failure run =>
      rw [houtcome] at hcall
      unfold finish at hcall
      dsimp only at hcall
      split_ifs at hcall <;>
      · rw [← (Prod.mk.inj hcall).2] at hsuccess
        cases hsuccess
    | ok _ run =>
      rw [houtcome] at hcall
      obtain ⟨hw, hresult⟩ := Prod.mk.inj hcall
      obtain ⟨script, lines, allocated, prepared, emitted, created, halloc, hscript, hprepare, hemit,
        hcreate, hrun⟩ := executeParsed_ok houtcome
      refine ⟨script, lines, parsed, allocated, prepared, emitted, created, ?_, ?_, hprepare, hemit,
        hcreate, by rw [← hw, hrun], by rw [← hresult, hrun]⟩
      · exact ⟨parsed, allocated, prepared, hparsed, halloc, hscript, hprepare⟩
      · rcases allocateAll_allocated
          parsed.allocs (Allocated.refl _) with
          ⟨allocs, s', hok, hallocated, -⟩ | ⟨error, -, -, s', -, herror, -⟩
        · rw [halloc] at hok
          obtain ⟨hallocs, rfl⟩ := EStateM.Result.ok.inj hok
          rw [hallocs]
          exact hallocated
        · rw [halloc] at herror
          cases herror

/-! ### The inverse -/

/-- `after` is what `before` was, except for blocks given up, and each block allocated in between
was freed once. -/
structure Undoes (before after : World) : Prop where
  restored : ∀ x byte, before.target.memory x = some byte →
    ¬GivenUp (since before.target after.target) x → after.target.memory x = some byte
  freedOnce : ∀ event ∈ since before.target after.target, ∀ block, event.allocated = some block →
    freeCount (since before.target after.target) block.1 = 1

/-- For each block of the script, the block known under exactly one of the deallocated names is this
one, if its own name is among them, and under none of them if not. -/
def DeallocatesEachOnce (env : Environment) (fuel : ℕ) (w : World) (scriptText : Text) : Prop :=
  ∀ script lines, Performs env fuel w scriptText script lines → ∀ a ∈ script.allocs,
    ((deallocated lines).filter fun name ↦
      (trackAll w.registry.knownAllocations script.allocs name).map AllocEntry.address =
        some a.address).card = if a.name ∈ deallocated lines then 1 else 0

/-- Of entries at distinct addresses one is at the address of `a`, if it is kept. -/
theorem countP_entry {allocs : List Alloc} (hdistinct : (allocs.map Alloc.address).Nodup)
    {a : Alloc} (ha : a ∈ allocs) (keep : AllocEntry → Bool) :
    ((allocs.map Alloc.entry).filter keep).countP (fun entry ↦ entry.address = a.address) =
      if keep a.entry then 1 else 0 := by
  rw [List.countP_filter]
  induction allocs with
  | nil => cases ha
  | cons b rest ih =>
    rw [List.map_cons, List.nodup_cons] at hdistinct
    rw [List.map_cons, List.countP_cons]
    rcases List.mem_cons.mp ha with rfl | hrest
    · have hnone : (rest.map Alloc.entry).countP
          (fun entry ↦ decide (entry.address = a.address) && keep entry) = 0 := by
        refine List.countP_eq_zero.mpr fun entry hentry hsame ↦ hdistinct.1 ?_
        obtain ⟨c, hc, rfl⟩ := List.mem_map.mp hentry
        simp only [Bool.and_eq_true, decide_eq_true_eq] at hsame
        rw [← hsame.1]
        exact List.mem_map_of_mem (f := Alloc.address) hc
      rw [hnone, Nat.zero_add]
      change (if (decide (a.address = a.address) && keep a.entry) = true then 1 else 0) = _
      rw [decide_eq_true rfl, Bool.true_and]
    · have hne : b.address ≠ a.address := fun hsame ↦
        hdistinct.1 (hsame ▸ List.mem_map_of_mem hrest)
      rw [ih hdistinct.2 hrest]
      simp [Alloc.entry, hne]

/-- The run that a successful execution ends in, against the one its allocation phase ended in. -/
theorem books_of_success {env : Environment} {script : Script} {lines : List Text} {parsed : Parsed}
    {start allocated prepared emitted created : Run}
    (hallocated : Allocated start script.allocs allocated)
    (hstart : start.disableInfo.allocs = [])
    (hprepare : prepareLines env script parsed.labels parsed.asmLines allocated =
      .ok lines prepared)
    (hemit : emitLines env script lines prepared = .ok ⟨⟩ emitted)
    (hcreate : createThreads env script emitted.deferredThreads emitted = .ok ⟨⟩ created) :
    Books (deallocated lines) allocated (registerSymbols script parsed.registeredSymbols created) ∧
      ∀ name ∈ deallocated lines,
        (registerSymbols script parsed.registeredSymbols created).registry.knownAllocations name =
          none := by
  have hknown : ∀ a ∈ allocated.disableInfo.allocs,
      (allocated.registry.knownAllocations a.name).isSome := by
    intro entry hentry
    rw [hallocated.info] at hentry
    dsimp only at hentry
    rw [hstart, List.nil_append] at hentry
    obtain ⟨a, ha, rfl⟩ := List.mem_map.mp hentry
    obtain ⟨b, -, -, hb⟩ := trackAll_of_mem
      (List.mem_map_of_mem (f := Alloc.name) ha)
    rw [hallocated.known]
    exact Option.isSome_iff_exists.mpr ⟨_, hb⟩
  have hstart : Books (deallocated lines) allocated allocated := Books.refl _ hknown
  have hprepared := (prepareLines_along env (.ds []) script parsed.labels
    parsed.asmLines allocated).preserves (fun _ _ hstep hs ↦ Books.lineStep rfl hstep hs) hstart
  rw [hprepare] at hprepared
  obtain ⟨hemitted, hfreed, -⟩ := Books.emitLines lines hprepared subset_rfl hemit
  have hthreads := createThreads_along env script (.ds [])
    emitted.deferredThreads emitted
  have hcreated := hthreads.preserves (fun _ _ hstep hs ↦ Books.lineStep rfl hstep hs) hemitted
  obtain ⟨htarget, hregistered, hallocs, -⟩ :=
    registerSymbols_blocks script parsed.registeredSymbols created
  rw [hcreate] at hcreated
  refine ⟨hcreated.keep [] hregistered hallocs ?_ (by simp), fun name hname ↦ ?_⟩
  · rw [htarget, List.append_nil]
    rfl
  · have hnone := hthreads.preserves (p := fun run ↦ run.registry.knownAllocations name = none)
      (fun _ _ hstep hs ↦ hstep.known_none hs) (hfreed name hname)
    rw [hcreate] at hnone
    rw [hregistered]
    exact hnone

/-- Disabling a script right after it was enabled undoes it exactly if its `DEALLOC` lines free each
of its blocks at most once and forget none of them. -/
theorem disable_undoes_iff (env : Environment) (hquiet : env.Quiet) (fuel : ℕ) (w w' : World)
    (scriptText : Text) (result : AutoAsmResult)
    (hcall : execute env fuel w scriptText = some (w', result)) (hsuccess : result.success = true)
    (hrestorable : Restorable w'.target result.disableInfo.originals) :
    Undoes w (disable env w' result.disableInfo).1 ↔ DeallocatesEachOnce env fuel w scriptText := by
  obtain ⟨script, lines, parsed, allocated, prepared, emitted, created, hperforms, hallocated,
    hprepare, hemit, hcreate, hw, hinfo⟩ := execute_success hcall hsuccess
  obtain ⟨hbooks, hfreed⟩ := books_of_success hallocated rfl hprepare hemit hcreate
  set run := registerSymbols script parsed.registeredSymbols created with hrun
  rw [hw, hinfo] at hrestorable ⊢
  have htarget : (disable env ⟨run.target, run.registry⟩ run.disableInfo).1.target =
      (undo env run.disableInfo ⟨run.target,
        (seeded env ⟨run.target, run.registry⟩).registry⟩).target := rfl
  -- the calls of the two together
  obtain ⟨lineEvents, hlineEvents, hlineAllocated, hlineFreed⟩ := hbooks.events
  obtain ⟨writeEvents, hwriteEvents, hwriteNone⟩ :=
    events_restoreOriginals (t := run.target) run.disableInfo.originals
  obtain ⟨freeEvents, hfreeEvents, hfreeAllocated, hfreeCount⟩ :=
    events_freeAllocs run.disableInfo.allocs
      ⟨restoreOriginals run.disableInfo.originals run.target,
        (seeded env ⟨run.target, run.registry⟩).registry⟩
  have hsince : since w.target (disable env ⟨run.target, run.registry⟩ run.disableInfo).1.target =
      script.allocs.map (fun a ↦ Event.allocate (some a.address) a.size) ++
        (lineEvents ++ (writeEvents ++ freeEvents)) := by
    refine since_eq ?_
    rw [htarget, undo, hfreeEvents]
    dsimp only
    rw [hwriteEvents, hlineEvents, hallocated.events]
    simp only [List.append_assoc]
    rfl
  have hcount : ∀ a ∈ script.allocs, freeCount (script.allocs.map
      (fun a ↦ Event.allocate (some a.address) a.size) ++
        (lineEvents ++ (writeEvents ++ freeEvents))) a.address =
      ((deallocated lines).filter fun name ↦
        (trackAll w.registry.knownAllocations script.allocs name).map AllocEntry.address =
          some a.address).card + if a.name ∈ deallocated lines then 0 else 1 := by
    intro a ha
    have hallocEvents : freeCount (script.allocs.map
        fun a ↦ Event.allocate (some a.address) a.size) a.address = 0 := by
      refine List.countP_eq_zero.mpr fun event hevent ↦ ?_
      obtain ⟨b, -, rfl⟩ := List.mem_map.mp hevent
      simp [Event.freed]
    have hwrites : freeCount writeEvents a.address = 0 :=
      List.countP_eq_zero.mpr fun event hevent ↦ by simp [(hwriteNone event hevent).2]
    have hnames : freedNames (deallocated lines) allocated.registry.knownAllocations run a.address =
        (deallocated lines).filter fun name ↦
          (trackAll w.registry.knownAllocations script.allocs name).map AllocEntry.address =
            some a.address := by
      refine Finset.filter_congr fun name hname ↦ ?_
      rw [hallocated.known]
      exact and_iff_left (hfreed name hname)
    have hkept : (run.registry.knownAllocations a.name).isSome ↔ a.name ∉ deallocated lines := by
      refine ⟨fun hsome hname ↦ ?_, fun hname ↦ ?_⟩
      · rw [hfreed a.name hname] at hsome
        cases hsome
      · obtain ⟨b, -, -, hb⟩ := trackAll_of_mem
         
          (List.mem_map_of_mem (f := Alloc.name) ha)
        rcases hbooks.known a.name with hsame | ⟨hin, -⟩
        · rw [hsame, hallocated.known, hb]
          rfl
        · exact absurd hin hname
    unfold freeCount at hallocEvents hwrites hfreeCount ⊢
    rw [List.countP_append, List.countP_append, List.countP_append, hallocEvents, hwrites,
      hfreeCount, ← freeCount, hlineFreed, hnames, hbooks.allocs, hallocated.info]
    dsimp only
    rw [show (startRun (seeded env w) parsed).disableInfo.allocs = [] from rfl, List.nil_append,
      countP_entry hallocated.distinct ha, zero_add, zero_add]
    congr 1
    exact if_congr hkept rfl rfl |>.trans (ite_not _ _ _)
  constructor
  · intro hundoes other otherLines hother a ha
    obtain ⟨rfl, rfl⟩ := hperforms.unique hother
    have honce := hundoes.freedOnce
    rw [hsince] at honce
    have hevent : Event.allocate (some a.address) a.size ∈ other.allocs.map
        (fun a ↦ Event.allocate (some a.address) a.size) ++
          (lineEvents ++ (writeEvents ++ freeEvents)) :=
      List.mem_append_left _ (List.mem_map.mpr ⟨a, ha, rfl⟩)
    have hone := honce _ hevent (a.address, a.size) rfl
    rw [hcount a ha] at hone
    split_ifs at hone ⊢ <;> omega
  · intro honce
    refine ⟨fun x byte hbyte hkept ↦ ?_, fun event hevent block hblock ↦ ?_⟩
    · have hrecoverable : Recoverable w.target x byte run := by
        have hstart := hallocated.recoverable (x := x) rfl hbyte
        have hprepared := (prepareLines_along env (.ds []) script parsed.labels
          parsed.asmLines allocated).preserves
            (fun _ _ hstep hs ↦ hs.lineStep hquiet hstep) hstart
        rw [hprepare] at hprepared
        have hemitted := emitLines_induct script lines hprepared
          fun _ rawLine _ run _ _ hs ↦ (emitLine_along rawLine run).preserves
            (fun _ _ hstep hs ↦ hs.lineStep hquiet hstep) hs
        rw [show finalState (EStateM.Result.ok lines prepared : EStateM.Result Failure Run _) =
          prepared from rfl, hemit] at hemitted
        have hcreated := (createThreads_along env script (.ds [])
          emitted.deferredThreads emitted).preserves
            (fun _ _ hstep hs ↦ hs.lineStep hquiet hstep) hemitted
        rw [hcreate] at hcreated
        obtain ⟨hregisteredTarget, -, -, horiginals⟩ :=
          registerSymbols_blocks script parsed.registeredSymbols created
        refine Recoverable.keep (s := created) hcreated [] ?_ (fun _ ↦ ?_) horiginals
        · rw [hregisteredTarget, List.append_nil]
        · rw [hregisteredTarget]
      obtain ⟨added, hadded, hcase⟩ := hrecoverable.undo
        hrestorable
      rw [htarget, since_eq hadded] at hkept
      rw [htarget]
      exact hcase.resolve_left hkept
    · rw [hsince] at hevent ⊢
      have hmem : event ∈ script.allocs.map fun a ↦ Event.allocate (some a.address) a.size := by
        rcases List.mem_append.mp hevent with hin | hrest
        · exact hin
        · have hnone : event.allocated = none := by
            rcases List.mem_append.mp hrest with hin | hrest
            · exact hlineAllocated event hin
            · rcases List.mem_append.mp hrest with hin | hin
              · exact (hwriteNone event hin).1
              · exact hfreeAllocated event hin
          rw [hnone] at hblock
          cases hblock
      obtain ⟨a, ha, rfl⟩ := List.mem_map.mp hmem
      cases hblock
      rw [hcount a ha, honce script lines hperforms a ha]
      split_ifs <;> rfl

/-- A script that patches two overlapping ranges and a block of its own. -/
theorem disable_undoes_iff_patches :
    ∃ w' result, execute plainEnvironment 10 ⟨onePage, {}⟩
        "alloc(m,64)\n1000:\ndb 90 91\n1001:\ndb CC\nm:\ndb 01".toList = some (w', result) ∧
      (Undoes ⟨onePage, {}⟩ (disable plainEnvironment w' result.disableInfo).1 ↔
        DeallocatesEachOnce plainEnvironment 10 ⟨onePage, {}⟩
          "alloc(m,64)\n1000:\ndb 90 91\n1001:\ndb CC\nm:\ndb 01".toList) := by
  have hrun : (execute plainEnvironment 10 ⟨onePage, {}⟩
      "alloc(m,64)\n1000:\ndb 90 91\n1001:\ndb CC\nm:\ndb 01".toList).map (fun out ↦
        (out.2.success, out.2.disableInfo.originals,
          [0x1000, 0x1001, 0x3000].map out.1.target.writable)) =
      some (true, [⟨0x1000, [0, 0]⟩, ⟨0x1001, [0x91]⟩, ⟨0x3000, [0]⟩], [true, true, true]) := by
    decide +kernel
  obtain ⟨⟨w', result⟩, hcall, hfacts⟩ := Option.map_eq_some_iff.mp hrun
  obtain ⟨hsuccess, hfacts⟩ := Prod.mk.inj hfacts
  obtain ⟨horiginals, hwritable⟩ := Prod.mk.inj hfacts
  simp only [List.map_cons, List.map_nil, List.cons.injEq, and_true] at hwritable
  refine ⟨w', result, hcall, disable_undoes_iff plainEnvironment plainEnvironment_quiet 10
    ⟨onePage, {}⟩ w' _ result hcall hsuccess fun original horiginal x hx _ y hle hyx ↦ ?_⟩
  dsimp only at horiginals
  rw [horiginals] at horiginal
  rw [Record.isSome_at] at hx
  simp only [List.mem_cons, List.not_mem_nil, or_false] at horiginal
  rcases horiginal with rfl | rfl | rfl
  · have hy : y = 0x1000 ∨ y = 0x1001 := by
      simp only [List.length_cons, List.length_nil] at hx hle
      omega
    rcases hy with rfl | rfl
    · exact hwritable.1
    · exact hwritable.2.1
  · have hy : y = 0x1001 := by
      simp only [List.length_cons, List.length_nil] at hx hle
      omega
    rw [hy]
    exact hwritable.2.1
  · have hy : y = 0x3000 := by
      simp only [List.length_cons, List.length_nil] at hx hle
      omega
    rw [hy]
    exact hwritable.2.2

/-- Two blocks under one name: the first is never freed. -/
theorem disable_leaks_block :
    ∃ w' result, execute plainEnvironment 10 ⟨onePage, {}⟩
        "alloc(x,16)\nalloc(x,16)\ndealloc(x)".toList = some (w', result) ∧
      result.success = true ∧ Restorable w'.target result.disableInfo.originals ∧
      ¬Undoes ⟨onePage, {}⟩ (disable plainEnvironment w' result.disableInfo).1 := by
  have hrun : (execute plainEnvironment 10 ⟨onePage, {}⟩
      "alloc(x,16)\nalloc(x,16)\ndealloc(x)".toList).map (fun out ↦
        (out.2.success, out.2.disableInfo.originals,
          since onePage (disable plainEnvironment out.1 out.2.disableInfo).1.target)) =
      some (true, [], [.allocate (some 0x3000) 16, .allocate (some 0x5000) 16,
        .free 0x5000 16 true]) := by
    decide +kernel
  obtain ⟨⟨w', result⟩, hcall, hfacts⟩ := Option.map_eq_some_iff.mp hrun
  obtain ⟨hsuccess, hfacts⟩ := Prod.mk.inj hfacts
  obtain ⟨horiginals, hsince⟩ := Prod.mk.inj hfacts
  refine ⟨w', result, hcall, hsuccess, ?_, fun hundoes ↦ ?_⟩
  · dsimp only at horiginals
    rw [horiginals]
    exact fun original horiginal ↦ absurd horiginal List.not_mem_nil
  · have honce := hundoes.freedOnce
    dsimp only at hsince honce
    rw [hsince] at honce
    have hone := honce (.allocate (some 0x3000) 16) (by simp) (0x3000, 16) rfl
    revert hone
    decide

end Cecore.AutoAsm
