import Cecore.AutoAsm.Phases
import Cecore.Platform.Blocks
import Mathlib.Data.Finset.Card

/-!
# What an execution did to its blocks

The allocation phase tracks its blocks in turn (`Allocated`). A loop that ends without an error
freed, for each name its `DEALLOC` lines list, the block known under that name, once, and kept the
entries of the other names (`Books`).
-/

set_option autoImplicit false
set_option relaxedAutoImplicit false

namespace Cecore.AutoAsm

open Platform Platform.Target Emit Library.Effects

/-! ### Allocation -/

/-- The entry that an allocated block gets. -/
def Alloc.entry (a : Alloc) : AllocEntry := ⟨a.name, a.address, a.size⟩

/-- `knownAllocations_` after the blocks were tracked in turn. -/
def trackAll (known : Text → Option AllocEntry) (allocs : List Alloc) : Text → Option AllocEntry :=
  allocs.foldl (fun known a ↦ Function.update known a.name (some a.entry)) known

theorem trackAll_concat (known : Text → Option AllocEntry) (allocs : List Alloc) (a : Alloc) :
    trackAll known (allocs ++ [a]) =
      Function.update (trackAll known allocs) a.name (some a.entry) := by
  simp [trackAll]

/-- A name that some block has is known as one of the blocks. -/
theorem trackAll_of_mem {known : Text → Option AllocEntry} {allocs : List Alloc} {name : Text}
    (h : name ∈ allocs.map Alloc.name) :
    ∃ a ∈ allocs, a.name = name ∧ trackAll known allocs name = some a.entry := by
  induction allocs using List.reverseRecOn with
  | nil => simp at h
  | append_singleton allocs a ih =>
    rw [trackAll_concat]
    by_cases hname : name = a.name
    · refine ⟨a, by simp, hname.symm, ?_⟩
      rw [hname, Function.update_self]
    · rw [List.map_append, List.mem_append, List.map_singleton, List.mem_singleton] at h
      obtain ⟨b, hb, hbName, hknown⟩ := ih (h.resolve_right hname)
      refine ⟨b, List.mem_append_left _ hb, hbName, ?_⟩
      rw [Function.update_of_ne hname, hknown]

theorem trackAll_of_not_mem {known : Text → Option AllocEntry} {allocs : List Alloc} {name : Text}
    (h : name ∉ allocs.map Alloc.name) : trackAll known allocs name = known name := by
  induction allocs using List.reverseRecOn with
  | nil => rfl
  | append_singleton allocs a ih =>
    rw [List.map_append, List.mem_append, List.map_singleton, List.mem_singleton, not_or] at h
    rw [trackAll_concat, Function.update_of_ne h.2, ih h.1]

/-- The run `run` went on from `start` by allocating the blocks of `done`. -/
structure Allocated (start : Run) (done : List Alloc) (run : Run) : Prop where
  known : run.registry.knownAllocations = trackAll start.registry.knownAllocations done
  globalSymbols : run.registry.globalSymbols = start.registry.globalSymbols
  info : run.disableInfo =
    { start.disableInfo with allocs := start.disableInfo.allocs ++ done.map Alloc.entry }
  events : run.target.events =
    start.target.events ++ done.map fun a ↦ Event.allocate (some a.address) a.size
  memory : ∀ x, run.target.memory x = if ∃ a ∈ done, InBlock a.address a.size x then some 0
    else start.target.memory x
  fresh : ∀ a ∈ done, 0 < pageAlign a.size ∧
    ∀ x, InBlock a.address a.size x → start.target.memory x = none
  distinct : (done.map Alloc.address).Nodup

theorem Allocated.refl (start : Run) : Allocated start [] start where
  known := rfl
  globalSymbols := rfl
  info := by simp
  events := by simp
  memory := by simp
  fresh := by simp
  distinct := List.nodup_nil

/-- Mapped bytes stay as they are. -/
theorem Allocated.memory_eq {start : Run} {done : List Alloc} {run : Run}
    (h : Allocated start done run) {x : ℕ} {byte : UInt8}
    (hbyte : start.target.memory x = some byte) : run.target.memory x = some byte := by
  rw [h.memory, if_neg, hbyte]
  rintro ⟨a, ha, hx⟩
  rw [(h.fresh a ha).2 x hx] at hbyte
  cases hbyte

theorem Allocated.next {env : Environment} {start : Run} {done : List Alloc} {run : Run}
    (h : Allocated start done run) (a : Alloc) {preferred address : ℕ} {after : Target}
    (hcall : run.target.allocate env.kernel a.size preferred = (.ok address, after))
    (log : List Text) :
    Allocated start (done ++ [{ a with preferred, address }])
      { trackAlloc a address { run with target := after } with log } := by
  obtain ⟨-, hsize, hfresh, hmemory⟩ := memory_allocate hcall
  have hnone : ∀ x, InBlock address a.size x → start.target.memory x = none ∧
      ¬∃ b ∈ done, InBlock b.address b.size x := by
    intro x hx
    have hmapped := hfresh x hx
    rw [h.memory] at hmapped
    split_ifs at hmapped with hdone
    exact ⟨hmapped, hdone⟩
  constructor
  · rw [trackAll_concat, ← h.known]
    rfl
  · exact h.globalSymbols
  · simp [trackAlloc, h.info, Alloc.entry]
  · have hevents : after.events = run.target.events ++ [.allocate (some address) a.size] := by
      unfold Target.allocate at hcall
      split at hcall
      · simp at hcall
      · simp only [Prod.mk.injEq, Except.ok.injEq] at hcall
        rw [← hcall.2, hcall.1]
    change after.events = _
    rw [hevents, h.events, List.map_append, List.append_assoc]
    rfl
  · intro x
    change after.memory x = _
    rw [hmemory, h.memory]
    by_cases hx : InBlock address a.size x
    · rw [if_pos hx, if_pos ⟨_, List.mem_append_right _ List.mem_cons_self, hx⟩]
    · rw [if_neg hx]
      refine if_congr ⟨?_, ?_⟩ rfl rfl
      · rintro ⟨b, hb, hbx⟩
        exact ⟨b, List.mem_append_left _ hb, hbx⟩
      · rintro ⟨b, hb, hbx⟩
        rcases List.mem_append.mp hb with hdone | hnew
        · exact ⟨b, hdone, hbx⟩
        · rw [List.mem_singleton.mp hnew] at hbx
          exact absurd hbx hx
  · intro b hb
    rcases List.mem_append.mp hb with hdone | hnew
    · exact h.fresh b hdone
    · rw [List.mem_singleton.mp hnew]
      exact ⟨hsize, fun x hx ↦ (hnone x hx).1⟩
  · rw [List.map_append, List.nodup_append]
    refine ⟨h.distinct, List.nodup_singleton _, fun p hp q hq hsame ↦ ?_⟩
    obtain ⟨b, hb, hbp⟩ := List.mem_map.mp hp
    have hq : q = address := List.mem_singleton.mp hq
    have hbAddress : b.address = address := by rw [hbp, hsame, hq]
    have hin : InBlock b.address b.size address :=
      ⟨hbAddress.le, by have hpos := (h.fresh b hb).1; omega⟩
    exact (hnone address ⟨le_rfl, by omega⟩).2 ⟨b, hb, hin⟩

/-- The allocation phase, whether it gets to its end or the kernel refuses a block. -/
theorem allocateAll_allocated {env : Environment} {labels : List Label} {defines : List Define}
    {start : Run} (rest : List Alloc) {done : List Alloc} {s : Run} (h : Allocated start done s) :
    (∃ allocs s', allocateAll env labels defines done rest s = .ok allocs s' ∧
        Allocated start allocs s' ∧ allocs.map Alloc.name = (done ++ rest).map Alloc.name) ∨
      ∃ error allocs mid s' size, allocateAll env labels defines done rest s =
        .error ⟨false, error⟩ s' ∧
        Allocated start allocs mid ∧ allocs.length < (done ++ rest).length ∧
        done.length ≤ allocs.length ∧ s'.registry = mid.registry ∧
        s'.disableInfo = mid.disableInfo ∧ s'.target.memory = mid.target.memory ∧
        s'.target.events = mid.target.events ++ [.allocate none size] := by
  induction rest generalizing done s with
  | nil => exact Or.inl ⟨done, s, rfl, h, by simp⟩
  | cons a rest ih =>
    obtain ⟨preferred, hcons⟩ := allocateAll_cons env labels defines done a rest s
    rw [hcons]
    rcases hcall : s.target.allocate env.kernel a.size preferred with ⟨allocated, after⟩
    cases allocated with
    | error message =>
      refine Or.inr ⟨_, done, s, _, a.size, rfl, h, by simp, le_rfl, rfl, rfl, ?_, ?_⟩ <;>
      · unfold Target.allocate at hcall
        split at hcall
        · rw [← (Prod.mk.inj hcall).2]
        · simp at hcall
    | ok address =>
      have hnext := h.next a hcall (s.log ++ ["Allocated ".toList ++ a.name ++ " at 0x".toList ++
        formatHex address])
      rcases ih hnext with ⟨allocs, s', hok, hallocated, hnames⟩ |
        ⟨error, allocs, mid, s', size, herror, hallocated, hlength, hle, hrest⟩
      · exact Or.inl ⟨allocs, s', hok, hallocated, by simpa using hnames⟩
      · refine Or.inr ⟨error, allocs, mid, s', size, herror, hallocated, by simpa using hlength, ?_,
          hrest⟩
        simp only [List.length_append, List.length_singleton] at hle
        omega

/-- The blocks behind a line that is reached are those that were parsed. -/
theorem ReachesFrom.length_allocs {env : Environment} {is32 : Bool} {parsed : Parsed}
    {start run : Run} {script : Script} {rawLine : Text}
    (h : ReachesFrom env is32 parsed start script rawLine run) :
    script.allocs.length = parsed.allocs.length := by
  obtain ⟨allocs, allocated, lines, prepared, before, after, halloc, rfl, -⟩ := h
  rcases allocateAll_allocated parsed.allocs (Allocated.refl start) with
    ⟨_, _, hok, -, hnames⟩ | ⟨_, _, _, _, _, herror, -⟩
  · rw [halloc] at hok
    rw [← (EStateM.Result.ok.inj hok).1] at hnames
    simpa using congrArg List.length hnames
  · rw [halloc] at herror
    cases herror

/-! ### Lines -/

/-- The names under which the block at `address` is known, among `names`, that `run` has forgotten.
-/
def freedNames (names : Finset Text) (known : Text → Option AllocEntry) (run : Run) (address : ℕ) :
    Finset Text :=
  names.filter fun name ↦ (known name).map AllocEntry.address = some address ∧
    run.registry.knownAllocations name = none

/-- The run `run` went on from `start` by lines that freed the blocks known under some of `names`.
-/
structure Books (names : Finset Text) (start run : Run) : Prop where
  known : ∀ name, run.registry.knownAllocations name = start.registry.knownAllocations name ∨
    name ∈ names ∧ run.registry.knownAllocations name = none
  allocs : run.disableInfo.allocs = start.disableInfo.allocs.filter fun a ↦
    (run.registry.knownAllocations a.name).isSome
  events : ∃ added, run.target.events = start.target.events ++ added ∧
    (∀ event ∈ added, event.allocated = none) ∧
    ∀ address, freeCount added address =
      (freedNames names start.registry.knownAllocations run address).card

theorem Books.refl (names : Finset Text) {start : Run}
    (h : ∀ a ∈ start.disableInfo.allocs, (start.registry.knownAllocations a.name).isSome) :
    Books names start start where
  known _ := Or.inl rfl
  allocs := (List.filter_eq_self.mpr h).symm
  events := by
    refine ⟨[], by simp, by simp, fun address ↦ ?_⟩
    rw [eq_comm, freeCount, List.countP_nil, Finset.card_eq_zero, freedNames,
      Finset.filter_eq_empty_iff]
    rintro name - ⟨hsome, hnone⟩
    rw [hnone] at hsome
    cases hsome

section Steps

variable {names : Finset Text} {start s s' : Run}

/-- A change that touches no block. -/
theorem Books.keep (h : Books names start s) (added : List Event)
    (hknown : s'.registry.knownAllocations = s.registry.knownAllocations)
    (hallocs : s'.disableInfo.allocs = s.disableInfo.allocs)
    (hevents : s'.target.events = s.target.events ++ added)
    (hadded : ∀ event ∈ added, event.allocated = none ∧ event.freed = none) :
    Books names start s' where
  known := by
    rw [hknown]
    exact h.known
  allocs := by
    rw [hknown, hallocs]
    exact h.allocs
  events := by
    obtain ⟨before, hbefore, hallocated, hfreed⟩ := h.events
    refine ⟨before ++ added, by rw [hevents, hbefore, List.append_assoc], ?_, fun address ↦ ?_⟩
    · intro event hevent
      exact (List.mem_append.mp hevent).elim (hallocated event) fun hnew ↦ (hadded event hnew).1
    · have hnone : freeCount added address = 0 :=
        List.countP_eq_zero.mpr fun event hevent ↦ by simp [(hadded event hevent).2]
      rw [freedNames, hknown, ← freedNames, ← hfreed, freeCount, List.countP_append]
      exact Nat.add_eq_left.mpr hnone

/-- A line that lists no block to free. -/
theorem Books.lineStep {env : Environment} {line : Line} (hline : line.deallocates = [])
    (hstep : LineStep env line s s') (h : Books names start s) : Books names start s' := by
  cases hstep with
  | keeps htarget hregistry hinfo =>
    exact h.keep [] (by rw [hregistry]) (by rw [hinfo]) (by rw [htarget]; simp) (by simp)
  | protects address size =>
    exact h.keep _ rfl rfl rfl (by simp [Event.allocated, Event.freed])
  | records original => exact h.keep [] rfl rfl (by simp) (by simp)
  | writes address bytes => exact h.keep _ rfl rfl rfl (by simp [Event.allocated, Event.freed])
  | unregisters name => exact h.keep [] rfl rfl (by simp [unregister]) (by simp)
  | frees name entry after hname =>
    rw [hline] at hname
    cases hname
  | refuses name entry message after hname =>
    rw [hline] at hname
    cases hname
  | foreign t =>
    exact h.keep _ rfl rfl rfl (by simp [Event.allocated, Event.freed])

/-- A block freed by name. -/
theorem Books.forget {env : Environment} (h : Books names start s) {name : Text} {entry : AllocEntry}
    {after : Target} (hname : name ∈ names)
    (hknown : s.registry.knownAllocations name = some entry)
    (hfree : s.target.free env.kernel entry.address entry.size = (none, after)) :
    Books names start (forgetAlloc name { s with target := after }) := by
  have hstart : start.registry.knownAllocations name = some entry := by
    rcases h.known name with hsame | ⟨-, hnone⟩
    · rw [← hsame, hknown]
    · rw [hnone] at hknown
      cases hknown
  refine ⟨fun other ↦ ?_, ?_, ?_⟩
  · by_cases hother : other = name
    · exact Or.inr ⟨hother ▸ hname, by simp [forgetAlloc, hother]⟩
    · simpa [forgetAlloc, hother] using h.known other
  · change s.disableInfo.allocs.filter _ = _
    rw [h.allocs, List.filter_filter]
    refine List.filter_congr fun a _ ↦ ?_
    by_cases ha : a.name = name
    · simp [forgetAlloc, ha]
    · simp [forgetAlloc, ha]
  · obtain ⟨before, hbefore, hallocated, hfreed⟩ := h.events
    have hevents : after.events = s.target.events ++ [.free entry.address entry.size true] := by
      rcases free_eq s.target env.kernel entry.address entry.size with
        ⟨message, hcall⟩ | ⟨other, hcall, hother, -⟩
      · rw [hcall] at hfree
        cases hfree
      · rw [hcall] at hfree
        rw [← (Prod.mk.inj hfree).2, hother]
    refine ⟨before ++ [.free entry.address entry.size true], ?_, ?_, fun address ↦ ?_⟩
    · change after.events = _
      rw [hevents, hbefore, List.append_assoc]
    · intro event hevent
      rcases List.mem_append.mp hevent with hold | hnew
      · exact hallocated event hold
      · rw [List.mem_singleton.mp hnew]
        rfl
    · rw [freeCount, List.countP_append, ← freeCount, hfreed]
      by_cases haddress : entry.address = address
      · have hnew : freedNames names start.registry.knownAllocations
            (forgetAlloc name { s with target := after }) address =
            insert name (freedNames names start.registry.knownAllocations s address) := by
          ext other
          by_cases hother : other = name
          · simp [freedNames, hother, hname, hstart, haddress, forgetAlloc]
          · simp [freedNames, hother, forgetAlloc]
        have hnot : name ∉ freedNames names start.registry.knownAllocations s address := by
          simp [freedNames, hknown]
        rw [hnew, Finset.card_insert_of_notMem hnot]
        simp [Event.freed, haddress]
      · have hsame : freedNames names start.registry.knownAllocations
            (forgetAlloc name { s with target := after }) address =
            freedNames names start.registry.knownAllocations s address := by
          ext other
          by_cases hother : other = name
          · simp [freedNames, hother, hstart, haddress]
          · simp [freedNames, hother, forgetAlloc]
        rw [hsame]
        simp [Event.freed, haddress]

end Steps

/-- Listed names freed without an error: none of them is known afterwards, and none becomes known.
-/
theorem Books.emitDealloc {env : Environment} {names : Finset Text} {start s' : Run}
    (listed : List Text) {s : Run} (h : Books names start s) (hlisted : ∀ name ∈ listed, name ∈ names)
    (hok : emitDealloc env listed s = .ok ⟨⟩ s') :
    Books names start s' ∧ (∀ name ∈ listed, s'.registry.knownAllocations name = none) ∧
      ∀ name, s.registry.knownAllocations name = none →
        s'.registry.knownAllocations name = none := by
  induction listed generalizing s with
  | nil =>
    cases hok
    exact ⟨h, by simp, fun _ hnone ↦ hnone⟩
  | cons name rest ih =>
    unfold AutoAsm.emitDealloc at hok
    obtain ⟨run, mid, hget, hok⟩ := bind_eq_ok hok
    cases hget
    have hrest : ∀ other ∈ rest, other ∈ names := fun other hother ↦
      hlisted other (List.mem_cons_of_mem _ hother)
    cases hknown : s.registry.knownAllocations name with
    | none =>
      rw [hknown] at hok
      obtain ⟨_, next, hhead, hok⟩ := bind_eq_ok hok
      cases hhead
      have hkeep : Books names start
          { s with log := s.log ++ ["DEALLOC: ".toList ++ name ++ " not tracked".toList] } :=
        h.keep [] rfl rfl (by simp) (by simp)
      obtain ⟨hbooks, hnone, hshrink⟩ := ih hkeep hrest hok
      refine ⟨hbooks, fun other hother ↦ ?_, hshrink⟩
      rcases List.mem_cons.mp hother with heq | hin
      · rw [heq]
        exact hshrink name hknown
      · exact hnone other hin
    | some entry =>
      rw [hknown] at hok
      obtain ⟨_, next, hhead, hok⟩ := bind_eq_ok hok
      obtain ⟨refused, freed, hfree, hhead⟩ := bind_eq_ok hhead
      cases hfree
      cases hrefused : (s.target.free env.kernel entry.address entry.size).1 with
      | some message =>
        rw [hrefused] at hhead
        cases hhead
      | none =>
        rw [hrefused] at hhead
        cases hhead
        have hforget : Books names start { forgetAlloc name { s with
              target := (s.target.free env.kernel entry.address entry.size).2 } with
            log := s.log ++ ["DEALLOC: ".toList ++ name] } :=
          (h.forget (hlisted name List.mem_cons_self) hknown (Prod.ext hrefused rfl)).keep []
            rfl rfl (by simp) (by simp)
        obtain ⟨hbooks, hnone, hshrink⟩ := ih hforget hrest hok
        refine ⟨hbooks, fun other hother ↦ ?_, fun other hother ↦ hshrink other ?_⟩
        · rcases List.mem_cons.mp hother with heq | hin
          · rw [heq]
            exact hshrink name (by simp [forgetAlloc])
          · exact hnone other hin
        · by_cases hsame : other = name
          · simp [forgetAlloc, hsame]
          · simpa [forgetAlloc, hsame] using hother

/-- No line makes a name known. -/
theorem LineStep.known_none {env : Environment} {line : Line} {s s' : Run}
    (hstep : LineStep env line s s') {name : Text} (h : s.registry.knownAllocations name = none) :
    s'.registry.knownAllocations name = none := by
  cases hstep with
  | keeps htarget hregistry hinfo =>
    rw [hregistry]
    exact h
  | frees other entry after =>
    by_cases hsame : name = other
    · simp [forgetAlloc, hsame]
    · simpa [forgetAlloc, hsame] using h
  | protects | records | writes | unregisters | refuses | foreign => exact h

/-- The names that the `DEALLOC` lines list. -/
def deallocated (lines : List Text) : Finset Text :=
  (lines.flatMap fun line ↦ (classify (trim line)).deallocates).toFinset

/-- A line that ends without an error. -/
theorem Books.emitLine {env : Environment} {script : Script} {names : Finset Text}
    {start s s' : Run} (rawLine : Text) (h : Books names start s)
    (hlisted : ∀ name ∈ (classify (trim rawLine)).deallocates, name ∈ names)
    (hok : emitLine env script rawLine s = .ok ⟨⟩ s') :
    Books names start s' ∧ (∀ name ∈ (classify (trim rawLine)).deallocates,
        s'.registry.knownAllocations name = none) ∧
      ∀ name, s.registry.knownAllocations name = none →
        s'.registry.knownAllocations name = none := by
  have halong := @emitLine_along env script rawLine s
  by_cases hline : (classify (trim rawLine)).deallocates = []
  · have hbooks := halong.preserves (fun _ _ hstep hs ↦ hs.lineStep hline hstep) h
    rw [hok] at hbooks
    refine ⟨hbooks, by simp [hline], fun name hnone ↦ ?_⟩
    have hkept := halong.preserves
      (p := fun run ↦ run.registry.knownAllocations name = none)
      (fun _ _ hstep hs ↦ hstep.known_none hs) hnone
    rw [hok] at hkept
    exact hkept
  · cases hkind : classify (trim rawLine) with
    | dealloc args =>
      rw [hkind] at hlisted
      have hdealloc : AutoAsm.emitDealloc env (listedNames args) s = .ok ⟨⟩ s' := by
        rw [← hok, AutoAsm.emitLine]
        simp only [hkind]
      exact h.emitDealloc (listedNames args) hlisted hdealloc
    | _ =>
      rw [hkind] at hline
      exact absurd rfl hline

/-- The loop, ended without an error. -/
theorem Books.emitLines {env : Environment} {script : Script} {names : Finset Text}
    {start s' : Run} (lines : List Text) {s : Run} (h : Books names start s)
    (hlisted : deallocated lines ⊆ names) (hok : emitLines env script lines s = .ok ⟨⟩ s') :
    Books names start s' ∧ (∀ name ∈ deallocated lines, s'.registry.knownAllocations name = none) ∧
      ∀ name, s.registry.knownAllocations name = none →
        s'.registry.knownAllocations name = none := by
  induction lines generalizing s with
  | nil =>
    cases hok
    exact ⟨h, by simp [deallocated], fun _ hnone ↦ hnone⟩
  | cons line rest ih =>
    have hsplit : deallocated (line :: rest) =
        (classify (trim line)).deallocates.toFinset ∪ deallocated rest := by
      simp [deallocated, List.toFinset_append]
    rw [hsplit, Finset.union_subset_iff] at hlisted
    unfold AutoAsm.emitLines at hok
    obtain ⟨_, mid, hhead, hok⟩ := bind_eq_ok hok
    obtain ⟨hbooks, hfreed, hkept⟩ := h.emitLine line
      (fun name hname ↦ hlisted.1 (List.mem_toFinset.mpr hname)) hhead
    obtain ⟨hbooks', hfreed', hkept'⟩ := ih hbooks hlisted.2 hok
    refine ⟨hbooks', fun name hname ↦ ?_, fun name hnone ↦ hkept' name (hkept name hnone)⟩
    rw [hsplit, Finset.mem_union, List.mem_toFinset] at hname
    exact hname.elim (fun hin ↦ hkept' name (hfreed name hin)) (hfreed' name)

end Cecore.AutoAsm
