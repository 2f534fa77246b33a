import Cecore.Debug.OriginalText
import Cecore.Debug.ThreadSets
import Cecore.Library.CallStack
import Mathlib.Tactic.IntervalCases

/-!
# Steps and activations

Step Over and Step Out against the calls and returns of the thread they are for. The thread goes its
way through the original program, and only an int3 in the text of the target stops it there. A step
looks for the call in the text that has the int3s in it, knows the moment to stop at by its address
only, and takes the word at the stack pointer for the return address.
-/

set_option autoImplicit false
set_option relaxedAutoImplicit false

namespace Cecore.Debug

open Library.CallStack

/-! ### The way of a thread -/

/-- The way of a thread through the program from where it is: its instructions with the activations
they belong to, and its stack pointer. -/
structure Path where
  moments : ℕ → Moment ℕ
  rsp : ℕ → ℕ

namespace Path

def rip (path : Path) (i : ℕ) : ℕ := (path.moments i).place

def regs (path : Path) (i : ℕ) : Regs := ⟨path.rip i, path.rsp i⟩

/-- The registers of a thread that an int3 stops. -/
def pastInt3 (path : Path) (i : ℕ) : Regs := ⟨(path.rip i + 1) % sizeModulus, path.rsp i⟩

/-- The first int3 on the way. -/
def Arrives (path : Path) (text : ℕ → UInt8) (i : ℕ) : Prop :=
  text (path.rip i) = 0xCC ∧ ∀ j < i, text (path.rip j) ≠ 0xCC

theorem Arrives.unique {path : Path} {text : ℕ → UInt8} {i j : ℕ} (hi : path.Arrives text i)
    (hj : path.Arrives text j) : i = j := by
  rcases lt_trichotomy i j with hlt | heq | hlt
  · exact absurd hi.1 (hj.2 i hlt)
  · exact heq
  · exact absurd hj.1 (hi.2 j hlt)

end Path

/-- The size of the original instruction at an address, when it is a call. -/
def originalCall (k : Kernel) (original : ℕ → UInt8) (address : ℕ) : Option ℕ :=
  k.callSize address (DebugSession.codeBytes k address (DebugSession.new original))

/-- The instruction after a call. -/
def returnAddress (k : Kernel) (original : ℕ → UInt8) (address : ℕ) : Option ℕ :=
  (originalCall k original address).map fun size ↦ (address + size) % sizeModulus

/-- The way is one through the original program, which has no int3 of its own there. -/
structure Path.Follows (path : Path) (k : Kernel) (original : ℕ → UInt8) : Prop where
  advances : Advances (returnAddress k original) path.moments
  inRange : ∀ i, path.rip i < sizeModulus
  mapped : ∀ i, k.mapped (path.rip i) = true
  plain : ∀ i, original (path.rip i) ≠ 0xCC

/-- The disassembler finds an instruction in the bytes it is given. -/
def Kernel.Disassembles (k : Kernel) : Prop :=
  ∀ address bytes size, k.callSize address bytes = some size → 0 < size ∧ size ≤ bytes.length

namespace DebugSession

/-! ### Where a step stops -/

/-- The session when it resumes a thread that is to run to a temporary breakpoint. -/
def runToStart (k : Kernel) (rip target : ℕ) (s : DebugSession) : DebugSession :=
  (setTemp k target (liftCurrentBp k rip s).1).1

/-- The moment that a step finds its thread at when no other event occurs, and the registers it
finds then. -/
inductive Finds (k : Kernel) (path : Path) (s : DebugSession) : StepMode → ℕ → Regs → Prop
  | instruction (hcall : k.callSize (path.rip 0) (codeBytes k (path.rip 0) s) = none) :
      Finds k path s .over 1 (path.regs 1)
  | call (size i : ℕ) (hcall : k.callSize (path.rip 0) (codeBytes k (path.rip 0) s) = some size)
      (harrives : path.Arrives
        (runToStart k (path.rip 0) ((path.rip 0 + size) % sizeModulus) s).text i) :
      Finds k path s .over i (path.pastInt3 i)
  | caller (i : ℕ) (hword : k.readWord s.clock (path.rsp 0) ≠ 0)
      (harrives : path.Arrives
        (runToStart k (path.rip 0) (k.readWord s.clock (path.rsp 0)) s).text i) :
      Finds k path s .out i (path.pastInt3 i)

/-- No other event occurs: the wait of the step finds the thread where the text of the target stops
it, and no other breakpoint is on the way. -/
structure Undisturbed (k : Kernel) (path : Path) (s : DebugSession) (mode : StepMode) (finish : ℕ) :
    Prop where
  found : ∀ i regs, Finds k path s mode i regs → ∃ next,
    k.waits s.clock = some ⟨.stopped sigtrap 0, some regs, none, next⟩
  quiet : ∀ i, 0 < i → i < finish → (s.armedAt (path.rip i)).isSome → path.rip i = path.rip 0

/-- The step stops the thread at a moment of its way, and leaves it there. -/
def StopsAt (k : Kernel) (path : Path) (mode : StepMode) (target : ℕ) (s : DebugSession) (i : ℕ) :
    Prop :=
  (∃ regs, Finds k path s mode i regs) ∧
    (doStep k mode target s).regs s.steppedThread = some (path.regs i)

variable {k : Kernel} {original : ℕ → UInt8} {s : DebugSession} {path : Path} {tid rip target : ℕ}

/-! ### The text of the run -/

theorem text_liftCurrentBp (h : CodeBytes k original s) (address : ℕ) :
    (liftCurrentBp k rip s).1.text address =
      if (s.armedAt address).isSome ∧ address ≠ rip then 0xCC else original address := by
  unfold liftCurrentBp
  cases harmed : s.armedAt rip with
  | none =>
    dsimp only
    rw [h.text]
    by_cases haddress : address = rip
    · rw [haddress, harmed]
      simp
    · simp [haddress]
  | some bp =>
    obtain ⟨hmem, haddress, -⟩ := mem_of_armedAt harmed
    have hmapped := h.mapped bp hmem
    rw [haddress] at hmapped
    dsimp only
    rw [text_pokeByte hmapped]
    by_cases hsame : address = rip
    · rw [hsame, Function.update_self, if_neg (by simp), h.stored bp hmem, haddress]
    · rw [Function.update_of_ne hsame, h.text]
      simp [hsame]

theorem armedAt_liftCurrentBp (k : Kernel) (rip : ℕ) (s : DebugSession) (address : ℕ) :
    (liftCurrentBp k rip s).1.armedAt address = s.armedAt address :=
  armedAt_congr (runs_liftCurrentBp k rip s).softBreakpoints address

/-- Away from the temporary breakpoint the text has the other armed breakpoints in it. -/
theorem text_runToStart_of_ne (h : CodeBytes k original s) {address : ℕ} (hne : address ≠ target) :
    (runToStart k rip target s).text address =
      if (s.armedAt address).isSome ∧ address ≠ rip then 0xCC else original address := by
  rw [← text_liftCurrentBp h address, runToStart]
  unfold setTemp pokeByte
  split_ifs
  · rfl
  · exact Function.update_of_ne hne _ _
  · rfl

/-- The temporary breakpoint is there, except where a breakpoint was lifted for the run. -/
theorem text_runToStart_target (h : CodeBytes k original s) (hmapped : k.mapped target = true)
    (hne : target ≠ rip) : (runToStart k rip target s).text target = 0xCC := by
  have hlifted := @text_liftCurrentBp k original s rip h target
  rw [runToStart]
  unfold setTemp
  rw [armedAt_liftCurrentBp]
  by_cases harmed : (s.armedAt target).isSome = true
  · rw [if_pos harmed, hlifted, if_pos ⟨harmed, hne⟩]
  · rw [if_neg harmed, pokeByte, if_pos hmapped]
    exact Function.update_self _ _ _

/-- A way without other breakpoints first meets an int3 at the temporary breakpoint. -/
theorem arrives_iff (h : CodeBytes k original s) (hfollows : path.Follows k original) {finish : ℕ}
    (hpos : 0 < finish)
    (hquiet : ∀ i, 0 < i → i < finish → (s.armedAt (path.rip i)).isSome → path.rip i = path.rip 0) :
    path.Arrives (runToStart k (path.rip 0) (path.rip finish) s).text finish ↔
      ∀ i < finish, path.rip i ≠ path.rip finish := by
  constructor
  · intro harrives i hlt hsame
    exact harrives.2 i hlt (hsame ▸ harrives.1)
  · intro hfirst
    refine ⟨text_runToStart_target h (hfollows.mapped finish) (hfirst 0 hpos).symm, fun i hlt ↦ ?_⟩
    rw [text_runToStart_of_ne h (hfirst i hlt)]
    have hlifted : ¬((s.armedAt (path.rip i)).isSome ∧ path.rip i ≠ path.rip 0) := by
      rintro ⟨harmed, hne⟩
      rcases Nat.eq_zero_or_pos i with hzero | hlater
      · exact hne (by rw [hzero])
      · exact hne (hquiet i hlater hlt harmed)
    rw [if_neg hlifted]
    exact hfollows.plain i

/-! ### The registers after the step -/

theorem regs_pokeByte (k : Kernel) (address : ℕ) (val : UInt8) (s : DebugSession) :
    (pokeByte k address val s).1.regs = s.regs := by
  unfold pokeByte
  split_ifs <;> rfl

theorem clock_pokeByte (k : Kernel) (address : ℕ) (val : UInt8) (s : DebugSession) :
    (pokeByte k address val s).1.clock = s.clock := by
  unfold pokeByte
  split_ifs <;> rfl

theorem regs_rearm (k : Kernel) (address : ℕ) (s : DebugSession) :
    (rearm k address s).regs = s.regs := by
  unfold rearm
  split_ifs
  · exact regs_pokeByte k address 0xCC s
  · rfl

theorem regs_clearTemp (k : Kernel) (t : Temp) (s : DebugSession) :
    (clearTemp k t s).regs = s.regs := by
  unfold clearTemp
  split_ifs
  · exact regs_pokeByte k t.addr t.orig s
  · rfl

theorem clock_runToStart (k : Kernel) (rip target : ℕ) (s : DebugSession) :
    (runToStart k rip target s).clock = s.clock := by
  have hlifted : (liftCurrentBp k rip s).1.clock = s.clock := by
    unfold liftCurrentBp
    cases s.armedAt rip with
    | none => rfl
    | some bp => exact clock_pokeByte k rip bp.originalByte s
  rw [← hlifted, runToStart]
  unfold setTemp pokeByte
  split_ifs <;> rfl

/-- A wait that finds the thread stopped. -/
theorem waitpid_found {site : WaitSite} {result : WaitResult} (hwait : k.waits s.clock = some result) :
    waitpid k site tid s = (recordStop site tid result { s with clock := s.clock + 1 },
      some result) := by
  rw [waitpid, hwait]

/-- The thread is set back over the temporary breakpoint it ran to, and over no other. -/
theorem regs_runTo {regs : Regs} {next : ℕ}
    (hwait : k.waits s.clock = some ⟨.stopped sigtrap 0, some regs, none, next⟩) :
    (runTo k tid rip target s).regs tid =
      some (if regs.rip = (target + 1) % sizeModulus then { regs with rip := target } else regs) := by
  set start := resume tid 0 (runToStart k rip target s)
  have hclock : start.clock = s.clock := clock_runToStart k rip target s
  rw [← hclock] at hwait
  set waited := waitpid k (.runTo target) tid start with hwaited
  set rewound := rewindOverBreakpoint tid ((waited.2.map WaitResult.status).getD .exited) target
    waited.1 with hrewound
  set cleared := clearTemp k (setTemp k target (liftCurrentBp k rip s).1).2 rewound with hcleared
  have hresult : runTo k tid rip target s =
      if (liftCurrentBp k rip s).2 then rearm k rip cleared else cleared := rfl
  have hregs : (runTo k tid rip target s).regs = rewound.regs := by
    rw [hresult]
    split_ifs
    · rw [regs_rearm, hcleared, regs_clearTemp]
    · rw [hcleared, regs_clearTemp]
  have hread : waited.1.regs tid = some regs := by
    rw [hwaited, waitpid_found hwait]
    exact Function.update_self _ _ _
  have hstatus : (waited.2.map WaitResult.status).getD .exited = .stopped sigtrap 0 := by
    rw [hwaited, waitpid_found hwait]
    rfl
  rw [hregs, hrewound, hstatus]
  unfold rewindOverBreakpoint
  rw [hread]
  dsimp only [WaitStatus.stopSignal?]
  split_ifs
  · unfold setRip
    dsimp only
    rw [Function.update_self, hread]
    rfl
  · exact hread

theorem regs_captureRegs (tid : ℕ) (s : DebugSession) : (captureRegs tid s).regs = s.regs := by
  unfold captureRegs
  cases s.regs tid <;> rfl

theorem regs_doStep (hstopped : s.stopped = true) (mode : StepMode) :
    (doStep k mode target s).regs s.steppedThread =
      (stepThread k mode target s.steppedThread s).regs s.steppedThread := by
  unfold doStep
  rw [hstopped]
  exact congrFun (regs_captureRegs _ _) _

/-- What Step Over does at what it reads as a call. -/
theorem stepThread_over {regs : Regs} (hregs : s.regs tid = some regs) {size : ℕ}
    (hcall : k.callSize regs.rip (codeBytes k regs.rip s) = some size) :
    stepThread k .over target tid s =
      runTo k tid regs.rip ((regs.rip + size) % sizeModulus) s := by
  rw [stepThread, hregs]
  dsimp only [Option.getD_some]
  rw [hcall]

/-- A run to a temporary breakpoint leaves the thread at a moment of its way exactly when it waits
for that moment. -/
theorem runTo_stops_iff (hinRange : ∀ i, path.rip i < sizeModulus) {i : ℕ} {next : ℕ}
    (hwait : k.waits s.clock = some ⟨.stopped sigtrap 0, some (path.pastInt3 i), none, next⟩)
    (htarget : target < sizeModulus) :
    (runTo k tid rip target s).regs tid = some (path.regs i) ↔ path.rip i = target := by
  have hshift : (path.rip i + 1) % sizeModulus = (target + 1) % sizeModulus ↔
      path.rip i = target := by
    have hi := hinRange i
    unfold sizeModulus at *
    omega
  have hnext : (path.rip i + 1) % sizeModulus ≠ path.rip i := by
    have hi := hinRange i
    unfold sizeModulus at *
    omega
  rw [regs_runTo hwait, Option.some.injEq]
  change (if (path.rip i + 1) % sizeModulus = (target + 1) % sizeModulus then _ else _) = _ ↔ _
  by_cases hsame : path.rip i = target
  · rw [if_pos (hshift.mpr hsame), ← hsame]
    exact iff_of_true rfl rfl
  · rw [if_neg fun h ↦ hsame (hshift.mp h)]
    exact iff_of_false (fun h ↦ hnext (congrArg Regs.rip h)) hsame

/-! ### Steps and activations -/

theorem length_codeBytes (k : Kernel) (address : ℕ) (s : DebugSession) :
    (codeBytes k address s).length ≤ 16 := by
  rw [codeBytes, List.length_map]
  refine (List.takeWhile_prefix _).length_le.trans ?_
  rw [List.length_map, List.length_range]

/-- The instruction after a call tells how long the call is. -/
theorem after_call_injective {address size size' : ℕ} (hsize : size ≤ 16) (hsize' : size' ≤ 16)
    (h : (address + size) % sizeModulus = (address + size') % sizeModulus) : size = size' := by
  unfold sizeModulus at h
  omega

theorem after_call_ne {address size : ℕ} (hpos : 0 < size) (hsize : size ≤ 16) :
    address ≠ (address + size) % sizeModulus := by
  unfold sizeModulus
  omega

/-- Step Over at a call, in a session with the original text under its breakpoints. -/
theorem over_stops_iff (h : CodeBytes k original s) (hstopped : s.stopped = true)
    (hfollows : path.Follows k original) (hdisassembles : k.Disassembles)
    (hregs : s.regs s.steppedThread = some (path.regs 0)) {size finish : ℕ}
    (hcall : originalCall k original (path.rip 0) = some size)
    (hreturns : Returns path.moments finish) (hundisturbed : Undisturbed k path s .over finish) :
    StopsAt k path .over target s finish ↔
      k.callSize (path.rip 0) (codeBytes k (path.rip 0) s) = some size ∧
        ∀ i, 0 < i → i < finish → path.rip i ≠ path.rip finish := by
  have haddress : returnAddress k original (path.rip 0) =
      some ((path.rip 0 + size) % sizeModulus) := by rw [returnAddress, hcall]; rfl
  have hplace : path.rip finish = (path.rip 0 + size) % sizeModulus :=
    hreturns.place hfollows.advances haddress
  have hlate : 1 < finish := hreturns.after_callee hfollows.advances haddress
  obtain ⟨hpos, hlength⟩ := hdisassembles _ _ _ hcall
  have hsize : size ≤ 16 := hlength.trans (length_codeBytes k _ _)
  have harrives := arrives_iff h hfollows hreturns.later hundisturbed.quiet
  have hafter : path.rip 0 ≠ path.rip finish := by
    rw [hplace]
    exact after_call_ne hpos hsize
  cases hfound : k.callSize (path.rip 0) (codeBytes k (path.rip 0) s) with
  | none =>
    refine iff_of_false ?_ (by simp)
    rintro ⟨⟨regs, hfinds⟩, -⟩
    cases hfinds with
    | instruction _ => exact absurd hlate (lt_irrefl 1)
    | call found _ hsome _ =>
      rw [hfound] at hsome
      cases hsome
  | some found =>
    have hfound16 : found ≤ 16 := (hdisassembles _ _ _ hfound).2.trans (length_codeBytes k _ _)
    have hstep : (doStep k .over target s).regs s.steppedThread =
        (runTo k s.steppedThread (path.rip 0) ((path.rip 0 + found) % sizeModulus) s).regs
          s.steppedThread := by
      rw [regs_doStep hstopped, stepThread_over hregs hfound]
      rfl
    have hstops : ∀ next, k.waits s.clock =
        some ⟨.stopped sigtrap 0, some (path.pastInt3 finish), none, next⟩ →
        ((doStep k .over target s).regs s.steppedThread = some (path.regs finish) ↔
          path.rip finish = (path.rip 0 + found) % sizeModulus) := by
      intro next hwait
      rw [hstep]
      exact runTo_stops_iff hfollows.inRange hwait (Nat.mod_lt _ (by decide))
    constructor
    · rintro ⟨⟨regs, hfinds⟩, hfinal⟩
      obtain ⟨next, hwait⟩ := hundisturbed.found finish regs hfinds
      cases hfinds with
      | instruction hnone =>
        rw [hfound] at hnone
        cases hnone
      | call size' _ hsome hmeets =>
        rw [hfound] at hsome
        cases hsome
        have hsame := (hstops next hwait).mp hfinal
        have hsizes := after_call_injective hsize hfound16 (hplace.symm.trans hsame)
        rw [← hsame] at hmeets
        exact ⟨by rw [hsizes], fun i _ hlt ↦ harrives.mp hmeets i hlt⟩
    · rintro ⟨hsizes, hfirst⟩
      cases hsizes
      have hmeets := harrives.mpr fun i hlt ↦ by
        rcases Nat.eq_zero_or_pos i with hzero | hlater
        · rw [hzero]
          exact hafter
        · exact hfirst i hlater hlt
      rw [hplace] at hmeets
      have hfinds : Finds k path s .over finish (path.pastInt3 finish) :=
        Finds.call size finish hfound hmeets
      obtain ⟨next, hwait⟩ := hundisturbed.found finish _ hfinds
      exact ⟨⟨_, hfinds⟩, (hstops next hwait).mpr hplace⟩

/-- Step Out, in a session with the original text under its breakpoints. -/
theorem out_stops_iff (h : CodeBytes k original s) (hstopped : s.stopped = true)
    (hfollows : path.Follows k original) (hregs : s.regs s.steppedThread = some (path.regs 0))
    (hword : k.readWord s.clock (path.rsp 0) < sizeModulus) {finish : ℕ}
    (hleaves : Leaves path.moments finish) (hundisturbed : Undisturbed k path s .out finish) :
    StopsAt k path .out target s finish ↔
      k.readWord s.clock (path.rsp 0) = path.rip finish ∧ path.rip finish ≠ 0 ∧
        ∀ i < finish, path.rip i ≠ path.rip finish := by
  have harrives := arrives_iff h hfollows hleaves.later hundisturbed.quiet
  set retAddr := k.readWord s.clock (path.rsp 0) with hretAddr
  have hstep : retAddr ≠ 0 → (doStep k .out target s).regs s.steppedThread =
      (runTo k s.steppedThread (path.rip 0) retAddr s).regs s.steppedThread := by
    intro hsome
    rw [regs_doStep hstopped, stepThread, hregs]
    dsimp only [Option.getD_some]
    exact congrArg (fun after : DebugSession ↦ after.regs s.steppedThread) (if_pos hsome)
  have hstops : retAddr ≠ 0 → ∀ next, k.waits s.clock =
      some ⟨.stopped sigtrap 0, some (path.pastInt3 finish), none, next⟩ →
      ((doStep k .out target s).regs s.steppedThread = some (path.regs finish) ↔
        path.rip finish = retAddr) := by
    intro hsome next hwait
    rw [hstep hsome]
    exact runTo_stops_iff hfollows.inRange hwait hword
  constructor
  · rintro ⟨⟨regs, hfinds⟩, hfinal⟩
    obtain ⟨next, hwait⟩ := hundisturbed.found finish regs hfinds
    cases hfinds with
    | caller _ hsome hmeets =>
      have hsame := (hstops hsome next hwait).mp hfinal
      rw [← hretAddr, ← hsame] at hmeets hsome
      exact ⟨hsame.symm, hsome, harrives.mp hmeets⟩
  · rintro ⟨hsame, hsome, hfirst⟩
    have hmeets := harrives.mpr hfirst
    rw [← hsame] at hmeets hsome
    have hfinds : Finds k path s .out finish (path.pastInt3 finish) :=
      Finds.caller finish hsome hmeets
    obtain ⟨next, hwait⟩ := hundisturbed.found finish _ hfinds
    exact ⟨⟨_, hfinds⟩, (hstops hsome next hwait).mpr hsame.symm⟩

/-- When no other event occurs, Step Over at a call stops the thread where the call has returned
exactly when the text with the armed breakpoints in it still reads as that call and the thread does
not come by the instruction after it in any deeper activation. Step Out stops the thread where its
activation has ended exactly when the word at the stack pointer is the return address of the
activation and the thread does not come by that address before. -/
theorem steps_respect_activations_iff (k : Kernel) (original : ℕ → UInt8) (inputs : List Input)
    (path : Path) (target : ℕ) (hdisassembles : k.Disassembles)
    (hword : ∀ clock address, k.readWord clock address < sizeModulus)
    (hstopped : (run k (DebugSession.new original) inputs).stopped = true)
    (hfollows : path.Follows k original)
    (hregs : (run k (DebugSession.new original) inputs).regs
      (run k (DebugSession.new original) inputs).steppedThread = some (path.regs 0)) :
    (∀ size finish, originalCall k original (path.rip 0) = some size →
      Returns path.moments finish →
      Undisturbed k path (run k (DebugSession.new original) inputs) .over finish →
      path.rip finish = (path.rip 0 + size) % sizeModulus ∧
      (StopsAt k path .over target (run k (DebugSession.new original) inputs) finish ↔
        k.callSize (path.rip 0)
          (codeBytes k (path.rip 0) (run k (DebugSession.new original) inputs)) = some size ∧
        ∀ i, 0 < i → i < finish → path.rip i ≠ (path.rip 0 + size) % sizeModulus)) ∧
    (∀ returnTo rest finish, (path.moments 0).frames = returnTo :: rest →
      Leaves path.moments finish →
      Undisturbed k path (run k (DebugSession.new original) inputs) .out finish →
      path.rip finish = returnTo ∧
      (StopsAt k path .out target (run k (DebugSession.new original) inputs) finish ↔
        k.readWord (run k (DebugSession.new original) inputs).clock (path.rsp 0) = returnTo ∧
        returnTo ≠ 0 ∧ ∀ i < finish, path.rip i ≠ returnTo)) := by
  have hcode : CodeBytes k original (run k (DebugSession.new original) inputs) :=
    (intact_run (intact_new k original) inputs).toCodeBytes
  constructor
  · intro size finish hcall hreturns hundisturbed
    have hplace : path.rip finish = (path.rip 0 + size) % sizeModulus :=
      hreturns.place hfollows.advances (by rw [returnAddress]; exact congrArg _ hcall)
    refine ⟨hplace, ?_⟩
    rw [← hplace]
    exact over_stops_iff hcode hstopped hfollows hdisassembles hregs hcall hreturns hundisturbed
  · intro returnTo rest finish hframes hleaves hundisturbed
    have hplace : path.rip finish = returnTo := by
      have hall := hleaves.place hfollows.advances
      rw [hframes] at hall
      exact (List.cons.inj hall).1.symm
    refine ⟨hplace, ?_⟩
    rw [← hplace]
    exact out_stops_iff hcode hstopped hfollows hregs (hword _ _) hleaves hundisturbed

/-- One thread at `0x1000`, which the first wait of a step finds with some registers. `0xE8` is a
call and five bytes long. -/
def callKernel (found : Regs) : Kernel where
  mapped := fun _ ↦ true
  grants := fun _ ↦ true
  waits := fun clock ↦ some <|
    if clock ≤ 2 then ⟨.stopped sigtrap 128, some ⟨0x1000, 0x7000⟩, none, 0x1000⟩
    else ⟨.stopped sigtrap 0, some found, none, 0⟩
  threads := fun _ ↦ [1]
  eventMessage := fun _ ↦ 0
  readWord := fun _ address ↦ if address = 0x7000 then 0x3000 else 0
  callSize := fun _ bytes ↦ if bytes.head? = some 0xE8 ∧ 5 ≤ bytes.length then some 5 else none

/-- A call at `0x1000`. -/
def callText (address : ℕ) : UInt8 := if address = 0x1000 then 0xE8 else 0x90

/-- The call at `0x1000` is to `0x2000` and returns, and so does its activation, to `0x3000`. -/
def wayHome : Path where
  moments
    | 0 => ⟨0x1000, [0x3000]⟩
    | 1 => ⟨0x2000, [0x1005, 0x3000]⟩
    | 2 => ⟨0x1005, [0x3000]⟩
    | _ + 3 => ⟨0x3000, []⟩
  rsp
    | 0 => 0x7000
    | 1 => 0x6ff8
    | 2 => 0x7000
    | _ + 3 => 0x7008

/-- The session at the call, with a breakpoint. -/
def atCall (found : Regs) (breakpoint : ℕ) : DebugSession :=
  run (callKernel found) (DebugSession.new callText)
    [.attach 1, .command (.setSoftBp breakpoint)]

theorem wayHome_follows (found : Regs) : wayHome.Follows (callKernel found) callText where
  advances
    | 0 => .call 0x1005 rfl rfl
    | 1 => .ret rfl rfl
    | 2 => .ret rfl rfl
    | _ + 3 => .plain rfl rfl
  inRange
    | 0 | 1 | 2 => by decide
    | _ + 3 => (by decide : 0x3000 < sizeModulus)
  mapped _ := rfl
  plain
    | 0 | 1 | 2 => by decide
    | _ + 3 => (by decide : callText 0x3000 ≠ 0xCC)

theorem wayHome_returns : Returns wayHome.moments 2 :=
  ⟨by decide, rfl, fun i hpos hlt ↦ by interval_cases i; decide⟩

theorem wayHome_leaves : Leaves wayHome.moments 3 :=
  ⟨by decide, by decide⟩

theorem undisturbed_over : Undisturbed (callKernel ⟨0x1006, 0x7000⟩) wayHome
    (atCall ⟨0x1006, 0x7000⟩ 0x3000) .over 2 where
  found := by
    intro i regs hfinds
    cases hfinds with
    | instruction hnone => exact absurd hnone (by decide)
    | call size _ hcall hmeets =>
      cases (show some 5 = some size from hcall)
      cases hmeets.unique (⟨by decide, by decide⟩ : Path.Arrives _ _ 2)
      exact ⟨0, rfl⟩
  quiet := by
    intro i hpos hlt
    interval_cases i
    decide

theorem undisturbed_out : Undisturbed (callKernel ⟨0x3001, 0x7008⟩) wayHome
    (atCall ⟨0x3001, 0x7008⟩ 0x3000) .out 3 where
  found := by
    intro i regs hfinds
    cases hfinds with
    | caller _ hsome hmeets =>
      cases hmeets.unique (⟨by decide, by decide⟩ : Path.Arrives _ _ 3)
      exact ⟨0, rfl⟩
  quiet := by
    intro i hpos hlt
    interval_cases i <;> decide

/-- With a breakpoint on the call Step Over steps one instruction. -/
theorem undisturbed_entered : Undisturbed (callKernel ⟨0x2000, 0x6ff8⟩) wayHome
    (atCall ⟨0x2000, 0x6ff8⟩ 0x1000) .over 2 where
  found := by
    intro i regs hfinds
    cases hfinds with
    | instruction _ => exact ⟨0, rfl⟩
    | call size _ hcall _ =>
      cases (show none = some size from hcall)
  quiet := by
    intro i hpos hlt
    interval_cases i
    decide

theorem disassembles_callKernel (found : Regs) : (callKernel found).Disassembles := by
  intro address bytes size hcall
  obtain ⟨hbytes, hsize⟩ := Option.ite_none_right_eq_some.mp hcall
  cases hsize
  exact ⟨by decide, hbytes.2⟩

theorem readWord_callKernel (found : Regs) (clock address : ℕ) :
    (callKernel found).readWord clock address < sizeModulus := by
  change (if address = 0x7000 then 0x3000 else 0) < sizeModulus
  split_ifs <;> decide

/-- Step Over stops at the instruction after the call, and Step Out at the return address. -/
theorem steps_respect_activations_wayHome :
    StopsAt (callKernel ⟨0x1006, 0x7000⟩) wayHome .over 0 (atCall ⟨0x1006, 0x7000⟩ 0x3000) 2 ∧
      StopsAt (callKernel ⟨0x3001, 0x7008⟩) wayHome .out 0 (atCall ⟨0x3001, 0x7008⟩ 0x3000) 3 := by
  have hover := (steps_respect_activations_iff (callKernel ⟨0x1006, 0x7000⟩) callText
    [.attach 1, .command (.setSoftBp 0x3000)] wayHome 0 (disassembles_callKernel _)
    (readWord_callKernel _) (by decide) (wayHome_follows _) (by decide)).1 5 2 rfl
    wayHome_returns undisturbed_over
  have hout := (steps_respect_activations_iff (callKernel ⟨0x3001, 0x7008⟩) callText
    [.attach 1, .command (.setSoftBp 0x3000)] wayHome 0 (disassembles_callKernel _)
    (readWord_callKernel _) (by decide) (wayHome_follows _) (by decide)).2 0x3000 []
    3 rfl wayHome_leaves undisturbed_out
  exact ⟨hover.2.mpr ⟨by decide, fun i hpos hlt ↦ by interval_cases i; decide⟩,
    hout.2.mpr ⟨by decide, by decide, by decide⟩⟩

/-- With a breakpoint on the call, Step Over stops inside the callee. -/
theorem over_breakpoint_stops_in_callee :
    (atCall ⟨0x2000, 0x6ff8⟩ 0x1000).attached = true ∧
    (atCall ⟨0x2000, 0x6ff8⟩ 0x1000).stopped = true ∧
    (atCall ⟨0x2000, 0x6ff8⟩ 0x1000).regs 1 = some (wayHome.regs 0) ∧
    wayHome.Follows (callKernel ⟨0x2000, 0x6ff8⟩) callText ∧
    originalCall (callKernel ⟨0x2000, 0x6ff8⟩) callText (wayHome.rip 0) = some 5 ∧
    Returns wayHome.moments 2 ∧
    Undisturbed (callKernel ⟨0x2000, 0x6ff8⟩) wayHome (atCall ⟨0x2000, 0x6ff8⟩ 0x1000) .over 2 ∧
    (doStep (callKernel ⟨0x2000, 0x6ff8⟩) .over 0 (atCall ⟨0x2000, 0x6ff8⟩ 0x1000)).regs 1 =
      some (wayHome.regs 1) ∧
    ¬StopsAt (callKernel ⟨0x2000, 0x6ff8⟩) wayHome .over 0 (atCall ⟨0x2000, 0x6ff8⟩ 0x1000) 2 := by
  refine ⟨by decide, by decide, by decide, wayHome_follows _, rfl,
    wayHome_returns, undisturbed_entered, by decide, ?_⟩
  rintro ⟨-, hregs⟩
  exact absurd hregs (by decide)

end DebugSession

end Cecore.Debug
