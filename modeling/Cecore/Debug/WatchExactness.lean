import Cecore.Debug.SoftwareWatch

/-!
# Exact software watchpoints

A software watch is exact when it records the accesses to the watched bytes, each once and no other,
and the target goes on as it would without it. It is when no access reaches into the watched bytes
from below on their page, no two threads are at them at once, and no stop but the expected one is
found by a wait for one thread.
-/

set_option autoImplicit false
set_option relaxedAutoImplicit false

namespace Cecore.Debug.SoftwareWatch

/-! ### Accesses -/

/-- The access is of the watched kind and overlaps the watched bytes. -/
def watches (config : WatchConfig) (access : DataAccess) : Bool :=
  (!config.writesOnly || access.write) &&
    decide (max config.watchLo access.address < min config.watchHi (access.address + access.width))

/-- The accesses to the watched bytes that an instruction has made. -/
def hits (config : WatchConfig) (performed : List (ℕ × DataAccess)) (instruction : ℕ) : ℕ :=
  performed.countP fun p ↦ decide (p.1 = instruction) && watches config p.2

/-- The watched accesses are recorded, each once and no other, the threads are as they would be
without the watch, and so are the pages after it. -/
structure Exact (config : WatchConfig) (s : Monitor) : Prop where
  recorded : ∀ instruction, (s.results instruction).hitCount = hits config s.performed instruction
  regs : ∀ tid, (s.threads tid).regs = (s.threads tid).native
  delivered : s.lost = []
  strays : s.strays = []
  restored : s.phase = .returned → ∀ tid, (s.threads tid).alive = true → s.protection = s.original

/-- A byte of the pages of the guard. -/
def OnGuard (config : WatchConfig) (byte : ℕ) : Prop :=
  config.pageStart ≤ byte ∧ byte < config.pageEnd

instance (config : WatchConfig) (byte : ℕ) : Decidable (OnGuard config byte) :=
  inferInstanceAs (Decidable (_ ∧ _))

def Touches (config : WatchConfig) (access : DataAccess) : Prop :=
  ∃ byte, OnGuard config byte ∧ access.address ≤ byte ∧ byte < access.address + access.width

/-- The access does not reach into the watched bytes from below, on their page. -/
def Straight (config : WatchConfig) (access : DataAccess) : Prop :=
  watches config access = true → config.watchLo ≤ access.address ∨ config.watchLo = config.pageStart

/-- The protection of the pages while they are guarded. -/
def guarded (k : WatchKernel) (config : WatchConfig) (original : ℕ → MemProt) : ℕ → MemProt :=
  protect config.pageStart config.pageLen (guardProt k config) original

/-- Every page of the guard has the protection of the region of the watched address. -/
def OneRegion (k : WatchKernel) (config : WatchConfig) (original : ℕ → MemProt) : Prop :=
  ∀ byte, OnGuard config byte → original (byte / pageSize) = origProt k config

section Accesses

variable {k : WatchKernel} {config : WatchConfig} {original : ℕ → MemProt} {access : DataAccess}
  {byte address : ℕ}

theorem watches_iff : watches config access = true ↔
    (config.writesOnly = true → access.write = true) ∧ ∃ byte, config.watchLo ≤ byte ∧
      byte < config.watchHi ∧ access.address ≤ byte ∧ byte < access.address + access.width := by
  unfold watches
  rw [Bool.and_eq_true, decide_eq_true_iff]
  refine and_congr ?_ ⟨fun h ↦ ⟨max config.watchLo access.address, ?_⟩, ?_⟩
  · cases config.writesOnly <;> cases access.write <;> decide
  · omega
  · rintro ⟨byte, hlo, hhi, hge, hlt⟩
    omega

theorem watchSize_pos (config : WatchConfig) : 0 < config.watchSize := by
  unfold WatchConfig.watchSize
  split_ifs with hsize
  · omega
  · omega

theorem onGuard_of_watched (hlo : config.watchLo ≤ byte) (hhi : byte < config.watchHi) :
    OnGuard config byte := by
  unfold OnGuard WatchConfig.pageStart WatchConfig.pageEnd pageSize
  omega

theorem touches_of_watches (h : watches config access = true) : Touches config access := by
  obtain ⟨-, byte, hlo, hhi, hge, hlt⟩ := watches_iff.mp h
  exact ⟨byte, onGuard_of_watched hlo hhi, hge, hlt⟩

/-- The pages that are protected are those of the guard. -/
theorem protect_pages (prot : MemProt) (protection : ℕ → MemProt) (byte : ℕ) :
    protect config.pageStart config.pageLen prot protection (byte / pageSize) =
      if OnGuard config byte then prot else protection (byte / pageSize) := by
  have hiff : (config.pageStart ≤ byte / pageSize * pageSize ∧
      byte / pageSize * pageSize < config.pageStart + config.pageLen) ↔ OnGuard config byte := by
    have hlo := watchSize_pos config
    unfold OnGuard WatchConfig.pageLen WatchConfig.pageStart WatchConfig.pageEnd WatchConfig.watchHi
      WatchConfig.watchLo pageSize
    omega
  exact if_congr hiff rfl rfl

theorem guarded_byte (byte : ℕ) : guarded k config original (byte / pageSize) =
    if OnGuard config byte then guardProt k config else original (byte / pageSize) :=
  protect_pages _ _ byte

theorem page_eq (page : ℕ) : page * pageSize / pageSize = page :=
  Nat.mul_div_cancel page (by decide)

/-- The protection is lifted. -/
theorem protect_origProt (hregion : OneRegion k config original) :
    protect config.pageStart config.pageLen (origProt k config) (guarded k config original) =
      original := by
  funext page
  rw [← page_eq page, protect_pages, guarded_byte]
  split_ifs with hguard
  · exact (hregion _ hguard).symm
  · rfl

/-- The guard is armed. -/
theorem protect_guardProt (original : ℕ → MemProt) :
    protect config.pageStart config.pageLen (guardProt k config) original =
      guarded k config original := rfl

theorem toProt_lt (protection : MemProt) : toProt protection < 8 := by
  unfold toProt
  split_ifs <;> decide

theorem origProt_lt (k : WatchKernel) (config : WatchConfig) : origProt k config < 8 := by
  unfold origProt
  split
  · exact toProt_lt _
  · decide

theorem guardProt_lt (k : WatchKernel) (config : WatchConfig) : guardProt k config < 2 ^ 32 := by
  unfold guardProt
  split_ifs
  · exact (Nat.and_le_right.trans_lt (by decide : 5 < 2 ^ 32))
  · decide

theorem allows_and_five : ∀ prot < 8, ∀ write : Bool,
    allows (prot &&& 5) write = (!write && allows prot write) := by
  decide

/-- The guard denies the watched kind, and nothing more if it is writes. -/
theorem allows_guardProt (k : WatchKernel) (config : WatchConfig) (write : Bool) :
    allows (guardProt k config) write =
      (config.writesOnly && !write && allows (origProt k config) write) := by
  unfold guardProt
  split_ifs with hwrites
  · rw [allows_and_five _ (origProt_lt k config), hwrites, Bool.true_and]
  · rw [Bool.not_eq_true] at hwrites
    rw [hwrites]
    cases write <;> rfl

theorem faultAddress_eq_some {protection : ℕ → MemProt} :
    faultAddress protection access = some address ↔
      allows (protection (address / pageSize)) access.write = false ∧
      (access.address ≤ address ∧ address < access.address + access.width) ∧
      ∀ byte, access.address ≤ byte → byte < address →
        allows (protection (byte / pageSize)) access.write = true := by
  unfold faultAddress
  rw [List.find?_range'_eq_some, List.mem_range'_1, Bool.not_eq_true']
  refine and_congr Iff.rfl (and_congr Iff.rfl (forall₃_congr fun byte _ _ ↦ ?_))
  rw [Bool.not_not]

theorem faultAddress_eq_none {protection : ℕ → MemProt} :
    faultAddress protection access = none ↔
      ∀ byte, access.address ≤ byte → byte < access.address + access.width →
        allows (protection (byte / pageSize)) access.write = true := by
  unfold faultAddress
  rw [List.find?_eq_none]
  constructor
  · intro h byte hge hlt
    simpa using h byte (List.mem_range'_1.mpr ⟨hge, hlt⟩)
  · intro h byte hbyte
    obtain ⟨hge, hlt⟩ := List.mem_range'_1.mp hbyte
    simpa using h byte hge hlt

/-- A watched access does not get through the guard. -/
theorem not_watches_of_guarded (h : faultAddress (guarded k config original) access = none) :
    watches config access = false := by
  by_contra hwatched
  rw [Bool.not_eq_false] at hwatched
  obtain ⟨hkind, byte, hlo, hhi, hge, hlt⟩ := watches_iff.mp hwatched
  have hallows := faultAddress_eq_none.mp h byte hge hlt
  rw [guarded_byte, if_pos (onGuard_of_watched hlo hhi), allows_guardProt, Bool.and_eq_true,
    Bool.and_eq_true] at hallows
  rw [hkind hallows.1.1] at hallows
  cases hallows.1.2

/-- A fault on the guard is at the watched bytes if and only if the access is a watched one. -/
theorem fault_watched_iff (hregion : OneRegion k config original)
    (hfault : faultAddress (guarded k config original) access = some address)
    (hguard : OnGuard config address) (hnative : faultAddress original access = none)
    (hstraight : Straight config access) :
    (config.watchLo ≤ address ∧ address < config.watchHi) ↔ watches config access = true := by
  obtain ⟨hdenied, ⟨hge, hlt⟩, hbefore⟩ := faultAddress_eq_some.mp hfault
  constructor
  · rintro ⟨hlo, hhi⟩
    refine watches_iff.mpr ⟨fun hwrites ↦ ?_, address, hlo, hhi, hge, hlt⟩
    have hallows := faultAddress_eq_none.mp hnative address hge hlt
    rw [hregion address hguard] at hallows
    rw [guarded_byte, if_pos hguard, allows_guardProt, hwrites, hallows, Bool.and_true,
      Bool.true_and] at hdenied
    exact Bool.not_eq_eq_eq_not.mp hdenied
  · intro hwatched
    obtain ⟨hkind, byte, hlo, hhi, hge', hlt'⟩ := watches_iff.mp hwatched
    have hle : address ≤ byte := by
      by_contra hafter
      have hallows := hbefore byte hge' (Nat.lt_of_not_le hafter)
      rw [guarded_byte, if_pos (onGuard_of_watched hlo hhi), allows_guardProt, Bool.and_eq_true,
        Bool.and_eq_true] at hallows
      rw [hkind hallows.1.1] at hallows
      cases hallows.1.2
    refine ⟨?_, hle.trans_lt hhi⟩
    rcases hstraight hwatched with habove | hfirst
    · exact habove.trans hge
    · exact hfirst.trans_le hguard.1

/-- A fault off the guard is one of the target. -/
theorem native_of_fault (hfault : faultAddress (guarded k config original) access = some address)
    (hguard : ¬OnGuard config address) : (faultAddress original access).isSome := by
  obtain ⟨hdenied, ⟨hge, hlt⟩, -⟩ := faultAddress_eq_some.mp hfault
  rw [guarded_byte, if_neg hguard] at hdenied
  rw [Option.isSome_iff_ne_none]
  intro hnone
  rw [faultAddress_eq_none.mp hnone address hge hlt] at hdenied
  cases hdenied

/-- An access that does not touch the guard is not changed by it. -/
theorem faultAddress_guarded (h : ¬Touches config access) :
    faultAddress (guarded k config original) access = faultAddress original access := by
  have hoff : ∀ byte, access.address ≤ byte → byte < access.address + access.width →
      guarded k config original (byte / pageSize) = original (byte / pageSize) := by
    intro byte hge hlt
    rw [guarded_byte, if_neg fun hguard ↦ h ⟨byte, hguard, hge, hlt⟩]
  cases hfault : faultAddress original access with
  | none =>
    refine faultAddress_eq_none.mpr fun byte hge hlt ↦ ?_
    rw [hoff byte hge hlt]
    exact faultAddress_eq_none.mp hfault byte hge hlt
  | some address =>
    obtain ⟨hdenied, ⟨hge, hlt⟩, hbefore⟩ := faultAddress_eq_some.mp hfault
    refine faultAddress_eq_some.mpr ⟨?_, ⟨hge, hlt⟩, fun byte hge' hlt' ↦ ?_⟩
    · rw [hoff address hge hlt]
      exact hdenied
    · rw [hoff byte hge' (hlt'.trans hlt)]
      exact hbefore byte hge' hlt'

end Accesses

/-! ### Threads between requests -/

/-- A thread is not in the page with the gadgets, and can name the pages of the guard. -/
def Placed (k : WatchKernel) (config : WatchConfig) (regs : ThreadRegs) : Prop :=
  (Monitor.mode32 regs = true → config.pageEnd < 2 ^ 32) ∧
    ∀ scratch, k.allocates = some scratch → regs.rip ≠ scratch ∧ regs.rip ≠ scratch + 16

/-- What a thread does goes on as it would without the watch: an access to the pages of the guard is
allowed by their protection, and a signal is none that the loop takes for one of the tracing. -/
def Proper (k : WatchKernel) (config : WatchConfig) (original : ℕ → MemProt) : Happening → Prop
  | .access _ access => Placed k config access.after ∧
      (Touches config access → faultAddress original access = none)
  | .signal _ signal address => signal ≠ sigtrap ∧ signal ∉ groupStops ∧
      (signal = sigsegv → ¬OnGuard config address)
  | .clone _ child regs => child ≠ 0 ∧ Placed k config regs
  | .exit _ => True

/-- An access that the guard finds is straight, and one that it misses is not watched. -/
def Mild (config : WatchConfig) (lifted : Bool) (phase : Phase) (e : Happening) : Prop :=
  ∀ tid access, e = .access tid access →
    if lifted then phase = .watching → watches config access = false else Straight config access

/-- A stop that the loop deals with as it should. -/
def Expected (k : WatchKernel) (config : WatchConfig) (original : ℕ → MemProt) (t : Thread) :
    Stop → Prop
  | .fault address access => t.stuck = some access ∧ Placed k config access.after ∧
      faultAddress (guarded k config original) access = some address ∧ Straight config access ∧
      (Touches config access → faultAddress original access = none)
  | .signal signal address => signal ≠ sigtrap ∧ signal ∉ groupStops ∧
      (signal = sigsegv → ¬OnGuard config address)
  | .clone child => child ≠ 0
  | .trap => True
  | .ended => False

/-- A thread that runs, has ended, or has stopped for something that is still to be found. -/
structure Kept (k : WatchKernel) (config : WatchConfig) (original : ℕ → MemProt) (t : Thread) : Prop
    where
  regs : t.regs = t.native
  placed : Placed k config t.regs
  idle : t.halted = false → t.held = none ∧ (t.alive = true → t.pending = none) ∧
    ∀ stop, t.pending = some stop → stop = .ended
  stopped : t.halted = true → t.alive = true ∧ ∃ stop, t.pending = some stop ∧
    t.held = nativeSignal original stop ∧ Expected k config original t stop

/-- A thread that runs stops for something the loop deals with as it should. -/
theorem Kept.stop {k : WatchKernel} {config : WatchConfig} {original : ℕ → MemProt} {t t' : Thread}
    (h : Kept k config original t)
    (halive : t.alive = true) {stop : Stop} (hexpected : Expected k config original t' stop)
    (hregs : t'.regs = t.regs) (hnative : t'.native = t.native) (hhalted : t'.halted = true)
    (halive' : t'.alive = t.alive) (hpending : t'.pending = some stop)
    (hheld : t'.held = nativeSignal original stop) : Kept k config original t' where
  regs := hregs.trans (h.regs.trans hnative.symm)
  placed := hregs ▸ h.placed
  idle := fun hrunning ↦ by rw [hhalted] at hrunning; cases hrunning
  stopped := fun _ ↦ ⟨halive'.trans halive, stop, hpending, hheld, hexpected⟩

/-- A thread is attached, or was created by one that is. -/
inductive Owned (attached : List ℕ) (threads : ℕ → Thread) : ℕ → Prop
  | attached {tid : ℕ} (h : tid ∈ attached) : Owned attached threads tid
  | created {tid parent : ℕ} (h : (threads parent).pending = some (.clone tid))
      (hparent : Owned attached threads parent) : Owned attached threads tid

theorem Owned.attach {attached attached' : List ℕ} {threads : ℕ → Thread} {tid : ℕ}
    (hsubset : ∀ other ∈ attached, other ∈ attached') (h : Owned attached threads tid) :
    Owned attached' threads tid := by
  induction h with
  | attached hmem => exact .attached (hsubset _ hmem)
  | created hclone _ ih => exact .created hclone ih

/-- Every thread that is traced is owned. -/
def AllOwned (attached : List ℕ) (threads : ℕ → Thread) : Prop :=
  ∀ tid, (threads tid).alive = true → (threads tid).traced = true → Owned attached threads tid

namespace Monitor

/-- The threads of the target while the thread `w` is dealt with. -/
structure Steady (k : WatchKernel) (config : WatchConfig) (w : Option ℕ) (tracing lifted : Bool)
    (s : Monitor) : Prop where
  kept : ∀ tid, w ≠ some tid → Kept k config s.original (s.threads tid)
  handled : ∀ tid, w = some tid → (s.threads tid).halted = true ∧ (s.threads tid).alive = true
  traced : tracing = true → ∀ tid, (s.threads tid).alive = true → (s.threads tid).traced = true
  guard : lifted = false → tracing = true
  protection : s.protection = if lifted then s.original else guarded k config s.original
  lost : s.lost = []
  strays : s.strays = []

/-- What the threads do leaves the rest as it is, and threads that are stopped too. -/
structure Later (config : WatchConfig) (s s' : Monitor) : Prop where
  protection : s'.protection = s.protection
  original : s'.original = s.original
  phase : s'.phase = s.phase
  scratch : s'.scratch = s.scratch
  attached : s'.attached = s.attached
  results : s'.results = s.results
  hits : hits config s'.performed = hits config s.performed
  still : ∀ tid, (s.threads tid).halted = true → (s.threads tid).alive = true →
    s'.threads tid = s.threads tid

variable {k : WatchKernel} {config : WatchConfig} {w : Option ℕ} {tracing lifted : Bool}
  {s s' s'' : Monitor} {tid : ℕ}

theorem Later.refl (config : WatchConfig) (s : Monitor) : Later config s s where
  protection := rfl
  original := rfl
  phase := rfl
  scratch := rfl
  attached := rfl
  results := rfl
  hits := rfl
  still := fun _ _ _ ↦ rfl

theorem Later.trans (h : Later config s s') (h' : Later config s' s'') : Later config s s'' where
  protection := h'.protection.trans h.protection
  original := h'.original.trans h.original
  phase := h'.phase.trans h.phase
  scratch := h'.scratch.trans h.scratch
  attached := h'.attached.trans h.attached
  results := h'.results.trans h.results
  hits := h'.hits.trans h.hits
  still := fun tid hhalted halive ↦ by
    have hsame := h.still tid hhalted halive
    rw [← hsame] at hhalted halive
    exact (h'.still tid hhalted halive).trans hsame

theorem modify_self (tid : ℕ) (f : Thread → Thread) (s : Monitor) :
    (s.modify tid f).threads tid = f (s.threads tid) := Function.update_self _ _ _

theorem modify_ne {other : ℕ} (h : other ≠ tid) (f : Thread → Thread) (s : Monitor) :
    (s.modify tid f).threads other = s.threads other := Function.update_of_ne h _ _

/-- Threads stay owned as long as the clone events are still to be found. -/
theorem owned_mono {attached : List ℕ} {threads threads' : ℕ → Thread}
    (h : ∀ parent child, (threads parent).pending = some (.clone child) →
      (threads' parent).pending = some (.clone child))
    (howned : Owned attached threads tid) : Owned attached threads' tid := by
  induction howned with
  | attached hmem => exact .attached hmem
  | created hpending _ ih => exact .created (h _ _ hpending) ih

/-- A thread with a clone event to be found is stopped. -/
theorem Steady.halted_of_clone (h : Steady k config w tracing lifted s) {child : ℕ}
    (hpending : (s.threads tid).pending = some (.clone child)) :
    (s.threads tid).halted = true ∧ (s.threads tid).alive = true := by
  by_cases hw : w = some tid
  · exact h.handled tid hw
  · have hkept := h.kept tid hw
    cases hhalted : (s.threads tid).halted with
    | true => exact ⟨rfl, (hkept.stopped hhalted).1⟩
    | false => cases (hkept.idle hhalted).2.2 _ hpending

/-- A thread that is not dealt with is changed into another. -/
theorem Steady.modify_kept (h : Steady k config w tracing lifted s) {f : Thread → Thread}
    (hfree : w ≠ some tid) (hkept : Kept k config s.original (f (s.threads tid)))
    (htraced : tracing = true → (f (s.threads tid)).alive = true →
      (f (s.threads tid)).traced = true) :
    Steady k config w tracing lifted (s.modify tid f) where
  kept := by
    intro other hw
    by_cases heq : other = tid
    · rw [heq, modify_self]
      exact hkept
    · rw [modify_ne heq]
      exact h.kept other hw
  handled := by
    intro other hw
    have hne : other ≠ tid := by
      rintro rfl
      exact hfree hw
    rw [modify_ne hne]
    exact h.handled other hw
  traced := by
    intro htracing other halive
    by_cases heq : other = tid
    · rw [heq, modify_self] at halive ⊢
      exact htraced htracing halive
    · rw [modify_ne heq] at halive ⊢
      exact h.traced htracing other halive
  guard := h.guard
  protection := h.protection
  lost := h.lost
  strays := h.strays

/-- A thread that runs, or has ended, is changed into another. -/
theorem Steady.modify (h : Steady k config w tracing lifted s) {f : Thread → Thread}
    (hfree : ¬((s.threads tid).halted = true ∧ (s.threads tid).alive = true))
    (hkept : Kept k config s.original (f (s.threads tid)))
    (htraced : tracing = true → (f (s.threads tid)).alive = true →
      (f (s.threads tid)).traced = true) :
    Steady k config w tracing lifted (s.modify tid f) :=
  h.modify_kept (fun hw ↦ hfree (h.handled tid hw)) hkept htraced

theorem later_modify {f : Thread → Thread}
    (hfree : ¬((s.threads tid).halted = true ∧ (s.threads tid).alive = true)) :
    Later config s (s.modify tid f) where
  protection := rfl
  original := rfl
  phase := rfl
  scratch := rfl
  attached := rfl
  results := rfl
  hits := rfl
  still := by
    intro other hhalted halive
    refine modify_ne ?_ _ _
    rintro rfl
    exact hfree ⟨hhalted, halive⟩

/-- Threads stay owned while time passes. -/
theorem Steady.owned_later (h : Steady k config w tracing lifted s) (hlater : Later config s s')
    {attached : List ℕ} (howned : Owned attached s.threads tid) : Owned attached s'.threads tid := by
  refine owned_mono (fun parent child hpending ↦ ?_) howned
  obtain ⟨hhalted, halive⟩ := h.halted_of_clone hpending
  rw [hlater.still parent hhalted halive]
  exact hpending

theorem Steady.owned_modify (h : Steady k config w tracing lifted s) {f : Thread → Thread}
    (hfree : ¬((s.threads tid).halted = true ∧ (s.threads tid).alive = true))
    {attached : List ℕ} (hall : AllOwned attached s.threads)
    (hsame : (f (s.threads tid)).alive = true → (f (s.threads tid)).traced = true →
      (s.threads tid).alive = true ∧ (s.threads tid).traced = true) :
    AllOwned attached (s.modify tid f).threads := by
  intro other halive htraced
  refine h.owned_later (later_modify hfree) ?_
  by_cases heq : other = tid
  · rw [heq, modify_self] at halive htraced
    rw [heq]
    exact hall tid (hsame halive htraced).1 (hsame halive htraced).2
  · rw [modify_ne heq] at halive htraced
    exact hall other halive htraced

/-- Time passes, and the threads are still as they should be. -/
structure Passes (k : WatchKernel) (config : WatchConfig) (w : Option ℕ) (tracing lifted : Bool)
    (s s' : Monitor) : Prop extends Later config s s' where
  steady : Steady k config w tracing lifted s'
  owned : ∀ attached, AllOwned attached s.threads → AllOwned attached s'.threads

theorem Steady.passes_refl (h : Steady k config w tracing lifted s) :
    Passes k config w tracing lifted s s :=
  { Later.refl config s with
    steady := h
    owned := fun _ hall ↦ hall }

theorem Passes.trans (h : Passes k config w tracing lifted s s')
    (h' : Passes k config w tracing lifted s' s'') : Passes k config w tracing lifted s s'' :=
  { h.toLater.trans h'.toLater with
    steady := h'.steady
    owned := fun attached hall ↦ h'.owned attached (h.owned attached hall) }

/-! ### What threads do -/

theorem running_iff {t : Thread} : t.running = true ↔ t.alive = true ∧ t.halted = false := by
  unfold Thread.running
  rw [Bool.and_eq_true, Bool.not_eq_true']

theorem hits_concat (performed : List (ℕ × DataAccess)) (instruction : ℕ) (access : DataAccess) :
    hits config (performed ++ [(instruction, access)]) = fun other ↦
      hits config performed other + if instruction = other ∧ watches config access = true then 1
        else 0 := by
  funext other
  unfold hits
  rw [List.countP_append, List.countP_singleton]
  simp only [Bool.and_eq_true, decide_eq_true_eq]

theorem Steady.stopAt (h : Steady k config w tracing lifted s)
    (hrunning : (s.threads tid).running = true) {stop : Stop}
    (hexpected : Expected k config s.original ((stopAt tid stop s).threads tid) stop) :
    Steady k config w tracing lifted (stopAt tid stop s) := by
  obtain ⟨halive, hhalted⟩ := running_iff.mp hrunning
  have hfree : ¬((s.threads tid).halted = true ∧ (s.threads tid).alive = true) := by
    rw [hhalted]
    exact fun hfalse ↦ Bool.false_ne_true hfalse.1
  have hw : w ≠ some tid := fun hw ↦ hfree (h.handled tid hw)
  unfold Monitor.stopAt at hexpected ⊢
  rw [modify_self] at hexpected
  exact h.modify hfree ((h.kept tid hw).stop halive hexpected rfl rfl rfl rfl rfl rfl)
    fun htracing _ ↦ h.traced htracing tid halive

theorem free_of_running (hrunning : (s.threads tid).running = true) :
    ¬((s.threads tid).halted = true ∧ (s.threads tid).alive = true) := by
  rw [(running_iff.mp hrunning).2]
  exact fun hfalse ↦ Bool.false_ne_true hfalse.1

/-- An access that gets through. -/
theorem Steady.perform (h : Steady k config w tracing lifted s)
    (hrunning : (s.threads tid).running = true) {access : DataAccess}
    (hplaced : Placed k config access.after) :
    Steady k config w tracing lifted (perform tid access s) := by
  obtain ⟨halive, hhalted⟩ := running_iff.mp hrunning
  have hfree := free_of_running hrunning
  have hkept := h.kept tid fun hw ↦ hfree (h.handled tid hw)
  obtain ⟨hheld, hpending, hended⟩ := hkept.idle hhalted
  have hmodified := h.modify (f := fun t ↦
      { t with regs := access.after, native := access.after, stuck := none }) hfree
    { regs := rfl
      placed := hplaced
      idle := fun _ ↦ ⟨hheld, hpending, hended⟩
      stopped := fun hfalse ↦ by rw [hhalted] at hfalse; cases hfalse }
    fun htracing _ ↦ h.traced htracing tid halive
  exact { hmodified with }

theorem later_perform (hrunning : (s.threads tid).running = true) {access : DataAccess}
    (hmissed : s.phase = .watching → watches config access = false) :
    Later config s (perform tid access s) := by
  have hmodified : Later config s (s.modify tid fun t ↦
      { t with regs := access.after, native := access.after, stuck := none }) :=
    later_modify (free_of_running hrunning)
  refine { hmodified with hits := ?_ }
  unfold Monitor.perform
  dsimp only
  split_ifs with hphase
  · rw [hits_concat]
    funext other
    rw [hmissed hphase, if_neg fun hfalse ↦ Bool.false_ne_true hfalse.2, Nat.add_zero]
  · rfl

/-- A thread that ends. -/
theorem Steady.finish (h : Steady k config w tracing lifted s)
    (hrunning : (s.threads tid).running = true) :
    Steady k config w tracing lifted (finish tid s) := by
  have hfree := free_of_running hrunning
  have hkept := h.kept tid fun hw ↦ hfree (h.handled tid hw)
  refine h.modify hfree ⟨hkept.regs, hkept.placed, fun _ ↦ ⟨rfl, ?_, ?_⟩, ?_⟩ ?_
  · exact fun hfalse ↦ nomatch hfalse
  · intro stop hpending
    exact ((Option.ite_none_right_eq_some.mp hpending).2 |> Option.some.inj).symm
  · exact fun hfalse ↦ nomatch hfalse
  · exact fun _ hfalse ↦ nomatch hfalse

theorem kept_free {regs : ThreadRegs} (hplaced : Placed k config regs) (original : ℕ → MemProt)
    (alive traced : Bool) : Kept k config original
      { Thread.free alive regs with traced := traced } where
  regs := rfl
  placed := hplaced
  idle := fun _ ↦ ⟨rfl, fun _ ↦ rfl, fun _ hfalse ↦ nomatch hfalse⟩
  stopped := fun hfalse ↦ nomatch hfalse

/-- A thread that begins. -/
theorem create_spec (h : Steady k config w tracing lifted s)
    (hrunning : (s.threads tid).running = true) {child : ℕ} {regs : ThreadRegs}
    (hdead : (s.threads child).alive = false) (hchild : child ≠ 0) (hplaced : Placed k config regs) :
    Passes k config w tracing lifted s (create tid child regs s) := by
  obtain ⟨halive, hhalted⟩ := running_iff.mp hrunning
  have hfree : ¬((s.threads child).halted = true ∧ (s.threads child).alive = true) := by
    rw [hdead]
    exact fun hfalse ↦ Bool.false_ne_true hfalse.2
  have hne : tid ≠ child := by
    rintro rfl
    rw [hdead] at halive
    cases halive
  unfold Monitor.create
  split_ifs with htraced
  · set born := s.modify child fun _ ↦ { Thread.free true regs with traced := true } with hborn
    have hsteady : Steady k config w tracing lifted born :=
      h.modify hfree (kept_free hplaced _ _ _) fun _ _ ↦ rfl
    have hself : born.threads child = { Thread.free true regs with traced := true } :=
      modify_self _ _ _
    have hwaiting : Steady k config w tracing lifted (stopAt child .trap born) :=
      hsteady.stopAt (by rw [hself]; rfl) trivial
    have hparent : (stopAt child .trap born).threads tid = s.threads tid :=
      (modify_ne hne _ _).trans (modify_ne hne _ _)
    have hstopped : Steady k config w tracing lifted
        (stopAt tid (.clone child) (stopAt child .trap born)) :=
      hwaiting.stopAt (by rw [hparent]; exact hrunning) hchild
    have hchildFree : ¬((born.threads child).halted = true ∧ (born.threads child).alive = true) := by
      rw [hself]
      exact fun hfalse ↦ nomatch hfalse.1
    have htidFree : ¬(((stopAt child .trap born).threads tid).halted = true ∧
        ((stopAt child .trap born).threads tid).alive = true) := by
      rw [hparent]
      exact free_of_running hrunning
    have hbegun : Later config s born := later_modify hfree
    have hlater : Later config s (stopAt tid (.clone child) (stopAt child .trap born)) :=
      (hbegun.trans (later_modify hchildFree)).trans (later_modify htidFree)
    refine { hlater with
      steady := hstopped
      owned := fun attached hall other hother htraced' ↦ ?_ }
    by_cases heq : other = child
    · rw [heq]
      refine .created ?_ (h.owned_later hlater (hall tid halive htraced))
      exact congrArg Thread.pending (modify_self _ _ _)
    · refine h.owned_later hlater ?_
      by_cases heq' : other = tid
      · rw [heq']
        exact hall tid halive htraced
      · have hsame : (stopAt tid (.clone child) (stopAt child .trap born)).threads other =
            s.threads other :=
          (modify_ne heq' _ _).trans ((modify_ne heq _ _).trans (modify_ne heq _ _))
        rw [hsame] at hother htraced'
        exact hall other hother htraced'
  · have hbegun : Later config s (s.modify child fun _ ↦ Thread.free true regs) := later_modify hfree
    exact { hbegun with
      steady := h.modify hfree (kept_free hplaced _ _ _) fun htracing ↦
        absurd (h.traced htracing tid halive) htraced
      owned := fun attached hall ↦ h.owned_modify hfree hall fun _ hfalse ↦ nomatch hfalse }

/-- A fault that the guard or the pages themselves cause is one the loop expects. -/
theorem Steady.expected_fault (h : Steady k config w tracing lifted s) {access : DataAccess}
    {address : ℕ} (hplaced : Placed k config access.after)
    (hfault : faultAddress s.protection access = some address)
    (hnative : Touches config access → faultAddress s.original access = none)
    (hstraight : lifted = false → Straight config access) {t : Thread}
    (hstuck : t.stuck = some access) :
    Expected k config s.original t (.fault address access) := by
  rw [h.protection] at hfault
  cases lifted with
  | false => exact ⟨hstuck, hplaced, hfault, hstraight rfl, hnative⟩
  | true =>
    have hout : ¬Touches config access := by
      intro htouches
      rw [if_pos rfl, hnative htouches] at hfault
      cases hfault
    refine ⟨hstuck, hplaced, (faultAddress_guarded hout).trans hfault, ?_, hnative⟩
    exact fun hwatched ↦ absurd (touches_of_watches hwatched) hout

/-- A thread stops, and time passes. -/
theorem Steady.passes_stopAt (h : Steady k config w tracing lifted s)
    (hrunning : (s.threads tid).running = true) {stop : Stop}
    (hexpected : Expected k config s.original ((Monitor.stopAt tid stop s).threads tid) stop) :
    Passes k config w tracing lifted s (Monitor.stopAt tid stop s) := by
  have hlater : Later config s (Monitor.stopAt tid stop s) := later_modify (free_of_running hrunning)
  exact { hlater with
    steady := h.stopAt hrunning hexpected
    owned := fun attached hall ↦ h.owned_modify (free_of_running hrunning) hall fun halive htraced ↦
      ⟨halive, htraced⟩ }

/-- A thread makes an access that is not watched, and time passes. -/
theorem Steady.passes_perform (h : Steady k config w tracing lifted s)
    (hrunning : (s.threads tid).running = true) {access : DataAccess}
    (hplaced : Placed k config access.after)
    (hmissed : s.phase = .watching → watches config access = false) :
    Passes k config w tracing lifted s (Monitor.perform tid access s) := by
  refine { later_perform hrunning hmissed with
    steady := h.perform hrunning hplaced
    owned := fun attached hall ↦ ?_ }
  exact h.owned_modify (f := fun t ↦
    { t with regs := access.after, native := access.after, stuck := none })
    (free_of_running hrunning) hall fun halive htraced ↦ ⟨halive, htraced⟩

theorem happen_spec (h : Steady k config w tracing lifted s) {e : Happening}
    (hproper : Proper k config s.original e) (hmild : Mild config lifted s.phase e) :
    Passes k config w tracing lifted s (happen s e) := by
  cases e with
  | access tid access =>
    obtain ⟨hplaced, hnative⟩ := hproper
    have hmild := hmild tid access rfl
    unfold happen
    dsimp only
    by_cases hrunning : (s.threads tid).running = true
    · rw [if_pos hrunning]
      cases hfault : faultAddress s.protection access with
      | none =>
        refine h.passes_perform hrunning hplaced ?_
        rw [h.protection] at hfault
        cases lifted with
        | false => exact fun _ ↦ not_watches_of_guarded hfault
        | true => exact hmild
      | some address =>
        dsimp only
        split_ifs with htraced
        · refine h.passes_stopAt hrunning (h.expected_fault hplaced hfault hnative ?_ ?_)
          · rintro rfl
            exact hmild
          · exact congrArg Thread.stuck (modify_self _ _ _)
        · have hlifted : lifted = true := by
            rw [← Bool.not_eq_false]
            exact fun hlifted ↦
              htraced (h.traced (h.guard hlifted) tid (running_iff.mp hrunning).1)
          rw [h.protection, if_pos hlifted] at hfault
          rw [strayFault, if_neg (by rw [hfault]; exact Option.some_ne_none _)]
          exact h.passes_refl
    · rw [if_neg hrunning]
      exact h.passes_refl
  | signal tid signal address =>
    unfold happen
    dsimp only
    split_ifs with hrunning
    · exact h.passes_stopAt (Bool.and_eq_true_iff.mp hrunning).1 hproper
    · exact h.passes_refl
  | clone tid child regs =>
    unfold happen
    dsimp only
    split_ifs with hrunning
    · rw [Bool.and_eq_true, Bool.and_eq_true, Bool.not_eq_true'] at hrunning
      exact create_spec h hrunning.1.1 hrunning.1.2 hproper.1 hproper.2
    · exact h.passes_refl
  | exit tid =>
    unfold happen
    dsimp only
    split_ifs with hrunning
    · have hlater : Later config s (Monitor.finish tid s) := later_modify (free_of_running hrunning)
      exact { hlater with
        steady := h.finish hrunning
        owned := fun attached hall ↦
          h.owned_modify (free_of_running hrunning) hall fun hfalse ↦ nomatch hfalse }
    · exact h.passes_refl

/-- So does every row of happenings. -/
theorem happens_spec (happenings : List Happening) (h : Steady k config w tracing lifted s)
    (hproper : ∀ e ∈ happenings, Proper k config s.original e)
    (hmild : ∀ e ∈ happenings, Mild config lifted s.phase e) :
    Passes k config w tracing lifted s (happenings.foldl happen s) := by
  induction happenings generalizing s with
  | nil => exact h.passes_refl
  | cons e rest ih =>
    have hfirst := happen_spec h (hproper e List.mem_cons_self) (hmild e List.mem_cons_self)
    refine hfirst.trans (ih hfirst.steady (fun other hother ↦ ?_) fun other hother ↦ ?_)
    · rw [hfirst.original]
      exact hproper other (List.mem_cons_of_mem _ hother)
    · rw [hfirst.phase]
      exact hmild other (List.mem_cons_of_mem _ hother)

/-! ### The thread that is dealt with -/

end Monitor

/-- No thread makes a watched access before the request. -/
def Alone (k : WatchKernel) (config : WatchConfig) (clock : ℕ) : Prop :=
  ∀ tid access, .access tid access ∈ k.happens clock → watches config access = false

/-- The threads are as they should be, and from some time on no access reaches into the watched
bytes from below, no stop comes before a step, and the requests succeed. -/
structure Undisturbed (k : WatchKernel) (config : WatchConfig) (original : ℕ → MemProt) (time : ℕ) :
    Prop where
  proper : ∀ clock, ∀ e ∈ k.happens clock, Proper k config original e
  straight : ∀ clock, time ≤ clock → ∀ tid access, .access tid access ∈ k.happens clock →
    Straight config access
  cuts : ∀ clock, time ≤ clock → k.cuts clock = none
  mprotects : ∀ clock, time ≤ clock → k.mprotects clock = true
  interrupts : ∀ clock, time ≤ clock → k.interrupts clock = true

namespace Monitor

variable {k : WatchKernel} {config : WatchConfig} {w : Option ℕ} {tracing lifted lifted' : Bool}
  {s s' s'' : Monitor} {tid time : ℕ}

theorem pass_spec (hundisturbed : Undisturbed k config s.original time)
    (h : Steady k config w tracing lifted s) (htime : lifted = false → time ≤ s.clock)
    (halone : lifted = true → s.phase = .watching → Alone k config s.clock) :
    Passes k config w tracing lifted s (pass k s) := by
  have hpasses := happens_spec (k.happens s.clock) h (hundisturbed.proper s.clock) fun e he ↦ by
    rintro tid access rfl
    cases lifted with
    | false => exact hundisturbed.straight s.clock (htime rfl) tid access he
    | true => exact fun hphase ↦ halone rfl hphase tid access he
  have hsteady : Steady k config w tracing lifted (pass k s) := { hpasses.steady with }
  exact { hpasses with steady := hsteady }

/-- The thread that is dealt with is changed. -/
theorem Steady.modify_handled (h : Steady k config (some tid) tracing lifted s) {f : Thread → Thread}
    (hhalted : (f (s.threads tid)).halted = true)
    (halive : (f (s.threads tid)).alive = true)
    (htraced : (f (s.threads tid)).traced = (s.threads tid).traced) :
    Steady k config (some tid) tracing lifted (s.modify tid f) where
  kept := by
    intro other hw
    have hne : other ≠ tid := by
      rintro rfl
      exact hw rfl
    rw [modify_ne hne]
    exact h.kept other hw
  handled := by
    rintro _ ⟨rfl⟩
    rw [modify_self]
    exact ⟨hhalted, halive⟩
  traced := by
    intro htracing other hother
    by_cases heq : other = tid
    · rw [heq, modify_self, htraced]
      exact h.traced htracing tid (h.handled tid rfl).2
    · rw [modify_ne heq] at hother ⊢
      exact h.traced htracing other hother
  guard := h.guard
  protection := h.protection
  lost := h.lost
  strays := h.strays

/-- The other threads stay owned. -/
theorem owned_modify_handled {attached : List ℕ} {f : Thread → Thread}
    (hpending : ∀ child, (s.threads tid).pending ≠ some (.clone child))
    (halive : (f (s.threads tid)).alive = (s.threads tid).alive)
    (htraced : (f (s.threads tid)).traced = (s.threads tid).traced)
    (hall : AllOwned attached s.threads) : AllOwned attached (s.modify tid f).threads := by
  intro other hother htraced'
  have hbefore : Owned attached s.threads other := by
    by_cases heq : other = tid
    · rw [heq, modify_self] at hother htraced'
      rw [heq]
      exact hall tid (halive ▸ hother) (htraced ▸ htraced')
    · rw [modify_ne heq] at hother htraced'
      exact hall other hother htraced'
  refine owned_mono (fun parent child hclone ↦ ?_) hbefore
  have hne : parent ≠ tid := by
    rintro rfl
    exact hpending child hclone
  rw [modify_ne hne]
  exact hclone

end Monitor

/-- A stop of the thread has been found, and it was for no signal of the target. -/
structure Caught (k : WatchKernel) (config : WatchConfig) (t : Thread) : Prop where
  halted : t.halted = true
  alive : t.alive = true
  pending : t.pending = none
  held : t.held = none
  regs : t.regs = t.native
  placed : Placed k config t.regs

namespace Monitor

variable {k : WatchKernel} {config : WatchConfig} {w : Option ℕ} {tracing lifted lifted' : Bool}
  {s s' s'' : Monitor} {tid time : ℕ}

/-- What the loop does with a thread leaves the others as they should be. -/
structure Deals (k : WatchKernel) (config : WatchConfig) (w : Option ℕ) (tracing lifted : Bool)
    (s s' : Monitor) : Prop where
  steady : Steady k config w tracing lifted s'
  original : s'.original = s.original
  phase : s'.phase = s.phase
  scratch : s'.scratch = s.scratch
  attached : s'.attached = s.attached
  results : s'.results = s.results
  hits : hits config s'.performed = hits config s.performed
  owned : ∀ attached, AllOwned attached s.threads → AllOwned attached s'.threads

theorem Deals.trans {w' : Option ℕ} (h : Deals k config w tracing lifted s s')
    (h' : Deals k config w' tracing lifted' s' s'') : Deals k config w' tracing lifted' s s'' where
  steady := h'.steady
  original := h'.original.trans h.original
  phase := h'.phase.trans h.phase
  scratch := h'.scratch.trans h.scratch
  attached := h'.attached.trans h.attached
  results := h'.results.trans h.results
  hits := h'.hits.trans h.hits
  owned := fun attached hall ↦ h'.owned attached (h.owned attached hall)

theorem Passes.deals (h : Passes k config w tracing lifted s s') :
    Deals k config w tracing lifted s s' := { h with }

/-- The thread itself is changed. -/
theorem Steady.deals_modify (h : Steady k config (some tid) tracing lifted s) {f : Thread → Thread}
    (hhalted : (f (s.threads tid)).halted = true)
    (halive : (f (s.threads tid)).alive = (s.threads tid).alive)
    (htraced : (f (s.threads tid)).traced = (s.threads tid).traced)
    (hpending : ∀ child, (s.threads tid).pending ≠ some (.clone child)) :
    Deals k config (some tid) tracing lifted s (s.modify tid f) where
  steady := h.modify_handled hhalted (halive.trans (h.handled tid rfl).2) htraced
  original := rfl
  phase := rfl
  scratch := rfl
  attached := rfl
  results := rfl
  hits := rfl
  owned := fun _ hall ↦ owned_modify_handled hpending halive htraced hall

/-- The gadgets are for `mprotect` of the pages. -/
theorem syscallAt_gadgetRegs {regs : ThreadRegs} {prot : MemProt} (hprot : prot < 2 ^ 32)
    (hnarrow : mode32 regs = true → config.pageEnd < 2 ^ 32) (hscratch : s'.scratch = s.scratch) :
    s'.syscallAt (s.gadgetRegs nrMprotect config.pageStart config.pageLen prot regs) =
      some (config.pageStart, config.pageLen, prot) := by
  by_cases hmode : mode32 regs = true
  · have hend := hnarrow hmode
    have hstart : config.pageStart < 2 ^ 32 := by
      refine lt_of_le_of_lt ?_ hend
      unfold WatchConfig.pageStart WatchConfig.pageEnd WatchConfig.watchHi WatchConfig.watchLo pageSize
      omega
    have hlen : config.pageLen < 2 ^ 32 := (Nat.sub_le _ _).trans_lt hend
    have hgadget : s.gadget32 ≠ s'.gadget64 := by
      unfold gadget32 gadget64
      omega
    have hsame : s'.gadget32 = s.gadget32 := congrArg (· + 16) hscratch
    rw [gadgetRegs, if_pos hmode, if_pos rfl, syscallAt, if_neg fun hfalse ↦ hgadget hfalse.1, hsame,
      if_pos ⟨rfl, rfl⟩, Nat.mod_eq_of_lt hstart, Nat.mod_eq_of_lt hlen, Nat.mod_eq_of_lt hprot]
  · rw [gadgetRegs, if_neg hmode, syscallAt, if_pos ⟨hscratch.symm, rfl⟩]

/-- A single step of a stopped thread, and the wait for it. -/
theorem stepOver_eq (hhalted : ((pass k s).threads tid).halted = true)
    (hheld : ((pass k s).threads tid).held = none) (hcut : k.cuts s.clock = none) :
    stepOver k tid s = (waitFor k tid (execute k s.clock tid (pass k s))).1 := by
  have hdeliver : deliver tid 0 (pass k s) = pass k s := by
    rw [deliver, hheld]
    rfl
  rw [stepOver, singleStep, if_pos hhalted, hcut, hdeliver]

theorem collect_threads (tid : ℕ) (s : Monitor) :
    (collect tid s).1.threads tid = { s.threads tid with pending := none } :=
  modify_self tid (fun t ↦ { t with pending := none }) s

/-- The thread stops after its step and is found. -/
theorem stepOver_spec {changed : Monitor} (hundisturbed : Undisturbed k config s.original time)
    (hhalted : ((pass k s).threads tid).halted = true)
    (hheld : ((pass k s).threads tid).held = none) (htime : time ≤ s.clock)
    (hexecute : execute k s.clock tid (pass k s) = stopAt tid .trap changed)
    (hchanged : Steady k config (some tid) true lifted changed)
    (horiginal : changed.original = s.original) (hclock : changed.clock = s.clock + 1)
    (hpending : (changed.threads tid).pending = none)
    (halone : lifted = true → changed.phase = .watching → Alone k config (s.clock + 1)) :
    Deals k config (some tid) true lifted changed (stepOver k tid s) ∧
      (stepOver k tid s).threads tid =
        { changed.threads tid with halted := true, pending := none, held := none } ∧
      (stepOver k tid s).clock = s.clock + 2 := by
  have hresult : stepOver k tid s = (collect tid (pass k (stopAt tid .trap changed))).1 := by
    rw [stepOver_eq hhalted hheld (hundisturbed.cuts s.clock htime), hexecute]
    rfl
  have hstops : Deals k config (some tid) true lifted changed (stopAt tid .trap changed) :=
    hchanged.deals_modify rfl rfl rfl fun child hfalse ↦ by
      rw [hpending] at hfalse
      cases hfalse
  have hstopped : (stopAt tid .trap changed).threads tid =
      { changed.threads tid with halted := true, pending := some .trap, held := none } :=
    modify_self _ _ _
  have hpass : Passes k config (some tid) true lifted (stopAt tid .trap changed)
      (pass k (stopAt tid .trap changed)) := by
    have hlater : Undisturbed k config (stopAt tid .trap changed).original time :=
      horiginal.symm ▸ hundisturbed
    refine pass_spec hlater hstops.steady (fun _ ↦ ?_) ?_
    · exact (htime.trans (Nat.le_succ _)).trans_eq hclock.symm
    · intro hlifted hphase
      change Alone k config changed.clock
      rw [hclock]
      exact halone hlifted hphase
  have hstill : (pass k (stopAt tid .trap changed)).threads tid =
      { changed.threads tid with halted := true, pending := some .trap, held := none } :=
    (hpass.still tid (by rw [hstopped]) (hstops.steady.handled tid rfl).2).trans hstopped
  have hfinds : Deals k config (some tid) true lifted (pass k (stopAt tid .trap changed))
      (collect tid (pass k (stopAt tid .trap changed))).1 :=
    hpass.steady.deals_modify (f := fun t ↦ { t with pending := none }) (by rw [hstill]) rfl rfl
      fun child hfalse ↦ by
        rw [hstill] at hfalse
        cases hfalse
  rw [hresult]
  refine ⟨(hstops.trans hpass.deals).trans hfinds, ?_, ?_⟩
  · rw [collect_threads, hstill]
  · change changed.clock + 1 = _
    rw [hclock]

/-- The protection of the pages is changed by a thread that is as before after it. -/
theorem protectPages_spec {prot : MemProt} (hundisturbed : Undisturbed k config s.original time)
    (h : Steady k config (some tid) true lifted s) (hcaught : Caught k config (s.threads tid))
    (htime : time ≤ s.clock) (hprot : prot < 2 ^ 32)
    (hprotect : protect config.pageStart config.pageLen prot s.protection =
      if lifted' then s.original else guarded k config s.original)
    (halone : lifted = true → s.phase = .watching → Alone k config s.clock)
    (halone' : lifted' = true → s.phase = .watching → Alone k config (s.clock + 1)) :
    Deals k config (some tid) true lifted' s (protectPages k config prot tid s) ∧
      (protectPages k config prot tid s).threads tid = s.threads tid ∧
      (protectPages k config prot tid s).clock = s.clock + 2 := by
  set loaded := gadgetRegs s nrMprotect config.pageStart config.pageLen prot (s.threads tid).regs
    with hloaded
  have hnoClone : ∀ {t : Thread}, t.pending = none → ∀ child, t.pending ≠ some (.clone child) := by
    intro t hpending child hfalse
    rw [hpending] at hfalse
    cases hfalse
  -- the thread is sent to the gadget
  set entered := s.modify tid fun t ↦ { t with regs := loaded } with hentered
  have henters : Deals k config (some tid) true lifted s entered :=
    h.deals_modify hcaught.halted rfl rfl (hnoClone hcaught.pending)
  have henteredThread : entered.threads tid = { s.threads tid with regs := loaded } :=
    modify_self tid (fun t ↦ { t with regs := loaded }) s
  have hrun : Passes k config (some tid) true lifted entered (pass k entered) :=
    pass_spec (s := entered) hundisturbed henters.steady (fun _ ↦ htime) halone
  have hstill : (pass k entered).threads tid = { s.threads tid with regs := loaded } := by
    rw [hrun.still tid (henteredThread ▸ hcaught.halted) (henteredThread ▸ hcaught.alive)]
    exact henteredThread
  -- where it executes the `mprotect`
  have hsyscall : (pass k entered).syscallAt ((pass k entered).threads tid).regs =
      some (config.pageStart, config.pageLen, prot) := by
    rw [hstill]
    exact syscallAt_gadgetRegs hprot hcaught.placed.1 hrun.scratch
  set changed : Monitor := { pass k entered with
    protection := protect config.pageStart config.pageLen prot (pass k entered).protection }
    with hchanged
  have hexecute : execute k entered.clock tid (pass k entered) = stopAt tid .trap changed := by
    have hsucceeds : k.mprotects entered.clock = true := hundisturbed.mprotects s.clock htime
    rw [execute, hsyscall]
    dsimp only
    rw [if_pos hsucceeds]
  have hchanges : Deals k config (some tid) true lifted' entered changed :=
    { hrun with
      steady := { hrun.steady with
        guard := fun _ ↦ rfl
        protection := by
          change protect _ _ prot (pass k entered).protection = _
          rw [hrun.protection, hrun.original]
          exact hprotect } }
  have hchangedThread : changed.threads tid = { s.threads tid with regs := loaded } := hstill
  obtain ⟨hsteps, hthread, hclock⟩ := stepOver_spec (s := entered) hundisturbed
    (hstill ▸ hcaught.halted) (hstill ▸ hcaught.held) htime hexecute hchanges.steady hrun.original rfl
    (hchangedThread ▸ hcaught.pending) fun hlifted hphase ↦ halone' hlifted
      (hrun.phase.symm.trans hphase)
  -- and gets its registers back
  have hresult : protectPages k config prot tid s =
      (stepOver k tid entered).modify tid fun t ↦ { t with regs := (s.threads tid).regs } := by
    have hset : setRegs tid loaded s = entered := if_pos hcaught.halted
    rw [protectPages, injectSyscallGadget, if_pos hcaught.halted]
    dsimp only
    rw [hset]
    exact if_pos (by rw [hthread])
  have hleaves : Deals k config (some tid) true lifted' (stepOver k tid entered)
      ((stepOver k tid entered).modify tid fun t ↦ { t with regs := (s.threads tid).regs }) :=
    hsteps.steady.deals_modify (by rw [hthread]) rfl rfl (hnoClone (by rw [hthread]))
  rw [hresult]
  refine ⟨((henters.trans hchanges).trans hsteps).trans hleaves, ?_, hclock⟩
  rw [modify_self, hthread, hchangedThread]
  have hhalted := hcaught.halted
  have hpending := hcaught.pending
  have hheld := hcaught.held
  revert hhalted hpending hheld
  cases s.threads tid
  rintro ⟨⟩ ⟨⟩ ⟨⟩
  rfl

theorem hits_perform (tid : ℕ) (access : DataAccess) (s : Monitor) :
    hits config (perform tid access s).performed = fun instruction ↦
      hits config s.performed instruction +
        if s.phase = .watching ∧ (s.threads tid).native.rip = instruction ∧
          watches config access = true then 1 else 0 := by
  unfold Monitor.perform
  dsimp only
  split_ifs with hphase
  · rw [hits_concat]
    simp only [hphase, true_and]
  · simp only [hphase, false_and, if_false, Nat.add_zero]

/-- The thread makes the access it is stopped at. -/
theorem stepAccess_spec {access : DataAccess} (hundisturbed : Undisturbed k config s.original time)
    (h : Steady k config (some tid) true true s) (hcaught : Caught k config (s.threads tid))
    (hscratch : k.allocates = some s.scratch) (htime : time ≤ s.clock)
    (hstuck : (s.threads tid).stuck = some access)
    (hnative : faultAddress s.original access = none)
    (halone : s.phase = .watching → Alone k config s.clock)
    (halone' : s.phase = .watching → Alone k config (s.clock + 1)) :
    Deals k config (some tid) true true { s with performed := (perform tid access s).performed }
        (stepOver k tid s) ∧
      (stepOver k tid s).threads tid =
        { s.threads tid with regs := access.after, native := access.after, stuck := none } ∧
      (stepOver k tid s).clock = s.clock + 2 := by
  have hrun : Passes k config (some tid) true true s (pass k s) :=
    pass_spec hundisturbed h (fun _ ↦ htime) fun _ ↦ halone
  have hstill : (pass k s).threads tid = s.threads tid := hrun.still tid hcaught.halted hcaught.alive
  have hcode : (pass k s).syscallAt ((pass k s).threads tid).regs = none := by
    obtain ⟨hne, hne'⟩ := hcaught.placed.2 s.scratch hscratch
    rw [hstill, syscallAt, gadget64, gadget32, hrun.scratch, if_neg fun hfalse ↦ hne hfalse.1,
      if_neg fun hfalse ↦ hne' hfalse.1]
  have hexecute : execute k s.clock tid (pass k s) =
      stopAt tid .trap (perform tid access (pass k s)) := by
    rw [execute, hcode]
    dsimp only
    rw [hstill, hstuck]
    dsimp only
    rw [hrun.protection.trans (h.protection.trans (if_pos rfl)), hnative]
  have hperformed : (perform tid access (pass k s)).threads tid =
      { s.threads tid with regs := access.after, native := access.after, stuck := none } := by
    rw [← hstill]
    exact modify_self tid (fun t ↦
      { t with regs := access.after, native := access.after, stuck := none }) (pass k s)
  have hmodifies : Deals k config (some tid) true true (pass k s) ((pass k s).modify tid fun t ↦
      { t with regs := access.after, native := access.after, stuck := none }) := by
    refine hrun.steady.deals_modify (hstill ▸ hcaught.halted) rfl rfl fun child hfalse ↦ ?_
    rw [hstill, hcaught.pending] at hfalse
    cases hfalse
  have hperforms : Deals k config (some tid) true true
      { s with performed := (perform tid access s).performed } (perform tid access (pass k s)) :=
    { hrun.deals.trans hmodifies with
      steady := { hmodifies.steady with }
      hits := by
        change hits config (perform tid access (pass k s)).performed =
          hits config (perform tid access s).performed
        rw [hits_perform, hits_perform, hrun.hits, hrun.phase, hstill] }
  obtain ⟨hsteps, hthread, hclock⟩ := stepOver_spec hundisturbed (hstill ▸ hcaught.halted)
    (hstill ▸ hcaught.held) htime hexecute hperforms.steady hrun.original rfl
    (hperformed ▸ hcaught.pending) fun _ hphase ↦ halone' (hrun.phase.symm.trans hphase)
  refine ⟨hperforms.trans hsteps, ?_, hclock⟩
  rw [hthread, hperformed]
  have hhalted := hcaught.halted
  have hpending := hcaught.pending
  have hheld := hcaught.held
  revert hhalted hpending hheld
  cases s.threads tid
  rintro ⟨⟩ ⟨⟩ ⟨⟩
  rfl

theorem modify_modify (f g : Thread → Thread) :
    (s.modify tid f).modify tid g = s.modify tid fun t ↦ g (f t) := by
  unfold Monitor.modify
  dsimp only
  rw [Function.update_self, Function.update_idem]

/-- No signal is lost, and none comes from the watch. -/
theorem deliver_eq {signal : ℕ}
    (h : (s.threads tid).held = none ∧ signal = 0 ∨ (s.threads tid).held = some signal) :
    deliver tid signal s = s.modify tid fun t ↦ { t with held := none } := by
  rcases h with ⟨hnone, rfl⟩ | hsome
  · have hsame : s = s.modify tid fun t ↦ { t with held := none } := by
      have hthread : { s.threads tid with held := none } = s.threads tid := by
        rw [← hnone]
      unfold Monitor.modify
      dsimp only
      rw [hthread, Function.update_eq_self]
    rw [deliver, hnone]
    exact hsame
  · rw [deliver, hsome]
    dsimp only
    rw [if_pos rfl]
    rfl

/-- The thread goes on with the signal it is stopped for, if there is one. -/
theorem cont_spec (signal : ℕ) (h : Steady k config (some tid) tracing lifted s)
    (hpending : (s.threads tid).pending = none)
    (hregs : (s.threads tid).regs = (s.threads tid).native)
    (hplaced : Placed k config (s.threads tid).regs)
    (hsignal : (s.threads tid).held = none ∧ signal = 0 ∨ (s.threads tid).held = some signal) :
    Deals k config none tracing lifted s (cont tid signal s) ∧ (cont tid signal s).clock = s.clock := by
  have hresult : cont tid signal s = s.modify tid fun t ↦
      { t with held := none, halted := false, stuck := none } := by
    rw [cont, if_pos (h.handled tid rfl).1, deliver_eq hsignal, modify_modify]
  have hsteady : Steady k config none tracing lifted (s.modify tid fun t ↦
      { t with held := none, halted := false, stuck := none }) :=
    { kept := by
        intro other _
        by_cases heq : other = tid
        · rw [heq, modify_self]
          refine ⟨hregs, hplaced, fun _ ↦ ⟨rfl, fun _ ↦ hpending, fun stop hfalse ↦ ?_⟩,
            fun hfalse ↦ nomatch hfalse⟩
          change (s.threads tid).pending = some stop at hfalse
          rw [hpending] at hfalse
          cases hfalse
        · rw [modify_ne heq]
          exact h.kept other fun hfalse ↦ heq (Option.some.inj hfalse).symm
      handled := fun _ hfalse ↦ nomatch hfalse
      traced := by
        intro htracing other halive
        by_cases heq : other = tid
        · rw [heq, modify_self] at halive ⊢
          exact h.traced htracing tid halive
        · rw [modify_ne heq] at halive ⊢
          exact h.traced htracing other halive
      guard := h.guard
      protection := h.protection
      lost := h.lost
      strays := h.strays }
  have hnoClone : ∀ child, (s.threads tid).pending ≠ some (.clone child) := by
    intro child hfalse
    rw [hpending] at hfalse
    cases hfalse
  rw [hresult]
  exact ⟨{
    steady := hsteady
    original := rfl
    phase := rfl
    scratch := rfl
    attached := rfl
    results := rfl
    hits := rfl
    owned := fun _ hall ↦ owned_modify_handled hnoClone rfl rfl hall }, rfl⟩

/-! ### Turns of the loop -/

/-- The watched accesses are recorded, each once and no other. -/
def Counted (config : WatchConfig) (s : Monitor) : Prop :=
  ∀ instruction, (s.results instruction).hitCount = hits config s.performed instruction

/-- What the loop does about a stop leaves the threads as they should be, and the watch exact. -/
structure Handles (k : WatchKernel) (config : WatchConfig) (s s' : Monitor) : Prop where
  steady : Steady k config none true false s'
  original : s'.original = s.original
  scratch : s'.scratch = s.scratch
  phase : s'.phase = s.phase
  owned : AllOwned s.attached s.threads → AllOwned s'.attached s'.threads
  counted : Counted config s → Counted config s'
  clock : s.clock ≤ s'.clock

theorem Deals.handles (h : Deals k config none true false s s') (hclock : s.clock ≤ s'.clock) :
    Handles k config s s' where
  steady := h.steady
  original := h.original
  scratch := h.scratch
  phase := h.phase
  owned := fun hall ↦ h.attached ▸ h.owned s.attached hall
  counted := fun hcounted instruction ↦ by
    rw [h.results, h.hits]
    exact hcounted instruction
  clock := hclock

/-- The hits of a fault on the guard. -/
theorem hitCount_recordHit (hhalted : (s.threads tid).halted = true) (instruction : ℕ) :
    ((recordHit k tid s).results instruction).hitCount = (s.results instruction).hitCount +
      if (s.threads tid).regs.rip = instruction then 1 else 0 := by
  rw [recordHit, if_pos hhalted]
  change (Function.update s.results (s.threads tid).regs.rip _ instruction).hitCount = _
  by_cases heq : (s.threads tid).regs.rip = instruction
  · rw [if_pos heq, ← heq, Function.update_self]
  · rw [if_neg heq, Function.update_of_ne (Ne.symm heq), Nat.add_zero]

/-- The guard is lifted, the thread makes its access, and the guard is armed again. -/
theorem stepGuarded_spec {access : DataAccess} (hundisturbed : Undisturbed k config s.original time)
    (hregion : OneRegion k config s.original) (h : Steady k config (some tid) true false s)
    (hcaught : Caught k config (s.threads tid)) (hscratch : k.allocates = some s.scratch)
    (htime : time ≤ s.clock) (hstuck : (s.threads tid).stuck = some access)
    (hafter : Placed k config access.after) (hnative : faultAddress s.original access = none)
    (halone : ∀ clock, s.clock < clock → clock ≤ s.clock + 4 → Alone k config clock) :
    Deals k config none true false { s with performed := (perform tid access s).performed }
        (cont tid 0 (protectPages k config (guardProt k config) tid
          (stepOver k tid (protectPages k config (origProt k config) tid s)))) ∧
      s.clock ≤ (cont tid 0 (protectPages k config (guardProt k config) tid
        (stepOver k tid (protectPages k config (origProt k config) tid s)))).clock := by
  have hlift : protect config.pageStart config.pageLen (origProt k config) s.protection =
      if true then s.original else guarded k config s.original := by
    rw [h.protection]
    exact protect_origProt hregion
  obtain ⟨hlifts, hthread₁, hclock₁⟩ := protectPages_spec hundisturbed h hcaught htime
    ((origProt_lt k config).trans (by decide)) hlift (fun hfalse ↦ nomatch hfalse)
    fun _ _ ↦ halone _ (by omega) (by omega)
  generalize protectPages k config (origProt k config) tid s = s₁ at hlifts hthread₁ hclock₁
  obtain ⟨hsteps, hthread₂, hclock₂⟩ := stepAccess_spec (s := s₁) (hlifts.original ▸ hundisturbed)
    hlifts.steady (hthread₁ ▸ hcaught) (hlifts.scratch ▸ hscratch) (by omega) (hthread₁ ▸ hstuck)
    (hlifts.original ▸ hnative) (fun _ ↦ halone _ (by omega) (by omega))
    fun _ ↦ halone _ (by omega) (by omega)
  generalize stepOver k tid s₁ = s₂ at hsteps hthread₂ hclock₂
  have hperforms : Deals k config (some tid) true true
      { s with performed := (perform tid access s).performed }
      { s₁ with performed := (perform tid access s₁).performed } :=
    { hlifts with
      steady := { hlifts.steady with }
      hits := by
        change hits config (perform tid access s₁).performed =
          hits config (perform tid access s).performed
        rw [hits_perform, hits_perform, hlifts.hits, hlifts.phase, hthread₁] }
  have hmakes := hperforms.trans hsteps
  have hcaught₂ : Caught k config (s₂.threads tid) := by
    rw [hthread₂, hthread₁]
    exact ⟨hcaught.halted, hcaught.alive, hcaught.pending, hcaught.held, rfl, hafter⟩
  have hguard : protect config.pageStart config.pageLen (guardProt k config) s₂.protection =
      if false then s₂.original else guarded k config s₂.original := by
    rw [hmakes.steady.protection, if_pos rfl]
    exact protect_guardProt _
  obtain ⟨hguards, hthread₃, hclock₃⟩ := protectPages_spec (s := s₂) (hmakes.original ▸ hundisturbed)
    hmakes.steady hcaught₂ (by omega) (guardProt_lt k config) hguard
    (fun _ _ ↦ halone _ (by omega) (by omega)) fun hfalse ↦ nomatch hfalse
  generalize protectPages k config (guardProt k config) tid s₂ = s₃ at hguards hthread₃ hclock₃
  have hcaught₃ : Caught k config (s₃.threads tid) := hthread₃ ▸ hcaught₂
  obtain ⟨hgoes, hclock₄⟩ := cont_spec 0 hguards.steady hcaught₃.pending hcaught₃.regs hcaught₃.placed
    (.inl ⟨hcaught₃.held, rfl⟩)
  exact ⟨(hmakes.trans hguards).trans hgoes, by omega⟩

/-- An access that faults on the guard is made once, and recorded if it is a watched one. -/
theorem guardedAccess_spec {address : ℕ} {access : DataAccess}
    (hundisturbed : Undisturbed k config s.original time) (hregion : OneRegion k config s.original)
    (h : Steady k config (some tid) true false s) (hphase : s.phase = .watching)
    (hcaught : Caught k config (s.threads tid)) (hscratch : k.allocates = some s.scratch)
    (htime : time ≤ s.clock)
    (hexpected : Expected k config s.original (s.threads tid) (.fault address access))
    (hguard : OnGuard config address) (hnative : faultAddress s.original access = none)
    (halone : ∀ clock, s.clock < clock → clock ≤ s.clock + 4 → Alone k config clock) :
    Handles k config s (guardedAccess k config tid address s) := by
  obtain ⟨hstuck, hafter, hfault, hstraight, -⟩ := hexpected
  have hwatched := fault_watched_iff hregion hfault hguard hnative hstraight
  -- the hit is recorded
  obtain ⟨results, hrecorded⟩ : ∃ results,
      (if config.watchLo ≤ address ∧ address < config.watchHi then recordHit k tid s else s) =
        { s with results := results } := by
    split_ifs
    · exact ⟨_, if_pos hcaught.halted⟩
    · exact ⟨s.results, rfl⟩
  have hcounts : ∀ instruction, (results instruction).hitCount =
      (s.results instruction).hitCount +
        if (s.threads tid).regs.rip = instruction ∧ watches config access = true then 1 else 0 := by
    intro instruction
    rw [← congrArg (fun found : Monitor ↦ (found.results instruction).hitCount) hrecorded]
    split_ifs with hin hboth hboth
    · rw [hitCount_recordHit hcaught.halted, if_pos hboth.1]
    · rw [hitCount_recordHit hcaught.halted, if_neg fun heq ↦ hboth ⟨heq, hwatched.mp hin⟩]
    · exact absurd (hwatched.mpr hboth.2) hin
    · rfl
  -- and the access is made
  have hresult : guardedAccess k config tid address s =
      cont tid 0 (protectPages k config (guardProt k config) tid
        (stepOver k tid (protectPages k config (origProt k config) tid
          { s with results := results }))) := by
    rw [guardedAccess, hrecorded]
  obtain ⟨hmakes, hclock⟩ := stepGuarded_spec (s := { s with results := results }) hundisturbed hregion
    { h with } hcaught hscratch htime hstuck hafter hnative halone
  rw [hresult]
  exact {
    steady := hmakes.steady
    original := hmakes.original
    scratch := hmakes.scratch
    phase := hmakes.phase
    owned := fun hall ↦ by
      rw [hmakes.attached]
      exact hmakes.owned s.attached hall
    counted := fun hcounted instruction ↦ by
      rw [hmakes.results, hmakes.hits]
      change (results instruction).hitCount = hits config
        (perform tid access { s with results := results }).performed instruction
      rw [hits_perform, hcounts, hcounted instruction, hcaught.regs]
      simp only [hphase, true_and]
    clock := hclock }

/-! ### Stops that are found -/

theorem collect_none (hpending : (s.threads tid).pending = none) : (collect tid s).1 = s := by
  have hsame : { s.threads tid with pending := none } = s.threads tid := by rw [← hpending]
  unfold collect Monitor.modify
  dsimp only
  rw [hsame, Function.update_eq_self]

/-- The end of a thread is found. -/
theorem collect_ended (h : Steady k config none tracing lifted s)
    (hpending : (s.threads tid).pending = some .ended) :
    (s.threads tid).alive = false ∧ Deals k config none tracing lifted s (collect tid s).1 := by
  have hkept := h.kept tid fun hfalse ↦ nomatch hfalse
  have hhalted : (s.threads tid).halted = false := by
    by_contra htrue
    obtain ⟨-, stop, hstop, -, hexpected⟩ := hkept.stopped (Bool.not_eq_false _ ▸ htrue)
    rw [hpending] at hstop
    cases hstop
    exact hexpected
  obtain ⟨hheld, hrunning, -⟩ := hkept.idle hhalted
  have hdead : (s.threads tid).alive = false := by
    by_contra htrue
    rw [hrunning (Bool.not_eq_false _ ▸ htrue)] at hpending
    cases hpending
  refine ⟨hdead, ?_⟩
  have hsteady : Steady k config none tracing lifted
      (s.modify tid fun t ↦ { t with pending := none }) := by
    refine h.modify_kept (fun hfalse ↦ nomatch hfalse) ?_ fun htracing ↦ h.traced htracing tid
    exact ⟨hkept.regs, hkept.placed, fun _ ↦ ⟨hheld, fun _ ↦ rfl, fun _ hfalse ↦ nomatch hfalse⟩,
      fun hfalse ↦ absurd (hhalted.symm.trans hfalse) Bool.false_ne_true⟩
  have hnoClone : ∀ child, (s.threads tid).pending ≠ some (.clone child) := by
    intro child hfalse
    rw [hpending] at hfalse
    cases hfalse
  exact {
    steady := hsteady
    original := rfl
    phase := rfl
    scratch := rfl
    attached := rfl
    results := rfl
    hits := rfl
    owned := fun _ hall ↦
      owned_modify_handled (f := fun t ↦ { t with pending := none }) hnoClone rfl rfl hall }

/-- A stop is found, and its thread is dealt with. -/
theorem collect_stop (h : Steady k config none tracing lifted s) {stop : Stop}
    (hpending : (s.threads tid).pending = some stop) (hstop : stop ≠ .ended) :
    Steady k config (some tid) tracing lifted (collect tid s).1 ∧
      (s.threads tid).halted = true ∧ (s.threads tid).alive = true ∧
      (s.threads tid).held = nativeSignal s.original stop ∧
      Expected k config s.original (s.threads tid) stop := by
  have hkept := h.kept tid fun hfalse ↦ nomatch hfalse
  have hhalted : (s.threads tid).halted = true := by
    by_contra hfalse
    exact hstop ((hkept.idle (Bool.not_eq_true _ ▸ hfalse)).2.2 stop hpending)
  obtain ⟨halive, stop', hstop', hheld, hexpected⟩ := hkept.stopped hhalted
  rw [hpending] at hstop'
  cases hstop'
  refine ⟨?_, hhalted, halive, hheld, hexpected⟩
  have hdealt : Steady k config (some tid) tracing lifted s :=
    { h with
      kept := fun other _ ↦ h.kept other fun hfalse ↦ nomatch hfalse
      handled := fun other hother ↦ by
        cases hother
        exact ⟨hhalted, halive⟩ }
  exact hdealt.modify_handled (f := fun t ↦ { t with pending := none }) hhalted halive rfl

/-- The thread that is dealt with is caught, unless it is stopped for a signal of the target. -/
theorem caught_collect (h : Steady k config none tracing lifted s) {stop : Stop}
    (hpending : (s.threads tid).pending = some stop) (hstop : stop ≠ .ended)
    (hnative : nativeSignal s.original stop = none) :
    Caught k config ((collect tid s).1.threads tid) := by
  have hkept := h.kept tid fun hfalse ↦ nomatch hfalse
  obtain ⟨-, hhalted, halive, hheld, -⟩ := collect_stop h hpending hstop
  rw [collect_threads]
  exact ⟨hhalted, halive, rfl, hheld.trans hnative, hkept.regs, hkept.placed⟩

/-- Threads stay owned when a stop is found, if the new thread of a clone event is attached. -/
theorem owned_collect {attached attached' : List ℕ} (hsubset : ∀ other ∈ attached, other ∈ attached')
    (hpending : ∀ child, (s.threads tid).pending = some (.clone child) → child ∈ attached')
    (hall : AllOwned attached s.threads) : AllOwned attached' (collect tid s).1.threads := by
  have hsame : ∀ other, other ≠ tid → (collect tid s).1.threads other = s.threads other :=
    fun other hne ↦ Function.update_of_ne hne _ _
  intro other halive htraced
  have hbefore : Owned attached s.threads other := by
    by_cases heq : other = tid
    · rw [heq, collect_threads] at halive htraced
      rw [heq]
      exact hall tid halive htraced
    · rw [hsame other heq] at halive htraced
      exact hall other halive htraced
  clear halive htraced
  induction hbefore with
  | attached hmem => exact .attached (hsubset _ hmem)
  | @created child parent hclone _ ih =>
    by_cases heq : parent = tid
    · exact .attached (hpending child (heq ▸ hclone))
    · refine .created ?_ ih
      rw [hsame parent heq]
      exact hclone

theorem collect_deals (h : Steady k config none tracing lifted s) {stop : Stop}
    (hpending : (s.threads tid).pending = some stop) (hstop : stop ≠ .ended)
    (hclone : ∀ child, stop ≠ .clone child) :
    Deals k config (some tid) tracing lifted s (collect tid s).1 where
  steady := (collect_stop h hpending hstop).1
  original := rfl
  phase := rfl
  scratch := rfl
  attached := rfl
  results := rfl
  hits := rfl
  owned := fun attached hall ↦ by
    refine owned_collect (fun _ hmem ↦ hmem) (fun child hfalse ↦ ?_) hall
    rw [hpending] at hfalse
    exact absurd (Option.some.inj hfalse) (hclone child)

/-- The conditions on a turn of the loop. -/
structure Orderly (k : WatchKernel) (config : WatchConfig) (s : Monitor) : Prop where
  /-- The wait for a new thread finds no signal of the target and no clone event. -/
  newborn : s.phase = .watching → ∀ w child found, waitAny k s = (found, some (w, .clone child)) →
    ∀ stop, (waitFor k child found).2 = some stop →
      nativeSignal s.original stop = none ∧ ∀ other, stop ≠ .clone other
  /-- No other thread makes a watched access while the guard is lifted. -/
  alone : s.phase = .watching → ∀ w address access found,
    waitAny k s = (found, some (w, .fault address access)) → OnGuard config address →
      ∀ clock, found.clock < clock → clock ≤ found.clock + 4 → Alone k config clock
  /-- The wait for a thread that is let go of finds no signal of the target. -/
  leaving : ∀ tid rest restored found stop, s.phase = .leaving (tid :: rest) restored →
    interrupt k tid s = (found, true) → (waitFor k tid found).2 = some stop →
      nativeSignal s.original stop = none

/-- A stop is found that is not the end of a thread and goes on with a signal. -/
theorem found_cont {signal : ℕ} (h : Steady k config none true false s) {stop : Stop}
    (hpending : (s.threads tid).pending = some stop) (hstop : stop ≠ .ended)
    (hclone : ∀ child, stop ≠ .clone child)
    (hsignal : nativeSignal s.original stop = none ∧ signal = 0 ∨
      nativeSignal s.original stop = some signal) :
    Handles k config s (cont tid signal (collect tid s).1) := by
  have hkept := h.kept tid fun hfalse ↦ nomatch hfalse
  obtain ⟨hdealt, -, -, hheld, -⟩ := collect_stop h hpending hstop
  obtain ⟨hgoes, hclock⟩ := cont_spec signal hdealt (by rw [collect_threads])
    (by rw [collect_threads]; exact hkept.regs) (by rw [collect_threads]; exact hkept.placed)
    (by rw [collect_threads]; exact hheld ▸ hsignal)
  exact {
    steady := hgoes.steady
    original := hgoes.original
    scratch := hgoes.scratch
    phase := hgoes.phase
    owned := fun hall ↦ by
      rw [hgoes.attached]
      refine hgoes.owned s.attached (owned_collect (fun _ hmem ↦ hmem) (fun child hfalse ↦ ?_) hall)
      rw [hpending] at hfalse
      exact absurd (Option.some.inj hfalse) (hclone child)
    counted := fun hcounted instruction ↦ by
      rw [hgoes.results, hgoes.hits]
      exact hcounted instruction
    clock := hclock.ge }

/-- A thread that is not dealt with goes on after what it has stopped for. -/
theorem release_kept {other : ℕ} (h : Steady k config (some tid) tracing lifted s) (hne : other ≠ tid)
    (hcalm : ∀ stop, (s.threads other).pending = some stop → nativeSignal s.original stop = none) :
    ∃ f : Thread → Thread, cont other 0 (collect other s).1 = s.modify other f ∧
      Kept k config s.original (f (s.threads other)) ∧
      (f (s.threads other)).alive = (s.threads other).alive ∧
      (f (s.threads other)).traced = (s.threads other).traced := by
  have hkept := h.kept other fun hfalse ↦ hne (Option.some.inj hfalse).symm
  cases hhalted : (s.threads other).halted with
  | true =>
    obtain ⟨halive, stop, hpending, hheld, -⟩ := hkept.stopped hhalted
    refine ⟨fun t ↦ { t with pending := none, held := none, halted := false, stuck := none }, ?_, ?_,
      rfl, rfl⟩
    · have hnone : ((collect other s).1.threads other).held = none := by
        rw [collect_threads]
        exact hheld.trans (hcalm stop hpending)
      rw [cont, if_pos (by rw [collect_threads]; exact hhalted), deliver_eq (.inl ⟨hnone, rfl⟩),
        modify_modify]
      exact modify_modify (fun t ↦ { t with pending := none }) _
    · exact ⟨hkept.regs, hkept.placed, fun _ ↦ ⟨rfl, fun _ ↦ rfl, fun _ hfalse ↦ nomatch hfalse⟩,
        fun hfalse ↦ nomatch hfalse⟩
  | false =>
    refine ⟨fun t ↦ { t with pending := none }, ?_, ?_, rfl, rfl⟩
    · rw [cont, if_neg (by rw [collect_threads, Bool.not_eq_true]; exact hhalted)]
      rfl
    · exact ⟨hkept.regs, hkept.placed, fun _ ↦ ⟨(hkept.idle hhalted).1, fun _ ↦ rfl,
        fun _ hfalse ↦ nomatch hfalse⟩, fun hfalse ↦ absurd (hhalted.symm.trans hfalse)
          Bool.false_ne_true⟩

theorem halted_cont (tid signal : ℕ) (s : Monitor) :
    ((cont tid signal s).threads tid).halted = false := by
  unfold cont
  split_ifs with hhalted
  · rw [modify_self]
  · exact Bool.not_eq_true _ ▸ hhalted

/-- A new thread is adopted while the thread that created it is dealt with. -/
theorem adopt_spec {child : ℕ} (hundisturbed : Undisturbed k config s.original time)
    (h : Steady k config (some tid) true false s) (htime : time ≤ s.clock) (hchild : child ≠ 0)
    (hcaught : Caught k config (s.threads tid))
    (hcalm : ∀ stop, (waitFor k child s).2 = some stop →
      nativeSignal s.original stop = none ∧ ∀ other, stop ≠ .clone other) :
    Deals k config none true false { s with attached := insertTid child s.attached }
        (cont tid 0 (adopt k child s)) ∧
      s.clock ≤ (cont tid 0 (adopt k child s)).clock := by
  have hrun : Passes k config (some tid) true false s (pass k s) :=
    pass_spec hundisturbed h (fun _ ↦ htime) fun hfalse ↦ nomatch hfalse
  have hstill : (pass k s).threads tid = s.threads tid := hrun.still tid hcaught.halted hcaught.alive
  set entered : Monitor := { pass k s with attached := insertTid child s.attached } with hentered
  have hsteady : Steady k config (some tid) true false entered := { hrun.steady with }
  have henters : Deals k config (some tid) true false
      { s with attached := insertTid child s.attached } entered :=
    { hrun.deals with
      steady := hsteady
      attached := rfl }
  have hresult : adopt k child s = cont child 0 (collect child entered).1 := by
    have hattached : (collect child (pass k s)).1.attached = s.attached := hrun.attached
    rw [adopt, if_neg hchild, waitFor]
    dsimp only
    rw [hattached]
    rfl
  have hcaught' : Caught k config (entered.threads tid) := hstill.symm ▸ hcaught
  by_cases heq : child = tid
  · -- a clone event for the thread itself: the first of the two requests lets it go on
    subst heq
    obtain ⟨hgoes, hclock⟩ := cont_spec 0 hsteady hcaught'.pending hcaught'.regs
      hcaught'.placed (.inl ⟨hcaught'.held, rfl⟩)
    have hagain : cont child 0 (cont child 0 entered) = cont child 0 entered := by
      refine if_neg ?_
      rw [halted_cont]
      exact Bool.false_ne_true
    rw [hresult, collect_none hcaught'.pending, hagain]
    refine ⟨henters.trans hgoes, ?_⟩
    rw [hclock]
    exact Nat.le_succ _
  · obtain ⟨f, hreleased, hkept, halive, htraced⟩ := release_kept hsteady heq fun stop hstop ↦ by
      exact hrun.original.symm ▸ (hcalm stop hstop).1
    have hmodified : Deals k config (some tid) true false entered (entered.modify child f) := by
      refine {
        steady := hsteady.modify_kept (fun hfalse ↦ heq (Option.some.inj hfalse).symm) hkept
          fun htracing halive' ↦ htraced.trans (hsteady.traced htracing child (halive ▸ halive'))
        original := rfl
        phase := rfl
        scratch := rfl
        attached := rfl
        results := rfl
        hits := rfl
        owned := fun _ hall ↦ owned_modify_handled (fun other hfalse ↦ ?_) halive htraced hall }
      exact (hcalm _ hfalse).2 other rfl
    have hsame : (entered.modify child f).threads tid = entered.threads tid :=
      modify_ne (Ne.symm heq) _ _
    obtain ⟨hgoes, hclock⟩ := cont_spec 0 hmodified.steady
      (hsame ▸ hcaught'.pending) (hsame ▸ hcaught'.regs) (hsame ▸ hcaught'.placed)
      (.inl ⟨hsame ▸ hcaught'.held, rfl⟩)
    rw [hresult, hreleased]
    refine ⟨(henters.trans hmodified).trans hgoes, ?_⟩
    rw [hclock]
    exact Nat.le_succ _

/-! ### Runs -/

/-- The loop before it waits for the next stop. -/
structure Loop (k : WatchKernel) (config : WatchConfig) (time : ℕ) (s : Monitor) : Prop where
  steady : Steady k config none true false s
  scratch : k.allocates = some s.scratch
  owned : AllOwned s.attached s.threads
  counted : Counted config s
  time : time ≤ s.clock

/-- The cleanup, with some threads still to be let go of. -/
structure Leaving (k : WatchKernel) (config : WatchConfig) (time : ℕ) (rest : List ℕ)
    (restored : Bool) (s : Monitor) : Prop where
  steady : Steady k config none (!restored) restored s
  scratch : k.allocates = some s.scratch
  owned : restored = false → AllOwned rest s.threads
  counted : Counted config s
  time : time ≤ s.clock

/-- Where a watch can be between its turns. -/
inductive Settled (k : WatchKernel) (config : WatchConfig) (time : ℕ) (original : ℕ → MemProt)
    (s : Monitor) : Prop
  | watching (hphase : s.phase = .watching) (horiginal : s.original = original)
    (h : Loop k config time s)
  | leaving {rest : List ℕ} {restored : Bool} (hphase : s.phase = .leaving rest restored)
    (horiginal : s.original = original) (h : Leaving k config time rest restored s)
  | returned (hphase : s.phase = .returned) (hexact : Exact config s)

theorem Steady.exact (h : Steady k config none tracing lifted s) (hcounted : Counted config s)
    (hrestored : s.phase = .returned → ∀ tid, (s.threads tid).alive = true →
      s.protection = s.original) : Exact config s where
  recorded := hcounted
  regs := fun tid ↦ (h.kept tid fun hfalse ↦ nomatch hfalse).regs
  delivered := h.lost
  strays := h.strays
  restored := hrestored

theorem Settled.exact {original : ℕ → MemProt} (h : Settled k config time original s) :
    Exact config s := by
  cases h with
  | watching hphase _ h =>
    exact h.steady.exact h.counted fun hfalse ↦ nomatch hphase.symm.trans hfalse
  | leaving hphase _ h =>
    exact h.steady.exact h.counted fun hfalse ↦ nomatch hphase.symm.trans hfalse
  | returned _ hexact => exact hexact

theorem Counted.later (h : Counted config s) (hlater : Later config s s') : Counted config s' := by
  intro instruction
  rw [hlater.results, hlater.hits]
  exact h instruction

theorem Loop.handles (h : Loop k config time s) (hhandles : Handles k config s s') :
    Loop k config time s' where
  steady := hhandles.steady
  scratch := h.scratch.trans (congrArg some hhandles.scratch.symm)
  owned := hhandles.owned h.owned
  counted := hhandles.counted h.counted
  time := h.time.trans hhandles.clock

/-- The loop after some time has passed. -/
theorem Loop.pass (hundisturbed : Undisturbed k config s.original time) (h : Loop k config time s) :
    Later config s (pass k s) ∧ Loop k config time (pass k s) := by
  have hrun : Passes k config none true false s (Monitor.pass k s) :=
    pass_spec hundisturbed h.steady (fun _ ↦ h.time) fun hfalse ↦ nomatch hfalse
  refine ⟨hrun.toLater, hrun.steady, ?_, ?_, h.counted.later hrun.toLater,
    h.time.trans (Nat.le_succ _)⟩
  · rw [hrun.scratch]
    exact h.scratch
  · rw [hrun.toLater.attached]
    exact hrun.owned s.attached h.owned

theorem Loop.leaving (h : Loop k config time s) (phase : Phase) :
    Leaving k config time s.attached false { s with phase := phase } where
  steady := { h.steady with }
  scratch := h.scratch
  owned := fun _ ↦ h.owned
  counted := h.counted
  time := h.time

/-- A thread that has ended is attached no longer. -/
theorem owned_erase {attached : List ℕ} {threads : ℕ → Thread} {other : ℕ}
    (hpending : ∀ child, (threads other).pending ≠ some (.clone child)) (hne : tid ≠ other)
    (howned : Owned attached threads tid) : Owned (attached.erase other) threads tid := by
  induction howned with
  | attached hmem => exact .attached ((List.mem_erase_of_ne hne).mpr hmem)
  | @created child parent hclone _ ih =>
    refine .created hclone (ih ?_)
    rintro rfl
    exact hpending child hclone

theorem settled_forget (hphase : s.phase = .watching) (h : Loop k config time s)
    (hdead : (s.threads tid).alive = false)
    (hpending : ∀ child, (s.threads tid).pending ≠ some (.clone child)) :
    Settled k config time s.original (forget config tid s) := by
  have herased : Loop k config time { s with attached := s.attached.erase tid } :=
    { steady := { h.steady with }
      scratch := h.scratch
      owned := by
        intro other halive htraced
        refine owned_erase hpending ?_ (h.owned other halive htraced)
        rintro rfl
        rw [hdead] at halive
        cases halive
      counted := h.counted
      time := h.time }
  unfold forget
  dsimp only
  split_ifs
  · exact .leaving rfl rfl (herased.leaving _)
  · exact .watching hphase rfl herased

theorem segmentationFault_on {address : ℕ} (hguard : OnGuard config address) :
    segmentationFault k config tid address s = guardedAccess k config tid address s := if_pos hguard

theorem segmentationFault_off {address : ℕ} (hguard : ¬OnGuard config address) :
    segmentationFault k config tid address s = cont tid sigsegv s := if_neg hguard

/-- The loop deals with a stop that has been found. -/
theorem settled_handle {stop : Stop} (hundisturbed : Undisturbed k config s.original time)
    (hregion : OneRegion k config s.original) (hphase : s.phase = .watching)
    (h : Loop k config time s) (hpending : (s.threads tid).pending = some stop)
    (hnewborn : ∀ child, stop = .clone child →
      ∀ found, (waitFor k child (collect tid s).1).2 = some found →
        nativeSignal s.original found = none ∧ ∀ other, found ≠ .clone other)
    (halone : ∀ address access, stop = .fault address access → OnGuard config address →
      ∀ clock, s.clock < clock → clock ≤ s.clock + 4 → Alone k config clock) :
    Settled k config time s.original (handle k config tid (collect tid s).1 stop) := by
  have hgoes : ∀ {s'}, Handles k config s s' → Settled k config time s.original s' := fun hhandles ↦
    .watching (hhandles.phase.trans hphase) hhandles.original (h.handles hhandles)
  cases stop with
  | ended =>
    obtain ⟨hdead, hfinds⟩ := collect_ended h.steady hpending
    have hfound : Loop k config time (collect tid s).1 := h.handles (hfinds.handles le_rfl)
    refine settled_forget (s := (collect tid s).1) hphase hfound ?_ ?_
    · rw [collect_threads]
      exact hdead
    · intro child hfalse
      rw [collect_threads] at hfalse
      cases hfalse
  | trap => exact hgoes (found_cont h.steady hpending Stop.noConfusion (fun _ ↦ Stop.noConfusion)
      (.inl ⟨rfl, rfl⟩))
  | signal signal address =>
    obtain ⟨-, -, -, -, hsigtrap, hgroup, hguard⟩ := collect_stop h.steady hpending Stop.noConfusion
    have hforwards : ∀ {sent}, sent = signal →
        Settled k config time s.original (cont tid sent (collect tid s).1) := by
      rintro _ rfl
      exact hgoes (found_cont h.steady hpending Stop.noConfusion (fun _ ↦ Stop.noConfusion)
        (.inr rfl))
    unfold handle
    dsimp only
    split_ifs with hsegv hswallowed
    · rw [segmentationFault_off (hguard hsegv)]
      exact hforwards hsegv.symm
    · exact absurd hswallowed (not_or.mpr ⟨hsigtrap, hgroup⟩)
    · exact hforwards rfl
  | fault address access =>
    obtain ⟨hdealt, -, -, -, hexpected⟩ := collect_stop h.steady hpending Stop.noConfusion
    obtain ⟨hstuck, hafter, hfault, hstraight, hallowed⟩ := hexpected
    obtain ⟨-, hbyte, -⟩ := faultAddress_eq_some.mp hfault
    unfold handle
    dsimp only
    by_cases hguard : OnGuard config address
    · have hnative := hallowed ⟨address, hguard, hbyte⟩
      have hnone : nativeSignal s.original (.fault address access) = none := by
        rw [nativeSignal, hnative]
        rfl
      have hstuck' : Expected k config s.original ((collect tid s).1.threads tid)
          (.fault address access) := by
        rw [collect_threads]
        exact ⟨hstuck, hafter, hfault, hstraight, hallowed⟩
      have hhandles := guardedAccess_spec (s := (collect tid s).1) hundisturbed hregion hdealt hphase
        (caught_collect h.steady hpending Stop.noConfusion hnone) h.scratch h.time hstuck' hguard
        hnative (halone address access rfl hguard)
      rw [segmentationFault_on hguard]
      refine hgoes {
        steady := hhandles.steady
        original := hhandles.original
        scratch := hhandles.scratch
        phase := hhandles.phase
        owned := fun hall ↦ hhandles.owned (owned_collect (fun _ hmem ↦ hmem) (fun child hfalse ↦ ?_)
          hall)
        counted := hhandles.counted
        clock := hhandles.clock }
      rw [hpending] at hfalse
      cases hfalse
    · rw [segmentationFault_off hguard]
      refine hgoes (found_cont h.steady hpending Stop.noConfusion (fun _ ↦ Stop.noConfusion)
        (.inr ?_))
      exact if_pos (native_of_fault hfault hguard)
  | clone child =>
    obtain ⟨hdealt, -, -, -, hchild⟩ := collect_stop h.steady hpending Stop.noConfusion
    obtain ⟨hadopts, hclock⟩ := adopt_spec (s := (collect tid s).1) hundisturbed hdealt h.time hchild
      (caught_collect h.steady hpending Stop.noConfusion rfl) (hnewborn child rfl)
    refine hgoes {
      steady := hadopts.steady
      original := hadopts.original
      scratch := hadopts.scratch
      phase := hadopts.phase
      owned := fun hall ↦ ?_
      counted := fun hcounted instruction ↦ by
        unfold handle
        rw [hadopts.results, hadopts.hits]
        exact hcounted instruction
      clock := hclock }
    unfold handle
    rw [hadopts.attached]
    refine hadopts.owned _ (owned_collect (fun other hmem ↦ mem_insertTid.mpr (.inr hmem)) ?_ hall)
    intro other hother
    rw [hpending] at hother
    cases hother
    exact mem_insertTid.mpr (.inl rfl)

theorem settled_watching (hundisturbed : Undisturbed k config s.original time)
    (hregion : OneRegion k config s.original) (hphase : s.phase = .watching)
    (h : Loop k config time s) (horderly : Orderly k config s) :
    Settled k config time s.original (turn k config s) := by
  obtain ⟨hlater, hpassed⟩ := h.pass hundisturbed
  unfold turn
  rw [hphase]
  dsimp only
  split_ifs
  · exact .leaving rfl rfl (h.leaving _)
  · set w := k.picks s.clock with hw
    cases hpending : ((pass k s).threads w).pending with
    | none =>
      have hwait : waitAny k s = (pass k s, none) := by
        have hfinds : collect w (pass k s) = (pass k s, none) :=
          Prod.ext (collect_none hpending) hpending
        rw [waitAny, ← hw, hfinds]
      rw [hwait]
      exact .watching (hlater.phase.trans hphase) hlater.original hpassed
    | some stop =>
      have hwait : waitAny k s = ((collect w (pass k s)).1, some (w, stop)) := by
        rw [waitAny, ← hw, collect, hpending]
      rw [hwait, ← hlater.original]
      refine settled_handle (hlater.original ▸ hundisturbed) (hlater.original ▸ hregion)
        (hlater.phase.trans hphase) hpassed hpending ?_ ?_
      · rintro child rfl found hfound
        rw [hlater.original]
        exact horderly.newborn hphase w child _ hwait found hfound
      · rintro address access rfl hguard
        exact horderly.alone hphase w address access (collect w (pass k s)).1 hwait hguard

/-- A thread is interrupted, unless it has ended or goes on alone. -/
theorem interrupt_spec (tid : ℕ) (hundisturbed : Undisturbed k config s.original time)
    (h : Steady k config none tracing lifted s) (htime : time ≤ s.clock)
    (halone : lifted = true → s.phase = .watching → Alone k config s.clock) :
    Passes k config none tracing lifted s (interrupt k tid s).1 ∧
      (interrupt k tid s).1.clock = s.clock + 1 ∧
      ((interrupt k tid s).2 = true → ((interrupt k tid s).1.threads tid).alive = true ∧
        ((interrupt k tid s).1.threads tid).halted = true) ∧
      ((interrupt k tid s).2 = false → tracing = true →
        ((interrupt k tid s).1.threads tid).alive = false) := by
  have hrun : Passes k config none tracing lifted s (pass k s) :=
    pass_spec hundisturbed h (fun _ ↦ htime) halone
  have hgranted : k.interrupts s.clock = true := hundisturbed.interrupts s.clock htime
  unfold interrupt
  dsimp only
  rw [hgranted, Bool.true_and]
  cases hboth : ((pass k s).threads tid).alive && ((pass k s).threads tid).traced with
  | true =>
    obtain ⟨halive, -⟩ := Bool.and_eq_true_iff.mp hboth
    rw [if_pos rfl]
    by_cases hhalted : ((pass k s).threads tid).halted = true
    · rw [if_pos hhalted]
      exact ⟨hrun, rfl, fun _ ↦ ⟨halive, hhalted⟩, fun hfalse ↦ nomatch hfalse⟩
    · rw [if_neg hhalted]
      have hrunning : ((pass k s).threads tid).running = true :=
        running_iff.mpr ⟨halive, Bool.not_eq_true _ ▸ hhalted⟩
      have hthread : ((stopAt tid .trap (pass k s)).threads tid).alive = true ∧
          ((stopAt tid .trap (pass k s)).threads tid).halted = true := by
        rw [stopAt, modify_self]
        exact ⟨halive, rfl⟩
      exact ⟨hrun.trans (hrun.steady.passes_stopAt hrunning trivial), rfl, fun _ ↦ hthread,
        fun hfalse ↦ nomatch hfalse⟩
  | false =>
    rw [if_neg Bool.false_ne_true]
    refine ⟨hrun, rfl, (fun hfalse ↦ nomatch hfalse), fun _ htracing ↦ ?_⟩
    by_contra halive
    rw [Bool.not_eq_false] at halive
    rw [halive, hrun.steady.traced htracing tid halive] at hboth
    cases hboth

/-- The wait for a thread that is stopped finds a stop. -/
theorem waitFor_spec (hundisturbed : Undisturbed k config s.original time)
    (h : Steady k config none tracing lifted s) (htime : time ≤ s.clock)
    (halone : lifted = true → s.phase = .watching → Alone k config s.clock)
    (halive : (s.threads tid).alive = true) (hhalted : (s.threads tid).halted = true) :
    Passes k config none tracing lifted s (pass k s) ∧
      ∃ stop, ((pass k s).threads tid).pending = some stop ∧ stop ≠ .ended := by
  have hrun : Passes k config none tracing lifted s (pass k s) :=
    pass_spec hundisturbed h (fun _ ↦ htime) halone
  obtain ⟨-, stop, hpending, -, hexpected⟩ :=
    (h.kept tid fun hfalse ↦ nomatch hfalse).stopped hhalted
  refine ⟨hrun, stop, ?_, ?_⟩
  · rw [hrun.still tid hhalted halive]
    exact hpending
  · rintro rfl
    exact hexpected

/-- A thread that was caught is let go of. -/
theorem detach_spec (h : Steady k config (some tid) tracing lifted s)
    (hlifted : lifted = true) (hcaught : Caught k config (s.threads tid)) :
    Steady k config none false true (detach tid s) ∧ (detach tid s).original = s.original ∧
      (detach tid s).scratch = s.scratch ∧ (detach tid s).clock = s.clock ∧
      (Counted config s → Counted config (detach tid s)) := by
  have hresult : detach tid s = s.modify tid fun t ↦
      { t with held := none, traced := false, halted := false, stuck := none } := by
    rw [detach, if_pos hcaught.halted, deliver_eq (.inl ⟨hcaught.held, rfl⟩), modify_modify]
  rw [hresult]
  refine ⟨?_, rfl, rfl, rfl, fun hcounted ↦ hcounted⟩
  exact {
    kept := by
      intro other _
      by_cases heq : other = tid
      · rw [heq, modify_self]
        refine ⟨hcaught.regs, hcaught.placed, fun _ ↦ ⟨rfl, fun _ ↦ hcaught.pending,
          fun stop hfalse ↦ ?_⟩, fun hfalse ↦ nomatch hfalse⟩
        change (s.threads tid).pending = some stop at hfalse
        rw [hcaught.pending] at hfalse
        cases hfalse
      · rw [modify_ne heq]
        exact h.kept other fun hfalse ↦ heq (Option.some.inj hfalse).symm
    handled := fun _ hfalse ↦ nomatch hfalse
    traced := fun hfalse ↦ nomatch hfalse
    guard := fun hfalse ↦ nomatch hfalse
    protection := by
      rw [hlifted] at h
      exact h.protection
    lost := h.lost
    strays := h.strays }

/-- A thread that is stopped is let go of, after the protection is restored if it is not yet. -/
theorem settled_release {stop : Stop} {rest : List ℕ} {restored : Bool}
    (hundisturbed : Undisturbed k config s.original time) (hregion : OneRegion k config s.original)
    (hphase : s.phase ≠ .watching) (h : Steady k config none (!restored) restored s)
    (hscratch : k.allocates = some s.scratch) (hcounted : Counted config s) (htime : time ≤ s.clock)
    (hpending : (s.threads tid).pending = some stop) (hstop : stop ≠ .ended)
    (hnative : nativeSignal s.original stop = none) :
    Settled k config time s.original { detach tid (if restored then (collect tid s).1
      else protectPages k config (origProt k config) tid (collect tid s).1) with
        phase := .leaving rest true } := by
  have hcaught := caught_collect h hpending hstop hnative
  obtain ⟨hdealt, -⟩ := collect_stop h hpending hstop
  have hcounted' : Counted config (collect tid s).1 := hcounted
  cases restored with
  | true =>
    obtain ⟨hsteady, horiginal, hscratch', hclock, hcounts⟩ := detach_spec hdealt rfl hcaught
    rw [if_pos rfl]
    exact .leaving rfl horiginal {
      steady := { hsteady with }
      scratch := hscratch.trans (congrArg some hscratch'.symm)
      owned := fun hfalse ↦ nomatch hfalse
      counted := hcounts hcounted'
      time := htime.trans hclock.ge }
  | false =>
    have hlift : protect config.pageStart config.pageLen (origProt k config)
        (collect tid s).1.protection =
          if true then (collect tid s).1.original else guarded k config (collect tid s).1.original := by
      rw [hdealt.protection]
      exact protect_origProt hregion
    obtain ⟨hlifts, hthread, hclock⟩ := protectPages_spec (s := (collect tid s).1) hundisturbed hdealt
      hcaught htime ((origProt_lt k config).trans (by decide)) hlift (fun hfalse ↦ nomatch hfalse)
      fun _ hwatching ↦ absurd hwatching hphase
    obtain ⟨hsteady, horiginal, hscratch', hclock', hcounts⟩ := detach_spec hlifts.steady rfl
      (hthread.symm ▸ hcaught)
    rw [if_neg Bool.false_ne_true]
    exact .leaving rfl (horiginal.trans hlifts.original) {
      steady := { hsteady with }
      scratch := hscratch.trans (congrArg some (hscratch'.trans hlifts.scratch).symm)
      owned := fun hfalse ↦ nomatch hfalse
      counted := hcounts fun instruction ↦ by
        rw [hlifts.results, hlifts.hits]
        exact hcounted' instruction
      time := by
        change time ≤ (detach tid _).clock
        rw [hclock', hclock]
        exact htime.trans (Nat.le_add_right _ _) }

/-- One thread after the other is let go of. -/
theorem settled_leave {rest : List ℕ} {restored : Bool}
    (hundisturbed : Undisturbed k config s.original time) (hregion : OneRegion k config s.original)
    (hphase : s.phase = .leaving (tid :: rest) restored)
    (h : Leaving k config time (tid :: rest) restored s) (horderly : Orderly k config s) :
    Settled k config time s.original (leave k config tid rest restored s) := by
  have hunwatched : s.phase ≠ .watching := fun hfalse ↦ nomatch hphase.symm.trans hfalse
  obtain ⟨hrun, hclock, hstopped, hdead⟩ := interrupt_spec tid hundisturbed h.steady h.time
    fun _ hwatching ↦ absurd hwatching hunwatched
  unfold leave
  cases hinterrupt : interrupt k tid s with
  | mk s₁ granted =>
    rw [hinterrupt] at hrun hclock hstopped hdead
    dsimp only at hrun hclock hstopped hdead ⊢
    have hscratch : k.allocates = some s₁.scratch := h.scratch.trans (congrArg some hrun.scratch.symm)
    have hcounted : Counted config s₁ := h.counted.later hrun.toLater
    have htime : time ≤ s₁.clock := by
      rw [hclock]
      exact h.time.trans (Nat.le_succ _)
    cases granted with
    | false =>
      refine .leaving rfl hrun.original ⟨{ hrun.steady with }, hscratch, fun hrestored ↦ ?_, hcounted,
        htime⟩
      subst hrestored
      have hgone := hdead rfl rfl
      intro other halive htraced
      have howned := hrun.owned _ (h.owned rfl) other halive htraced
      have hne : other ≠ tid := by
        rintro rfl
        exact absurd (hgone.symm.trans halive) Bool.false_ne_true
      have hleft := owned_erase (fun child hclone ↦ Bool.false_ne_true
        (hgone.symm.trans (hrun.steady.halted_of_clone hclone).2)) hne howned
      rw [List.erase_cons_head] at hleft
      exact hleft
    | true =>
      obtain ⟨halive, hhalted⟩ := hstopped rfl
      obtain ⟨hwait, stop, hpending, hstop⟩ := waitFor_spec (hrun.original.symm ▸ hundisturbed)
        hrun.steady htime (fun _ hwatching ↦ absurd (hrun.phase.symm.trans hwatching) hunwatched)
        halive hhalted
      have hfinds : waitFor k tid s₁ = ((collect tid (pass k s₁)).1, some stop) := by
        rw [waitFor, collect, hpending]
      have horiginal : (pass k s₁).original = s.original := hwait.original.trans hrun.original
      have hnative : nativeSignal s.original stop = none :=
        horderly.leaving tid rest restored s₁ stop hphase hinterrupt (by rw [hfinds])
      have hreleased : Settled k config time (pass k s₁).original
          { detach tid (if restored then (collect tid (pass k s₁)).1 else
              protectPages k config (origProt k config) tid (collect tid (pass k s₁)).1) with
            phase := .leaving rest true } := by
        refine settled_release (horiginal.symm ▸ hundisturbed) (horiginal.symm ▸ hregion) ?_
          hwait.steady ?_ (hcounted.later hwait.toLater) (htime.trans (Nat.le_succ _)) hpending hstop
          (horiginal.symm ▸ hnative)
        · exact fun hwatching ↦ hunwatched ((hwait.phase.trans hrun.phase).symm.trans hwatching)
        · exact hscratch.trans (congrArg some hwait.scratch.symm)
      rw [horiginal] at hreleased
      dsimp only
      rw [hfinds]
      cases stop with
      | ended => exact absurd rfl hstop
      | fault _ _ | signal _ _ | clone _ | trap => exact hreleased

/-- What one turn preserves. -/
theorem settled_turn {original : ℕ → MemProt} (hundisturbed : Undisturbed k config original time)
    (hregion : OneRegion k config original) (h : Settled k config time original s)
    (horderly : Orderly k config s) : Settled k config time original (turn k config s) := by
  cases h with
  | watching hphase horiginal h =>
    subst horiginal
    exact settled_watching hundisturbed hregion hphase h horderly
  | @leaving rest restored hphase horiginal h =>
    subst horiginal
    unfold turn
    rw [hphase]
    cases rest with
    | cons tid rest => exact settled_leave hundisturbed hregion hphase h horderly
    | nil =>
      refine .returned rfl (Steady.exact { h.steady with } h.counted fun _ tid halive ↦ ?_)
      cases restored with
      | true => exact h.steady.protection
      | false =>
        have hnobody : ∀ {other}, ¬Owned [] s.threads other := by
          intro other howned
          induction howned with
          | attached hmem => cases hmem
          | created _ _ ih => exact ih
        exact absurd (h.owned rfl tid halive (h.steady.traced rfl tid halive)) hnobody
  | returned hphase hexact =>
    unfold turn
    rw [hphase]
    exact .returned hphase hexact

/-- What a whole run preserves. -/
theorem settled_run {original : ℕ → MemProt} (hundisturbed : Undisturbed k config original time)
    (hregion : OneRegion k config original) (h : Settled k config time original s)
    (horderly : ∀ n, Orderly k config (run k config n s)) (n : ℕ) :
    Settled k config time original (run k config n s) := by
  induction n generalizing s with
  | zero => exact h
  | succ n ih =>
    exact ih (settled_turn hundisturbed hregion h (horderly 0)) fun n ↦ horderly (n + 1)

theorem run_returned (h : s.phase = .returned) (n : ℕ) : run k config n s = s := by
  induction n with
  | zero => rfl
  | succ n ih =>
    have hturn : turn k config s = s := by
      unfold turn
      rw [h]
    calc run k config (n + 1) s = run k config n (turn k config s) := rfl
      _ = s := by rw [hturn, ih]

/-! ### The start -/

/-- While the threads are seized, those that are traced are owned. -/
structure Seizing (k : WatchKernel) (config : WatchConfig) (s₀ s : Monitor) : Prop where
  steady : Steady k config none false true s
  owned : AllOwned s.attached s.threads
  original : s.original = s₀.original
  scratch : s.scratch = s₀.scratch
  phase : s.phase = s₀.phase
  results : s.results = s₀.results
  hits : hits config s.performed = hits config s₀.performed

theorem seize_spec {s₀ : Monitor} (number : ℕ)
    (hproper : ∀ clock, ∀ e ∈ k.happens clock, Proper k config s₀.original e)
    (hphase : s₀.phase ≠ .watching) (h : Seizing k config s₀ s) (tid : ℕ) :
    Seizing k config s₀ (seize k number s tid) := by
  have hrun : Passes k config none false true s (pass k s) := by
    have hpasses := happens_spec (k.happens s.clock) h.steady
      (h.original.symm ▸ hproper s.clock) fun e _ tid access _ hwatching ↦
        absurd (h.phase.symm.trans hwatching) hphase
    have hsteady : Steady k config none false true (pass k s) := { hpasses.steady with }
    exact { hpasses with steady := hsteady }
  have hpassed : Seizing k config s₀ (pass k s) :=
    { steady := hrun.steady
      owned := hrun.toLater.attached ▸ hrun.owned s.attached h.owned
      original := hrun.original.trans h.original
      scratch := hrun.scratch.trans h.scratch
      phase := hrun.phase.trans h.phase
      results := hrun.results.trans h.results
      hits := hrun.hits.trans h.hits }
  unfold seize
  dsimp only
  split_ifs with hmem hgranted
  · exact h
  · have hkept := hpassed.steady.kept tid fun hfalse ↦ nomatch hfalse
    have hsteady : Steady k config none false true
        ((pass k s).modify tid fun t ↦ { t with traced := true }) :=
      hpassed.steady.modify_kept (fun hfalse ↦ nomatch hfalse)
        ⟨hkept.regs, hkept.placed, hkept.idle, hkept.stopped⟩ fun hfalse ↦ nomatch hfalse
    refine { hpassed with
      steady := { hsteady with }
      owned := fun other halive htraced ↦ ?_ }
    by_cases heq : other = tid
    · exact .attached (mem_insertTid.mpr (.inl heq))
    · have hsame : ((pass k s).modify tid fun t ↦ { t with traced := true }).threads other =
          (pass k s).threads other := modify_ne heq _ _
      have halive' : ((pass k s).threads other).alive = true := hsame ▸ halive
      have htraced' : ((pass k s).threads other).traced = true := hsame ▸ htraced
      refine owned_mono (fun parent child hclone ↦ ?_) ((hpassed.owned other halive' htraced').attach
        fun _ hattached ↦ mem_insertTid.mpr (.inr hattached))
      refine (?_ : (((pass k s).modify tid fun t ↦ { t with traced := true }).threads parent).pending =
        ((pass k s).threads parent).pending).trans hclone
      by_cases hparent : parent = tid
      · rw [hparent, modify_self]
      · rw [modify_ne hparent]
  · exact hpassed

theorem seizePasses_spec {s₀ : Monitor}
    (hproper : ∀ clock, ∀ e ∈ k.happens clock, Proper k config s₀.original e)
    (hphase : s₀.phase ≠ .watching) (left number : ℕ) (h : Seizing k config s₀ s) :
    Seizing k config s₀ (seizePasses k config left number s) := by
  induction left generalizing number s with
  | zero => exact h
  | succ left ih =>
    have hfold : ∀ (tids : List ℕ) {s : Monitor}, Seizing k config s₀ s →
        Seizing k config s₀ (tids.foldl (seize k number) s) := by
      intro tids
      induction tids with
      | nil => exact fun hs ↦ hs
      | cons tid rest ihrest => exact fun hs ↦ ihrest (seize_spec number hproper hphase hs tid)
    unfold seizePasses
    dsimp only
    split_ifs
    · exact hfold _ h
    · exact ih (number + 1) (hfold _ h)
    · exact hfold _ h
    · exact ih (number + 1) (hfold _ h)

/-- The guard is armed by a thread that is stopped for nothing of the target. -/
theorem arm_spec (tid : ℕ) (hundisturbed : Undisturbed k config s.original time)
    (h : Steady k config none true true s) (hphase : s.phase = .starting)
    (htime : time ≤ s.clock) (hgranted : (interrupt k tid s).2 = true)
    (hcalm : ∀ stop, (waitFor k tid (interrupt k tid s).1).2 = some stop →
      nativeSignal s.original stop = none ∧ ∀ other, stop ≠ .clone other) :
    Deals k config none true false s (arm k config tid s) ∧ time ≤ (arm k config tid s).clock := by
  have hunwatched : ∀ {lifted : Bool}, lifted = true → s.phase = .watching → Alone k config s.clock :=
    fun _ hwatching ↦ nomatch hphase.symm.trans hwatching
  obtain ⟨hrun, hclock, hstopped, -⟩ := interrupt_spec tid hundisturbed h htime hunwatched
  unfold arm
  cases hinterrupt : interrupt k tid s with
  | mk s₁ granted =>
    rw [hinterrupt] at hrun hclock hstopped hgranted hcalm
    cases hgranted
    dsimp only at hrun hclock hstopped hcalm ⊢
    obtain ⟨halive, hhalted⟩ := hstopped rfl
    have htime₁ : time ≤ s₁.clock := by
      rw [hclock]
      exact htime.trans (Nat.le_succ _)
    obtain ⟨hwait, stop, hpending, hstop⟩ := waitFor_spec (hrun.original.symm ▸ hundisturbed)
      hrun.steady htime₁ (fun _ hwatching ↦ nomatch hphase.symm.trans
        (hrun.phase.symm.trans hwatching)) halive hhalted
    have horiginal : (pass k s₁).original = s.original := hwait.original.trans hrun.original
    obtain ⟨hnative, hclone⟩ := hcalm stop hpending
    have hcaught := caught_collect hwait.steady hpending hstop (horiginal.symm ▸ hnative)
    have hfinds := (hrun.deals.trans hwait.deals).trans
      (collect_deals hwait.steady hpending hstop hclone)
    have hguard : protect config.pageStart config.pageLen (guardProt k config)
        (collect tid (pass k s₁)).1.protection = if false then (collect tid (pass k s₁)).1.original
          else guarded k config (collect tid (pass k s₁)).1.original := by
      rw [hfinds.steady.protection]
      exact protect_guardProt _
    obtain ⟨hguards, hthread, hclock'⟩ := protectPages_spec (s := (collect tid (pass k s₁)).1)
      (hfinds.original.symm ▸ hundisturbed) hfinds.steady hcaught (htime₁.trans (Nat.le_succ _))
      (guardProt_lt k config) hguard
      (fun _ hwatching ↦ nomatch hphase.symm.trans (hfinds.phase.symm.trans hwatching))
      fun hfalse ↦ nomatch hfalse
    have hcaught' : Caught k config ((protectPages k config (guardProt k config) tid
      (collect tid (pass k s₁)).1).threads tid) := hthread.symm ▸ hcaught
    obtain ⟨hgoes, hclock''⟩ := cont_spec 0 hguards.steady hcaught'.pending hcaught'.regs hcaught'.placed
      (.inl ⟨hcaught'.held, rfl⟩)
    refine ⟨(hfinds.trans hguards).trans hgoes, ?_⟩
    have hlast : time ≤ (cont tid 0 (protectPages k config (guardProt k config) tid
        (collect tid (pass k s₁)).1)).clock := by
      rw [hclock'', hclock']
      exact htime₁.trans ((Nat.le_succ _).trans (Nat.le_add_right _ _))
    exact hlast

/-! ### Whole watches -/

/-- A target that is not watched, the threads alive and their registers, and its pages. -/
structure Sound (k : WatchKernel) (config : WatchConfig) (alive : ℕ → Bool) (regs : ℕ → ThreadRegs)
    (protection : ℕ → MemProt) : Prop where
  region : OneRegion k config protection
  placed : ∀ tid, Placed k config (regs tid)
  proper : ∀ clock, ∀ e ∈ k.happens clock, Proper k config protection e

/-- The threads when they are seized. -/
def seized (k : WatchKernel) (config : WatchConfig) (s : Monitor) (scratch : ℕ) : Monitor :=
  seizePasses k config 6 0 { s with scratch := scratch }

/-- When the guard is armed every thread is traced, and the one that arms it is stopped for nothing
of the target. -/
structure Arms (k : WatchKernel) (config : WatchConfig) (s : Monitor) : Prop where
  traced : ∀ tid, (s.threads tid).alive = true → (s.threads tid).traced = true
  undisturbed : Undisturbed k config s.original s.clock
  granted : ∀ tid rest, s.attached = tid :: rest → (interrupt k tid s).2 = true
  calm : ∀ tid rest stop, s.attached = tid :: rest →
    (waitFor k tid (interrupt k tid s).1).2 = some stop →
      nativeSignal s.original stop = none ∧ ∀ other, stop ≠ .clone other

variable {alive : ℕ → Bool} {regs : ℕ → ThreadRegs} {protection : ℕ → MemProt}

theorem seizing_new (hsound : Sound k config alive regs protection) (scratch : ℕ) :
    Seizing k config { new alive regs protection with scratch := scratch }
      { new alive regs protection with scratch := scratch } where
  steady :=
    { kept := fun tid _ ↦ kept_free (hsound.placed tid) _ (alive tid) false
      handled := fun _ hfalse ↦ nomatch hfalse
      traced := fun hfalse ↦ nomatch hfalse
      guard := fun hfalse ↦ nomatch hfalse
      protection := rfl
      lost := rfl
      strays := rfl }
  owned := fun _ _ hfalse ↦ nomatch hfalse
  original := rfl
  scratch := rfl
  phase := rfl
  results := rfl
  hits := rfl

/-- A watch that is given up before the guard is armed has changed nothing. -/
theorem Seizing.exact {scratch : ℕ}
    (h : Seizing k config { new alive regs protection with scratch := scratch } s) (phase : Phase) :
    Exact config { s with phase := phase } := by
  have hcounted : Counted config s := fun instruction ↦ by
    rw [h.results, h.hits]
    rfl
  have hsteady : Steady k config none false true { s with phase := phase } := { h.steady with }
  exact hsteady.exact hcounted fun _ _ _ ↦ h.steady.protection

theorem settled_start (hsound : Sound k config alive regs protection)
    (harms : ∀ scratch, k.allocates = some scratch →
      Arms k config (seized k config (new alive regs protection) scratch)) :
    ∃ time, (∀ scratch, k.allocates = some scratch → Undisturbed k config protection time) ∧
      Settled k config time protection (start k config (new alive regs protection)) := by
  unfold start
  cases hallocates : k.allocates with
  | none =>
    refine ⟨0, (fun _ hfalse ↦ nomatch hfalse), ?_⟩
    exact .returned rfl ((seizing_new hsound 0).exact .returned)
  | some scratch =>
    have harms := harms scratch hallocates
    have hseizing : Seizing k config { new alive regs protection with scratch := scratch }
        (seized k config (new alive regs protection) scratch) :=
      seizePasses_spec hsound.proper Phase.noConfusion 6 0 (seizing_new hsound scratch)
    dsimp only
    unfold seized at harms hseizing
    generalize seizePasses k config 6 0 { new alive regs protection with scratch := scratch } = s
      at harms hseizing ⊢
    have hundisturbed : Undisturbed k config protection s.clock := by
      have horiginal : s.original = protection := hseizing.original
      rw [← horiginal]
      exact harms.undisturbed
    refine ⟨s.clock, fun _ _ ↦ hundisturbed, ?_⟩
    split
    · exact .returned rfl (hseizing.exact .returned)
    · next armTid rest hattached =>
      have hsteady : Steady k config none true true s :=
        { hseizing.steady with
          traced := fun _ ↦ harms.traced
          guard := fun hfalse ↦ nomatch hfalse }
      obtain ⟨harmed, htime⟩ := arm_spec armTid harms.undisturbed hsteady hseizing.phase le_rfl
        (harms.granted armTid rest hattached) (fun stop ↦ harms.calm armTid rest stop hattached)
      refine .watching rfl (harmed.original.trans hseizing.original) {
        steady := { harmed.steady with }
        scratch := hallocates.trans (congrArg some (harmed.scratch.trans hseizing.scratch).symm)
        owned := ?_
        counted := fun instruction ↦ ?_
        time := htime }
      · change AllOwned (arm k config armTid s).attached (arm k config armTid s).threads
        rw [harmed.attached]
        exact harmed.owned _ hseizing.owned
      · change ((arm k config armTid s).results instruction).hitCount =
          hits config (arm k config armTid s).performed instruction
        rw [harmed.results, harmed.hits, hseizing.results, hseizing.hits]
        rfl

/-- A software watch is exact in every state of a run that is not disturbed. -/
theorem software_watch_exact (k : WatchKernel) (config : WatchConfig) (alive : ℕ → Bool)
    (regs : ℕ → ThreadRegs) (protection : ℕ → MemProt)
    (hsound : Sound k config alive regs protection)
    (harms : ∀ scratch, k.allocates = some scratch →
      Arms k config (seized k config (new alive regs protection) scratch))
    (horderly : ∀ n, Orderly k config (run k config n (start k config (new alive regs protection))))
    (n : ℕ) : Exact config (run k config n (start k config (new alive regs protection))) := by
  obtain ⟨time, hundisturbed, hsettled⟩ := settled_start hsound harms
  cases hallocates : k.allocates with
  | some scratch =>
    exact (settled_run (hundisturbed scratch hallocates) hsound.region hsettled horderly n).exact
  | none =>
    have hreturned : (start k config (new alive regs protection)).phase = .returned := by
      unfold start
      rw [hallocates]
    rw [run_returned hreturned]
    exact hsettled.exact

/-! ### A watch of one thread -/

/-- A watch for writes to four bytes. -/
def writeWatch (address : ℕ) : WatchConfig where
  pid := 1
  targetAddress := address
  size := 4
  writesOnly := true

/-- The registers of a thread at an instruction. -/
def regsAt (rip : ℕ) : ThreadRegs := { (default : ThreadRegs) with rip := rip, cs := 0x33 }

/-- A write of eight bytes at `0x1000`. -/
def wideWrite : DataAccess where
  address := 0x1000
  width := 8
  write := true
  after := regsAt 0x400004

/-- The only thread of the target makes the write when the loop waits for the first time; the watch
is stopped after it. -/
def writingKernel : WatchKernel where
  regions := [{ base := 0x1000, size := 0x1000, protection := 3 }]
  allocates := some 0x8000
  threads := fun _ ↦ [1]
  seizes := fun _ _ ↦ true
  happens := fun clock ↦ if clock = 5 then [.access 1 wideWrite] else []
  picks := fun _ ↦ 1
  cuts := fun _ ↦ none
  mprotects := fun _ ↦ true
  interrupts := fun _ ↦ true
  stopRequested := fun clock ↦ decide (5 < clock)
  disassemble := fun _ ↦ ([], [])

def writingTarget : Monitor :=
  new (fun tid ↦ decide (tid = 1)) (fun _ ↦ regsAt 0x400000) fun _ ↦ 3

def writingWatch (address n : ℕ) : Monitor :=
  run writingKernel (writeWatch address) n (start writingKernel (writeWatch address) writingTarget)

theorem placed_regsAt {address rip : ℕ} (hrip : rip ≠ 0x8000 ∧ rip ≠ 0x8010) :
    Placed writingKernel (writeWatch address) (regsAt rip) := by
  refine ⟨(fun hfalse ↦ nomatch hfalse), fun scratch hscratch ↦ ?_⟩
  cases hscratch
  exact hrip

theorem writing_sound {address : ℕ} (hpage : origProt writingKernel (writeWatch address) = 3) :
    Sound writingKernel (writeWatch address) (fun tid ↦ decide (tid = 1)) (fun _ ↦ regsAt 0x400000)
      fun _ ↦ 3 where
  region := fun _ _ ↦ hpage.symm
  placed := fun _ ↦ placed_regsAt (by decide)
  proper := by
    intro clock e hmem
    have hwrite : e = .access 1 wideWrite := by
      have hlist : e ∈ (if clock = 5 then [Happening.access 1 wideWrite] else []) := hmem
      split_ifs at hlist with hclock
      · exact List.mem_singleton.mp hlist
      · cases hlist
    subst hwrite
    exact ⟨placed_regsAt (by decide), fun _ ↦ by decide⟩

theorem writing_undisturbed : Undisturbed writingKernel (writeWatch 0x1000)
    (seized writingKernel (writeWatch 0x1000) writingTarget 0x8000).original
    (seized writingKernel (writeWatch 0x1000) writingTarget 0x8000).clock where
  proper := (writing_sound (by decide)).proper
  straight := fun _ _ _ _ _ _ ↦ .inr (by decide)
  cuts := fun _ _ ↦ rfl
  mprotects := fun _ _ ↦ rfl
  interrupts := fun _ _ ↦ rfl

theorem seized_threads : (seized writingKernel (writeWatch 0x1000) writingTarget 0x8000).threads =
    Function.update writingTarget.threads 1
      { Thread.free true (regsAt 0x400000) with traced := true } := rfl

theorem seized_attached :
    (seized writingKernel (writeWatch 0x1000) writingTarget 0x8000).attached = [1] := by
  decide

theorem writing_arms : Arms writingKernel (writeWatch 0x1000)
    (seized writingKernel (writeWatch 0x1000) writingTarget 0x8000) where
  traced := by
    intro tid halive
    rw [seized_threads] at halive ⊢
    by_cases heq : tid = 1
    · rw [heq, Function.update_self]
    · rw [Function.update_of_ne heq] at halive
      exact absurd (of_decide_eq_true halive) heq
  undisturbed := writing_undisturbed
  granted := by
    intro tid rest hattached
    cases seized_attached.symm.trans hattached
    decide
  calm := by
    intro tid rest stop hattached hstop
    cases seized_attached.symm.trans hattached
    have htrap : (waitFor writingKernel 1 (interrupt writingKernel 1
        (seized writingKernel (writeWatch 0x1000) writingTarget 0x8000)).1).2 = some .trap := by
      decide
    cases htrap.symm.trans hstop
    exact ⟨rfl, fun _ hfalse ↦ nomatch hfalse⟩

/-- The write is the only stop that the loop finds, and no other thread runs. -/
theorem writing_orderly (n : ℕ) :
    Orderly writingKernel (writeWatch 0x1000) (writingWatch 0x1000 n) := by
  match n with
  | 0 =>
    have hfault : (waitAny writingKernel (writingWatch 0x1000 0)).2 =
        some (1, .fault 0x1000 wideWrite) := by
      decide
    refine ⟨fun _ w child found hfound ↦ ?_, fun _ w address access found hfound _ clock hclock _ ↦ ?_,
      fun tid rest restored found stop hphase ↦ ?_⟩
    · rw [hfound] at hfault
      cases hfault
    · have hlater : (waitAny writingKernel (writingWatch 0x1000 0)).1.clock = 6 := by
        decide
      rw [hfound] at hlater
      intro tid access hmem
      have hclock : clock ≠ 5 := by
        rintro rfl
        rw [hlater] at hclock
        exact absurd hclock (by decide)
      have hnone : writingKernel.happens clock = [] := if_neg hclock
      rw [hnone] at hmem
      cases hmem
    · have hwatching : (writingWatch 0x1000 0).phase = .watching := by
        decide
      exact nomatch hwatching.symm.trans hphase
  | 1 =>
    have hnothing : (waitAny writingKernel (writingWatch 0x1000 1)).2 = none := by
      decide
    refine ⟨fun _ w child found hfound ↦ ?_, fun _ w address access found hfound ↦ ?_,
      fun tid rest restored found stop hphase ↦ ?_⟩
    · rw [hfound] at hnothing
      cases hnothing
    · rw [hfound] at hnothing
      cases hnothing
    · have hwatching : (writingWatch 0x1000 1).phase = .watching := by
        decide
      exact nomatch hwatching.symm.trans hphase
  | 2 =>
    have hleaving : (writingWatch 0x1000 2).phase = .leaving [1] false := by
      decide
    refine ⟨fun hphase ↦ ?_, fun hphase ↦ ?_,
      fun tid rest restored found stop hphase hfound hstop ↦ ?_⟩
    · exact nomatch hleaving.symm.trans hphase
    · exact nomatch hleaving.symm.trans hphase
    cases hleaving.symm.trans hphase
    have htrap : (waitFor writingKernel 1 (interrupt writingKernel 1 (writingWatch 0x1000 2)).1).2 =
        some .trap := by
      decide
    rw [hfound] at htrap
    cases htrap.symm.trans hstop
    rfl
  | n + 3 =>
    have hover : (writingWatch 0x1000 (n + 3)).phase = .leaving [] true ∨
        (writingWatch 0x1000 (n + 3)).phase = .returned := by
      cases n with
      | zero => exact .inl (by decide)
      | succ n =>
        have hreturned : (writingWatch 0x1000 4).phase = .returned := by
          decide
        have hlater : writingWatch 0x1000 (n + 4) = writingWatch 0x1000 4 := run_returned hreturned n
        exact .inr (hlater ▸ hreturned)
    refine ⟨fun hphase ↦ ?_, fun hphase ↦ ?_, fun tid rest restored found stop hphase ↦ ?_⟩
    · rw [hphase] at hover
      exact nomatch hover
    · rw [hphase] at hover
      exact nomatch hover
    · rw [hphase] at hover
      exact nomatch hover

/-- A write at the watched bytes is recorded. -/
theorem watched_write_recorded : ((writingWatch 0x1000 4).results 0x400000).hitCount = 1 ∧
    (writingWatch 0x1000 4).phase = .returned ∧ Exact (writeWatch 0x1000) (writingWatch 0x1000 4) :=
  ⟨by decide, by decide,
    software_watch_exact writingKernel (writeWatch 0x1000) (fun tid ↦ decide (tid = 1))
      (fun _ ↦ regsAt 0x400000) (fun _ ↦ 3) (writing_sound (by decide))
      (fun scratch hscratch ↦ by cases hscratch; exact writing_arms) writing_orderly 4⟩

/-- A write that begins below the watched bytes is made, and not recorded. -/
theorem straddling_write_missed :
    Sound writingKernel (writeWatch 0x1004) (fun tid ↦ decide (tid = 1)) (fun _ ↦ regsAt 0x400000)
      (fun _ ↦ 3) ∧
    (writingWatch 0x1004 4).phase = .returned ∧
    (writingWatch 0x1004 4).performed = [(0x400000, wideWrite)] ∧
    watches (writeWatch 0x1004) wideWrite = true ∧
    ((writingWatch 0x1004 4).results 0x400000).hitCount = 0 ∧
    ¬Exact (writeWatch 0x1004) (writingWatch 0x1004 4) := by
  have hperformed : (writingWatch 0x1004 4).performed = [(0x400000, wideWrite)] := by
    decide
  have hcount : ((writingWatch 0x1004 4).results 0x400000).hitCount = 0 := by
    decide
  refine ⟨writing_sound (by decide), by decide, hperformed, by decide, hcount, fun hexact ↦ ?_⟩
  have hrecorded := hexact.recorded 0x400000
  rw [hperformed, hcount] at hrecorded
  exact absurd hrecorded (by decide)

end Monitor

end Cecore.Debug.SoftwareWatch
