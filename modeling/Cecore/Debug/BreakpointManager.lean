import Cecore.Core.Types
import Mathlib.Data.List.Induction
import Mathlib.Data.List.Nodup
import Mathlib.Logic.Function.Basic

/-!
# The breakpoint manager

The list of breakpoints with their debug registers. A hardware breakpoint that is added without a
register gets one that no enabled breakpoint has, but a breakpoint that is enabled again keeps the
register it was given when it was added: `exclusive_run_iff` says when two enabled ones never meet
in one register.
-/

set_option autoImplicit false
set_option relaxedAutoImplicit false

namespace Cecore.Debug

/-! ### Breakpoints -/

inductive BpMethod
  | hardware
  | software
  deriving DecidableEq, Repr

/-- The registers that a condition can read. -/
structure CpuContext where
  rax : ℕ
  rbx : ℕ
  rcx : ℕ
  rdx : ℕ
  rsi : ℕ
  rdi : ℕ
  rbp : ℕ
  rsp : ℕ
  r8 : ℕ
  r9 : ℕ
  r10 : ℕ
  r11 : ℕ
  r12 : ℕ
  r13 : ℕ
  r14 : ℕ
  r15 : ℕ
  rip : ℕ
  rflags : ℕ
  deriving DecidableEq, Repr

structure Breakpoint where
  id : ℕ := 0
  address : ℕ := 0
  method : BpMethod := .hardware
  /-- DR0 to DR3; negative for none. -/
  hwRegister : ℤ := -1
  enabled : Bool := true
  oneShot : Bool := false
  /-- Zero for all threads. -/
  threadFilter : ℕ := 0
  condition : Text := []
  description : Text := []
  hitCount : ℕ := 0
  deriving DecidableEq, Repr

structure BreakpointHit where
  address : ℕ
  rip : ℕ
  tid : ℕ
  context : CpuContext
  deriving DecidableEq, Repr

structure BreakpointManager where
  breakpoints : List Breakpoint := []
  /-- An id that has no log has the empty one. -/
  hitLog : ℕ → List BreakpointHit := fun _ ↦ []
  nextId : ℕ := 1

/-- The first breakpoint of an id changed in place. -/
def updateFirst (id : ℕ) (f : Breakpoint → Breakpoint) : List Breakpoint → List Breakpoint
  | [] => []
  | b :: rest => if b.id = id then f b :: rest else b :: updateFirst id f rest

namespace BreakpointManager

/-- The first of DR0 to DR3 that no enabled breakpoint has, or -1. -/
def findFreeHwRegister (m : BreakpointManager) : ℤ :=
  match (List.range 4).find? fun i ↦
    decide (∀ b ∈ m.breakpoints, ¬(b.enabled = true ∧ b.hwRegister = i)) with
  | some i => i
  | none => -1

/-- The breakpoint that `add` makes of its argument. -/
def numbered (m : BreakpointManager) (bp : Breakpoint) : Breakpoint :=
  { bp with
    id := m.nextId
    hwRegister := if bp.method = .hardware ∧ bp.hwRegister < 0 then m.findFreeHwRegister
      else bp.hwRegister }

/-- `add`, which returns the id. -/
def add (bp : Breakpoint) (m : BreakpointManager) : BreakpointManager × ℕ :=
  ({ m with breakpoints := m.breakpoints ++ [m.numbered bp], nextId := m.nextId + 1 }, m.nextId)

def remove (id : ℕ) (m : BreakpointManager) : BreakpointManager :=
  { m with
    breakpoints := m.breakpoints.filter fun b ↦ decide (b.id ≠ id)
    hitLog := Function.update m.hitLog id [] }

def setEnabled (id : ℕ) (enabled : Bool) (m : BreakpointManager) : BreakpointManager :=
  { m with breakpoints := updateFirst id (fun b ↦ { b with enabled }) m.breakpoints }

end BreakpointManager

/-! ### Lists with one breakpoint for each id -/

theorem find?_id {breakpoints : List Breakpoint} {id : ℕ} {b : Breakpoint}
    (h : breakpoints.find? (fun b ↦ decide (b.id = id)) = some b) : b ∈ breakpoints ∧ b.id = id :=
  ⟨List.mem_of_find?_eq_some h, by simpa using List.find?_some h⟩

theorem updateFirst_eq_map {breakpoints : List Breakpoint}
    (hnodup : (breakpoints.map Breakpoint.id).Nodup)
    (id : ℕ) (f : Breakpoint → Breakpoint) :
    updateFirst id f breakpoints = breakpoints.map fun b ↦ if b.id = id then f b else b := by
  induction breakpoints with
  | nil => rfl
  | cons b rest ih =>
    obtain ⟨hfresh, hrest⟩ := List.nodup_cons.mp hnodup
    rw [updateFirst, List.map_cons]
    split_ifs with hid
    · have hothers : rest.map (fun b ↦ if b.id = id then f b else b) = rest.map fun b ↦ b := by
        refine List.map_congr_left fun other hother ↦ if_neg fun hsame ↦ hfresh ?_
        rw [hid, ← hsame]
        exact List.mem_map_of_mem hother
      rw [hothers, List.map_id']
    · rw [ih hrest]

/-- Taking the breakpoint of an id out leaves the others. -/
theorem mem_eraseP_id {breakpoints : List Breakpoint} (hnodup : (breakpoints.map Breakpoint.id).Nodup)
    {id : ℕ} {b : Breakpoint} (hb : b ∈ breakpoints.eraseP fun b ↦ decide (b.id = id)) :
    b ∈ breakpoints ∧ b.id ≠ id := by
  induction breakpoints with
  | nil => cases hb
  | cons first rest ih =>
    obtain ⟨hfresh, hrest⟩ := List.nodup_cons.mp hnodup
    rw [List.eraseP_cons] at hb
    by_cases hid : first.id = id
    · rw [decide_eq_true hid, cond_true] at hb
      refine ⟨List.mem_cons_of_mem _ hb, fun hsame ↦ hfresh ?_⟩
      rw [hid, ← hsame]
      exact List.mem_map_of_mem hb
    · rw [decide_eq_false hid, cond_false] at hb
      rcases List.mem_cons.mp hb with rfl | hb
      · exact ⟨List.mem_cons_self, hid⟩
      · exact ⟨List.mem_cons_of_mem _ (ih hrest hb).1, (ih hrest hb).2⟩

/-- A change that keeps the ids keeps them all. -/
theorem map_id_updateFirst {f : Breakpoint → Breakpoint} (hid : ∀ b, (f b).id = b.id) (id : ℕ)
    (breakpoints : List Breakpoint) :
    (updateFirst id f breakpoints).map Breakpoint.id = breakpoints.map Breakpoint.id := by
  induction breakpoints with
  | nil => rfl
  | cons b rest ih =>
    rw [updateFirst]
    split_ifs with hsame
    · rw [List.map_cons, List.map_cons, hid]
    · rw [List.map_cons, List.map_cons, ih]

namespace BreakpointManager

/-- Ids are given once. -/
structure Numbered (m : BreakpointManager) : Prop where
  nodup : (m.breakpoints.map Breakpoint.id).Nodup
  below : ∀ b ∈ m.breakpoints, b.id < m.nextId

variable {m : BreakpointManager}

theorem numbered_empty : Numbered {} where
  nodup := List.nodup_nil
  below := by simp

theorem Numbered.add (h : m.Numbered) (bp : Breakpoint) : (m.add bp).1.Numbered where
  nodup := by
    rw [BreakpointManager.add, List.map_append, List.map_singleton, List.nodup_append]
    refine ⟨h.nodup, List.nodup_singleton _, fun id hid other hother ↦ ?_⟩
    obtain ⟨b, hb, rfl⟩ := List.mem_map.mp hid
    rw [List.mem_singleton.mp hother]
    exact (h.below b hb).ne
  below := by
    intro b hb
    rcases List.mem_append.mp hb with hb | hb
    · exact (h.below b hb).trans (Nat.lt_succ_self _)
    · rw [List.mem_singleton.mp hb]
      exact Nat.lt_succ_self _

theorem Numbered.remove (h : m.Numbered) (id : ℕ) : (m.remove id).Numbered where
  nodup := h.nodup.sublist (List.filter_sublist.map Breakpoint.id)
  below := fun b hb ↦ h.below b (List.mem_of_mem_filter hb)

/-- A change in place that keeps the ids. -/
theorem Numbered.update (h : m.Numbered) (id : ℕ) {f : Breakpoint → Breakpoint}
    (hid : ∀ b, (f b).id = b.id) (hitLog : ℕ → List BreakpointHit) :
    Numbered ⟨updateFirst id f m.breakpoints, hitLog, m.nextId⟩ where
  nodup := by
    rw [map_id_updateFirst hid]
    exact h.nodup
  below := by
    intro b hb
    have hmem := List.mem_map_of_mem (f := Breakpoint.id) hb
    rw [map_id_updateFirst hid] at hmem
    obtain ⟨before, hbefore, hsame⟩ := List.mem_map.mp hmem
    rw [← hsame]
    exact h.below before hbefore

theorem Numbered.eq_of_id (h : m.Numbered) {b other : Breakpoint} (hb : b ∈ m.breakpoints)
    (hother : other ∈ m.breakpoints) (hid : b.id = other.id) : b = other :=
  List.inj_on_of_nodup_map h.nodup hb hother hid

end BreakpointManager

/-! ### Debug registers -/

/-- An enabled hardware breakpoint that has a register. -/
def Breakpoint.Occupies (b : Breakpoint) : Prop :=
  b.enabled = true ∧ b.method = .hardware ∧ 0 ≤ b.hwRegister

instance : DecidablePred Breakpoint.Occupies :=
  fun b ↦ inferInstanceAs (Decidable (b.enabled = true ∧ b.method = .hardware ∧ 0 ≤ b.hwRegister))

namespace BreakpointManager

variable {m : BreakpointManager}

/-- Any two enabled hardware breakpoints have different registers. -/
def Exclusive (m : BreakpointManager) : Prop :=
  ∀ b ∈ m.breakpoints, ∀ other ∈ m.breakpoints, b.id ≠ other.id → b.Occupies → other.Occupies →
    b.hwRegister ≠ other.hwRegister

instance : DecidablePred Exclusive := fun m ↦
  inferInstanceAs (Decidable (∀ b ∈ m.breakpoints, ∀ other ∈ m.breakpoints, b.id ≠ other.id →
    b.Occupies → other.Occupies → b.hwRegister ≠ other.hwRegister))

inductive Op
  | add (bp : Breakpoint)
  | remove (id : ℕ)
  | setEnabled (id : ℕ) (enabled : Bool)
  deriving DecidableEq, Repr

def apply (m : BreakpointManager) : Op → BreakpointManager
  | .add bp => (m.add bp).1
  | .remove id => m.remove id
  | .setEnabled id enabled => m.setEnabled id enabled

def run (ops : List Op) : BreakpointManager := ops.foldl apply {}

/-- A hardware breakpoint is added without a register. -/
def Op.Automatic : Op → Prop
  | .add bp => bp.method = .hardware → bp.hwRegister < 0
  | _ => True

instance : DecidablePred Op.Automatic
  | .add bp => inferInstanceAs (Decidable (bp.method = .hardware → bp.hwRegister < 0))
  | .remove _ => .isTrue trivial
  | .setEnabled _ _ => .isTrue trivial

/-- A hardware breakpoint that is enabled has no register, or one that no other enabled hardware
breakpoint has. -/
def Op.EnablesFree (m : BreakpointManager) : Op → Prop
  | .setEnabled id true => ∀ b ∈ m.breakpoints, b.id = id → b.method = .hardware →
      0 ≤ b.hwRegister → ∀ other ∈ m.breakpoints, other.id ≠ id → other.Occupies →
        other.hwRegister ≠ b.hwRegister
  | _ => True

theorem findFreeHwRegister_ne (hfree : 0 ≤ m.findFreeHwRegister) {b : Breakpoint}
    (hb : b ∈ m.breakpoints) (henabled : b.enabled = true) :
    b.hwRegister ≠ m.findFreeHwRegister := by
  unfold findFreeHwRegister at hfree ⊢
  cases hfind : (List.range 4).find? fun i ↦
      decide (∀ b ∈ m.breakpoints, ¬(b.enabled = true ∧ b.hwRegister = i)) with
  | none =>
    rw [hfind] at hfree
    exact absurd hfree (by decide)
  | some i =>
    have hunused := List.find?_some hfind
    rw [decide_eq_true_eq] at hunused
    exact fun hsame ↦ hunused b hb ⟨henabled, hsame⟩

/-- A breakpoint that gets a register gets one that no enabled breakpoint has. -/
theorem numbered_ne {bp : Breakpoint} (hauto : bp.method = .hardware → bp.hwRegister < 0)
    (hoccupies : (m.numbered bp).Occupies) {b : Breakpoint} (hb : b ∈ m.breakpoints)
    (henabled : b.enabled = true) : b.hwRegister ≠ (m.numbered bp).hwRegister := by
  obtain ⟨-, hmethod, hregister⟩ := hoccupies
  have hmethod : bp.method = .hardware := hmethod
  have hsame : (m.numbered bp).hwRegister = m.findFreeHwRegister :=
    if_pos ⟨hmethod, hauto hmethod⟩
  rw [hsame] at hregister ⊢
  exact findFreeHwRegister_ne hregister hb henabled

theorem Exclusive.add (h : m.Exclusive) {bp : Breakpoint}
    (hauto : bp.method = .hardware → bp.hwRegister < 0) : (m.add bp).1.Exclusive := by
  intro b hb other hother hne hoccupies hoccupied
  rcases List.mem_append.mp hb with hb | hb
  · rcases List.mem_append.mp hother with hother | hother
    · exact h b hb other hother hne hoccupies hoccupied
    · rw [List.mem_singleton.mp hother] at hoccupied ⊢
      exact numbered_ne hauto hoccupied hb hoccupies.1
  · rw [List.mem_singleton.mp hb] at hne hoccupies ⊢
    rcases List.mem_append.mp hother with hother | hother
    · exact (numbered_ne hauto hoccupies hother hoccupied.1).symm
    · rw [List.mem_singleton.mp hother] at hne
      exact absurd rfl hne

theorem Exclusive.remove (h : m.Exclusive) (id : ℕ) : (m.remove id).Exclusive :=
  fun b hb other hother ↦ h b (List.mem_of_mem_filter hb) other (List.mem_of_mem_filter hother)

theorem mem_setEnabled (hnumbered : m.Numbered) {id : ℕ} {enabled : Bool} {b : Breakpoint} :
    b ∈ (m.setEnabled id enabled).breakpoints ↔
      ∃ before ∈ m.breakpoints, (if before.id = id then { before with enabled } else before) = b := by
  rw [setEnabled, updateFirst_eq_map hnumbered.nodup]
  exact List.mem_map

/-- A breakpoint that is enabled against the others. -/
theorem enabled_ne {id : ℕ} {enabled : Bool} (hfree : Op.EnablesFree m (.setEnabled id enabled))
    {b other : Breakpoint} (hb : b ∈ m.breakpoints) (hid : b.id = id) (hother : other ∈ m.breakpoints)
    (hne : other.id ≠ id) (hoccupies : ({ b with enabled } : Breakpoint).Occupies)
    (hoccupied : other.Occupies) : other.hwRegister ≠ b.hwRegister := by
  obtain ⟨henabled, hmethod, hregister⟩ := hoccupies
  obtain rfl : enabled = true := henabled
  exact hfree b hb hid hmethod hregister other hother hne hoccupied

theorem Exclusive.setEnabled (hnumbered : m.Numbered) (h : m.Exclusive) {id : ℕ} {enabled : Bool}
    (hfree : Op.EnablesFree m (.setEnabled id enabled)) : (m.setEnabled id enabled).Exclusive := by
  intro after hafter otherAfter hotherAfter hne hoccupies hoccupied
  obtain ⟨b, hb, rfl⟩ := (mem_setEnabled hnumbered).mp hafter
  obtain ⟨other, hother, rfl⟩ := (mem_setEnabled hnumbered).mp hotherAfter
  by_cases hid : b.id = id
  · rw [if_pos hid] at hne hoccupies ⊢
    by_cases hotherId : other.id = id
    · rw [if_pos hotherId] at hne
      exact absurd (hid.trans hotherId.symm) hne
    · rw [if_neg hotherId] at hoccupied ⊢
      exact (@enabled_ne m id enabled hfree b other hb hid hother hotherId hoccupies
        hoccupied).symm
  · rw [if_neg hid] at hne hoccupies ⊢
    by_cases hotherId : other.id = id
    · rw [if_pos hotherId] at hoccupied ⊢
      exact @enabled_ne m id enabled hfree other b hother hotherId hb hid hoccupied hoccupies
    · rw [if_neg hotherId] at hne hoccupied ⊢
      exact h b hb other hother hne hoccupies hoccupied

/-- Only a free register can be enabled without a clash. -/
theorem Exclusive.enablesFree (hnumbered : m.Numbered) {id : ℕ}
    (h : (m.setEnabled id true).Exclusive) : Op.EnablesFree m (.setEnabled id true) := by
  intro b hb hid hmethod hregister other hother hne hoccupied
  have hbAfter : { b with enabled := true } ∈ (m.setEnabled id true).breakpoints :=
    (mem_setEnabled hnumbered).mpr ⟨b, hb, if_pos hid⟩
  have hotherAfter : other ∈ (m.setEnabled id true).breakpoints :=
    (mem_setEnabled hnumbered).mpr ⟨other, hother, if_neg hne⟩
  exact h other hotherAfter { b with enabled := true } hbAfter
    (fun hsame ↦ hne (hsame.trans hid)) hoccupied
    ⟨rfl, hmethod, hregister⟩

theorem Exclusive.apply (hnumbered : m.Numbered) (h : m.Exclusive) {op : Op}
    (hauto : op.Automatic) (hfree : op.EnablesFree m) : (m.apply op).Exclusive := by
  cases op with
  | add bp => exact h.add hauto
  | remove id => exact h.remove id
  | setEnabled id enabled => exact h.setEnabled hnumbered hfree

theorem Numbered.apply (h : m.Numbered) (op : Op) : (m.apply op).Numbered := by
  cases op with
  | add bp => exact h.add bp
  | remove id => exact h.remove id
  | setEnabled id enabled => exact h.update id (f := fun b ↦ { b with enabled }) (fun _ ↦ rfl) m.hitLog

theorem run_concat (ops : List Op) (op : Op) : run (ops ++ [op]) = (run ops).apply op := by
  rw [run, List.foldl_append]
  rfl

theorem numbered_run (ops : List Op) : (run ops).Numbered := by
  induction ops using List.reverseRecOn with
  | nil => exact numbered_empty
  | append_singleton ops op ih =>
    rw [run_concat]
    exact ih.apply op

/-- With registers given automatically, the enabled hardware breakpoints have different registers
all along exactly if no breakpoint is enabled whose register another one has by then. -/
theorem exclusive_run_iff (ops : List Op) (hauto : ∀ op ∈ ops, op.Automatic) :
    (∀ before after, ops = before ++ after → (run before).Exclusive) ↔
      ∀ before op after, ops = before ++ op :: after → op.EnablesFree (run before) := by
  constructor
  · intro hexclusive before op after hsplit
    have hnext := hexclusive (before ++ [op]) after (by rw [hsplit, List.append_assoc]; rfl)
    rw [run_concat] at hnext
    cases op with
    | setEnabled id enabled =>
      cases enabled with
      | true => exact Exclusive.enablesFree (numbered_run before) hnext
      | false => trivial
    | add bp => trivial
    | remove id => trivial
  · intro hfree before
    induction before using List.reverseRecOn with
    | nil =>
      intro _ _ b hb
      cases hb
    | append_singleton before op ih =>
      intro after hsplit
      rw [List.append_assoc, List.singleton_append] at hsplit
      rw [run_concat]
      refine (ih (op :: after) hsplit).apply (numbered_run before) (hauto op ?_)
        (hfree before op after hsplit)
      rw [hsplit]
      simp

/-- One breakpoint is disabled, and enabled again while another one is in its register. -/
def reusedRegister : List Op :=
  [.add {}, .setEnabled 1 false, .add {}, .setEnabled 1 true]

theorem exclusive_run_iff_add :
    (∀ before after, [Op.add {}, .add {}] = before ++ after → (run before).Exclusive) ↔
      ∀ before op after, [Op.add {}, .add {}] = before ++ op :: after →
        op.EnablesFree (run before) :=
  exclusive_run_iff [.add {}, .add {}] (by decide)

theorem reusedRegister_not_exclusive :
    (∀ op ∈ reusedRegister, op.Automatic) ∧ ¬(run reusedRegister).Exclusive := by
  decide

end BreakpointManager

end Cecore.Debug
