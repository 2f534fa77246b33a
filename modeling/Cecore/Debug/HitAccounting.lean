import Cecore.Debug.BreakpointManager

/-!
# Hits that several threads record

`recordHit` takes the lock of the manager twice: it checks a copy of the breakpoint, and counts,
logs and delivers the hit under the second lock. A `HitSystem` is a manager with the calls under
way, and an action is what one thread does under one lock, so that a list of actions is an
interleaving.
-/

set_option autoImplicit false
set_option relaxedAutoImplicit false

namespace Cecore.Debug

/-! ### The two parts of recordHit -/

/-- `conditionMatches`: no condition matches, and so does one that fails. -/
def conditionMatches (lua : Breakpoint → BreakpointHit → Option Bool) (bp : Breakpoint)
    (hit : BreakpointHit) : Bool :=
  if bp.condition = [] then true else (lua bp hit).getD true

/-- The largest log of one breakpoint. -/
def maxHits : ℕ := 10000

/-- A log that has grown too long loses its first half. -/
def capHits (log : List BreakpointHit) : List BreakpointHit :=
  if maxHits < log.length then log.drop 5000 else log

namespace BreakpointManager

/-- `recordHit` up to its second lock: whether it goes on. -/
def checkHit (lua : Breakpoint → BreakpointHit → Option Bool) (id : ℕ) (hit : BreakpointHit)
    (m : BreakpointManager) : Bool :=
  match m.breakpoints.find? fun b ↦ decide (b.id = id) with
  | none => false
  | some bp => bp.enabled && (bp.threadFilter == 0 || bp.threadFilter == hit.tid) &&
      conditionMatches lua bp hit

/-- `recordHit` under its second lock, with the breakpoint that the callback is given. -/
def countHit (id : ℕ) (hit : BreakpointHit) (m : BreakpointManager) :
    BreakpointManager × Option Breakpoint :=
  match m.breakpoints.find? fun b ↦ decide (b.id = id) with
  | none => (m, none)
  | some bp =>
    ({ m with
        breakpoints := if bp.oneShot then m.breakpoints.eraseP fun b ↦ decide (b.id = id)
          else updateFirst id (fun b ↦ { b with hitCount := b.hitCount + 1 }) m.breakpoints
        hitLog := Function.update m.hitLog id (capHits (m.hitLog id ++ [hit])) },
      some { bp with
        hitCount := bp.hitCount + 1
        enabled := if bp.oneShot then false else bp.enabled })

end BreakpointManager

/-! ### Interleavings -/

inductive CallStage
  | begun
  | checked
  | done
  deriving DecidableEq, Repr

/-- A call of `recordHit`. -/
structure HitCall where
  id : ℕ
  hit : BreakpointHit
  stage : CallStage
  deriving DecidableEq, Repr

/-- A hit delivered by the call at a place of the list of calls. -/
structure Delivery where
  call : ℕ
  bp : Breakpoint
  hit : BreakpointHit
  deriving DecidableEq, Repr

/-- A manager with the calls of `recordHit`, the hits they delivered and the breakpoints as they
were added. -/
structure HitSystem where
  manager : BreakpointManager := {}
  calls : List HitCall := []
  delivered : List Delivery := []
  added : List Breakpoint := []

/-- What a thread does at a time: one of the other operations, or a part of a call. -/
inductive Action
  | op (op : BreakpointManager.Op)
  | begin (id : ℕ) (hit : BreakpointHit)
  | check (call : ℕ)
  | count (call : ℕ)
  deriving DecidableEq, Repr

/-- The hits delivered for a breakpoint. -/
def deliveriesOf (id : ℕ) (delivered : List Delivery) : List Delivery :=
  delivered.filter fun d ↦ decide (d.bp.id = id)

namespace HitSystem

open BreakpointManager (Op)

/-- A call moves on. -/
def setStage (s : HitSystem) (call : ℕ) (stage : CallStage) : HitSystem :=
  { s with calls := s.calls.modify call fun c ↦ { c with stage } }

def step (lua : Breakpoint → BreakpointHit → Option Bool) (s : HitSystem) : Action → HitSystem
  | .op op =>
    { s with
      manager := s.manager.apply op
      added := match op with
        | .add bp => s.added ++ [s.manager.numbered bp]
        | _ => s.added }
  | .begin id hit => { s with calls := s.calls ++ [⟨id, hit, .begun⟩] }
  | .check call =>
    match s.calls[call]? with
    | some ⟨id, hit, .begun⟩ =>
      s.setStage call (if s.manager.checkHit lua id hit then .checked else .done)
    | _ => s
  | .count call =>
    match s.calls[call]? with
    | some ⟨id, hit, .checked⟩ =>
      match s.manager.countHit id hit with
      | (_, none) => s.setStage call .done
      | (manager, some bp) =>
        { s.setStage call .done with manager, delivered := s.delivered ++ [⟨call, bp, hit⟩] }
    | _ => s

def run (lua : Breakpoint → BreakpointHit → Option Bool) (actions : List Action) : HitSystem :=
  actions.foldl (step lua) {}

/-- Hits are delivered, counted and logged as they should be. -/
structure Accounted (s : HitSystem) : Prop where
  oneShot : ∀ a ∈ s.added, a.oneShot = true → (deliveriesOf a.id s.delivered).length ≤ 1
  hitCount : ∀ b ∈ s.manager.breakpoints, ∃ a ∈ s.added, a.id = b.id ∧
    b.hitCount = a.hitCount + (deliveriesOf b.id s.delivered).length
  logged : ∀ id, s.manager.hitLog id <:+ (deliveriesOf id s.delivered).map Delivery.hit ∧
    (s.manager.hitLog id).length ≤ maxHits

/-- The breakpoint of an id is disabled. -/
def Disabled (s : HitSystem) (id : ℕ) : Prop :=
  ∃ b ∈ s.manager.breakpoints, b.id = id ∧ b.enabled = false

variable {lua : Breakpoint → BreakpointHit → Option Bool} {s : HitSystem}

/-! ### What each step preserves -/

theorem deliveriesOf_concat (id : ℕ) (delivered : List Delivery) (d : Delivery) :
    deliveriesOf id (delivered ++ [d]) =
      if d.bp.id = id then deliveriesOf id delivered ++ [d] else deliveriesOf id delivered := by
  unfold deliveriesOf
  rw [List.filter_append, List.filter_singleton]
  split_ifs with hid <;> simp [hid]

/-- The books of a system: a breakpoint in the list is one that was added, with the hits delivered
for it counted, and one that is a one-shot has none. -/
structure Booked (s : HitSystem) : Prop where
  numbered : s.manager.Numbered
  below : ∀ a ∈ s.added, a.id < s.manager.nextId
  fresh : ∀ d ∈ s.delivered, d.bp.id < s.manager.nextId
  listed : ∀ b ∈ s.manager.breakpoints, ∃ a ∈ s.added, a.id = b.id ∧
    b.hitCount = a.hitCount + (deliveriesOf b.id s.delivered).length
  same : ∀ b ∈ s.manager.breakpoints, ∀ a ∈ s.added, a.id = b.id → a.oneShot = b.oneShot
  unused : ∀ b ∈ s.manager.breakpoints, b.oneShot = true → deliveriesOf b.id s.delivered = []
  oneShot : ∀ a ∈ s.added, a.oneShot = true → (deliveriesOf a.id s.delivered).length ≤ 1
  logged : ∀ id, s.manager.hitLog id <:+ (deliveriesOf id s.delivered).map Delivery.hit ∧
    (s.manager.hitLog id).length ≤ maxHits

theorem Booked.accounted (h : s.Booked) : s.Accounted := ⟨h.oneShot, h.listed, h.logged⟩

theorem booked_empty : Booked {} where
  numbered := BreakpointManager.numbered_empty
  below := by simp
  fresh := by simp
  listed := by simp
  same := by simp
  unused := by simp
  oneShot := by simp
  logged := fun _ ↦ ⟨List.nil_suffix, Nat.zero_le _⟩

/-- The calls are no part of the books. -/
theorem Booked.calls (h : s.Booked) (calls : List HitCall) : Booked { s with calls } :=
  ⟨h.numbered, h.below, h.fresh, h.listed, h.same, h.unused, h.oneShot, h.logged⟩

theorem Booked.add (h : s.Booked) (bp : Breakpoint) : (s.step lua (.op (.add bp))).Booked := by
  have hnone : deliveriesOf s.manager.nextId s.delivered = [] :=
    List.filter_eq_nil_iff.mpr fun d hd ↦ by simpa using (h.fresh d hd).ne
  have hnew : ∀ {P : Breakpoint → Prop}, (∀ b ∈ s.manager.breakpoints, P b) →
      P (s.manager.numbered bp) → ∀ b ∈ (s.step lua (.op (.add bp))).manager.breakpoints, P b := by
    intro P hold hlast b hb
    rcases List.mem_append.mp hb with hb | hb
    · exact hold b hb
    · rw [List.mem_singleton.mp hb]
      exact hlast
  refine ⟨h.numbered.add bp, ?_, fun d hd ↦ (h.fresh d hd).trans (Nat.lt_succ_self _),
    hnew ?_ ?_, hnew ?_ ?_, hnew ?_ ?_, ?_, h.logged⟩
  · intro a ha
    rcases List.mem_append.mp ha with ha | ha
    · exact (h.below a ha).trans (Nat.lt_succ_self _)
    · rw [List.mem_singleton.mp ha]
      exact Nat.lt_succ_self _
  · intro b hb
    obtain ⟨a, ha, hsame⟩ := h.listed b hb
    exact ⟨a, List.mem_append_left _ ha, hsame⟩
  · refine ⟨s.manager.numbered bp, List.mem_append_right _ List.mem_cons_self, rfl, ?_⟩
    change _ = _ + (deliveriesOf s.manager.nextId s.delivered).length
    rw [hnone]
    rfl
  · intro b hb a ha hid
    rcases List.mem_append.mp ha with ha | ha
    · exact h.same b hb a ha hid
    · rw [List.mem_singleton.mp ha] at hid
      exact absurd hid (h.numbered.below b hb).ne'
  · intro a ha hid
    rcases List.mem_append.mp ha with ha | ha
    · exact absurd hid (h.below a ha).ne
    · rw [List.mem_singleton.mp ha]
  · exact h.unused
  · exact fun _ ↦ hnone
  · intro a ha honce
    rcases List.mem_append.mp ha with ha | ha
    · exact h.oneShot a ha honce
    · rw [List.mem_singleton.mp ha]
      change (deliveriesOf s.manager.nextId s.delivered).length ≤ 1
      rw [hnone]
      exact Nat.zero_le 1

theorem Booked.remove (h : s.Booked) (id : ℕ) : (s.step lua (.op (.remove id))).Booked := by
  have hkept : ∀ {b}, b ∈ (s.manager.remove id).breakpoints → b ∈ s.manager.breakpoints :=
    List.mem_of_mem_filter
  refine ⟨h.numbered.remove id, h.below, h.fresh, fun b hb ↦ h.listed b (hkept hb),
    fun b hb ↦ h.same b (hkept hb), fun b hb ↦ h.unused b (hkept hb), h.oneShot, fun other ↦ ?_⟩
  change Function.update s.manager.hitLog id [] other <:+ _ ∧ _
  by_cases hother : other = id
  · subst hother
    change _ ∧ (Function.update s.manager.hitLog other [] other).length ≤ maxHits
    rw [Function.update_self]
    exact ⟨List.nil_suffix, Nat.zero_le _⟩
  · change _ ∧ (Function.update s.manager.hitLog id [] other).length ≤ maxHits
    rw [Function.update_of_ne hother]
    exact h.logged other

theorem Booked.setEnabled (h : s.Booked) (id : ℕ) (enabled : Bool) :
    (s.step lua (.op (.setEnabled id enabled))).Booked := by
  have hkept : ∀ {P : Breakpoint → Prop}, (∀ b ∈ s.manager.breakpoints, P b) →
      (∀ b, P b → P { b with enabled }) →
        ∀ b ∈ (s.manager.setEnabled id enabled).breakpoints, P b := by
    intro P hold hchange b hb
    obtain ⟨before, hbefore, rfl⟩ := (BreakpointManager.mem_setEnabled h.numbered).mp hb
    split_ifs
    · exact hchange before (hold before hbefore)
    · exact hold before hbefore
  refine ⟨h.numbered.apply (.setEnabled id enabled), h.below, h.fresh, ?_, ?_, ?_, h.oneShot,
    h.logged⟩
  · exact hkept h.listed fun _ hb ↦ hb
  · exact hkept h.same fun _ hb ↦ hb
  · exact hkept h.unused fun _ hb ↦ hb

theorem capHits_suffix (log : List BreakpointHit) : capHits log <:+ log := by
  unfold capHits
  split_ifs
  · exact List.drop_suffix _ _
  · exact List.suffix_rfl

theorem capHits_length {log : List BreakpointHit} (hlog : log.length ≤ maxHits)
    (hit : BreakpointHit) : (capHits (log ++ [hit])).length ≤ maxHits := by
  unfold capHits
  split_ifs with hlong
  · rw [List.length_drop, List.length_append, List.length_singleton]
    omega
  · exact Nat.le_of_not_lt hlong

/-- A hit that is delivered for a breakpoint in the list. -/
theorem Booked.delivers (h : s.Booked) {bp : Breakpoint} (hbp : bp ∈ s.manager.breakpoints)
    (call : ℕ) (hit : BreakpointHit) {breakpoints : List Breakpoint}
    (hbreakpoints : breakpoints = if bp.oneShot then
        s.manager.breakpoints.eraseP fun b ↦ decide (b.id = bp.id)
      else updateFirst bp.id (fun b ↦ { b with hitCount := b.hitCount + 1 }) s.manager.breakpoints)
    (delivered : Breakpoint) (hdelivered : delivered.id = bp.id) :
    Booked { s with
      manager := { s.manager with
        breakpoints
        hitLog := Function.update s.manager.hitLog bp.id
          (capHits (s.manager.hitLog bp.id ++ [hit])) }
      delivered := s.delivered ++ [⟨call, delivered, hit⟩] } := by
  have hself : deliveriesOf bp.id (s.delivered ++ [⟨call, delivered, hit⟩]) =
      deliveriesOf bp.id s.delivered ++ [⟨call, delivered, hit⟩] := by
    rw [deliveriesOf_concat, if_pos hdelivered]
  have hothers : ∀ {id}, id ≠ bp.id →
      deliveriesOf id (s.delivered ++ [⟨call, delivered, hit⟩]) = deliveriesOf id s.delivered := by
    intro id hid
    rw [deliveriesOf_concat, if_neg fun hsame ↦ hid (hsame.symm.trans hdelivered)]
  -- a breakpoint that is left is another one, or the counted one
  have hleft : ∀ b ∈ breakpoints, (b ∈ s.manager.breakpoints ∧ b.id ≠ bp.id) ∨
      (bp.oneShot = false ∧ b = { bp with hitCount := bp.hitCount + 1 }) := by
    intro b hb
    rw [hbreakpoints] at hb
    by_cases honce : bp.oneShot = true
    · rw [if_pos honce] at hb
      exact Or.inl (mem_eraseP_id h.numbered.nodup hb)
    · rw [if_neg honce, updateFirst_eq_map h.numbered.nodup] at hb
      obtain ⟨before, hbefore, rfl⟩ := List.mem_map.mp hb
      by_cases hid : before.id = bp.id
      · obtain rfl := h.numbered.eq_of_id hbefore hbp hid
        rw [if_pos rfl]
        exact Or.inr ⟨Bool.eq_false_of_not_eq_true honce, rfl⟩
      · rw [if_neg hid]
        exact Or.inl ⟨hbefore, hid⟩
  refine ⟨?_, h.below, ?_, ?_, ?_, ?_, ?_, ?_⟩
  · rw [hbreakpoints]
    cases bp.oneShot with
    | true =>
      refine ⟨h.numbered.nodup.sublist (List.eraseP_sublist.map Breakpoint.id), fun b hb ↦ ?_⟩
      exact h.numbered.below b (List.mem_of_mem_eraseP hb)
    | false =>
      exact h.numbered.update bp.id (f := fun b ↦ { b with hitCount := b.hitCount + 1 })
        (fun _ ↦ rfl) _
  · intro d hd
    rcases List.mem_append.mp hd with hd | hd
    · exact h.fresh d hd
    · rw [List.mem_singleton.mp hd]
      change delivered.id < _
      rw [hdelivered]
      exact h.numbered.below bp hbp
  · intro b hb
    rcases hleft b hb with ⟨hb, hid⟩ | ⟨-, rfl⟩
    · rw [hothers hid]
      exact h.listed b hb
    · obtain ⟨a, ha, hid, hcount⟩ := h.listed bp hbp
      refine ⟨a, ha, hid, ?_⟩
      change bp.hitCount + 1 = a.hitCount + (deliveriesOf bp.id _).length
      rw [hself, List.length_append, List.length_singleton, hcount]
      omega
  · intro b hb a ha hid
    rcases hleft b hb with ⟨hb, -⟩ | ⟨-, rfl⟩
    · exact h.same b hb a ha hid
    · exact h.same bp hbp a ha hid
  · intro b hb honce
    rcases hleft b hb with ⟨hb, hid⟩ | ⟨hnever, rfl⟩
    · rw [hothers hid]
      exact h.unused b hb honce
    · have honce : bp.oneShot = true := honce
      rw [hnever] at honce
      cases honce
  · intro a ha honce
    by_cases hid : a.id = bp.id
    · have hbpOnce : bp.oneShot = true := by rw [← h.same bp hbp a ha hid, honce]
      rw [hid, hself, h.unused bp hbp hbpOnce]
      exact le_refl 1
    · rw [hothers hid]
      exact h.oneShot a ha honce
  · intro id
    dsimp only
    by_cases hid : id = bp.id
    · obtain ⟨hsuffix, hlength⟩ := h.logged bp.id
      rw [hid, Function.update_self, hself, List.map_append, List.map_singleton]
      refine ⟨(capHits_suffix _).trans ?_, capHits_length hlength hit⟩
      obtain ⟨front, hfront⟩ := hsuffix
      exact ⟨front, by rw [← hfront, List.append_assoc]⟩
    · rw [Function.update_of_ne hid, hothers hid]
      exact h.logged id

theorem Booked.step (h : s.Booked) (action : Action) : (s.step lua action).Booked := by
  cases action with
  | op op =>
    cases op with
    | add bp => exact h.add bp
    | remove id => exact h.remove id
    | setEnabled id enabled => exact h.setEnabled id enabled
  | begin id hit => exact h.calls _
  | check call =>
    unfold HitSystem.step
    dsimp only
    split
    · exact h.calls _
    · exact h
  | count call =>
    unfold HitSystem.step
    dsimp only
    split
    · next id hit hcall =>
      unfold BreakpointManager.countHit
      cases hfind : s.manager.breakpoints.find? fun b ↦ decide (b.id = id) with
      | none => exact h.calls _
      | some bp =>
        obtain ⟨hbp, rfl⟩ := find?_id hfind
        have hdelivered := h.delivers hbp call hit rfl { bp with
          hitCount := bp.hitCount + 1
          enabled := if bp.oneShot then false else bp.enabled } rfl
        exact hdelivered.calls (s.setStage call .done).calls
    · exact h

theorem run_concat (lua : Breakpoint → BreakpointHit → Option Bool) (actions : List Action)
    (action : Action) : run lua (actions ++ [action]) = (run lua actions).step lua action := by
  rw [run, List.foldl_append]
  rfl

theorem booked_run (lua : Breakpoint → BreakpointHit → Option Bool) (actions : List Action) :
    (run lua actions).Booked := by
  induction actions using List.reverseRecOn with
  | nil => exact booked_empty
  | append_singleton actions action ih =>
    rw [run_concat]
    exact ih.step action

/-! ### Disabled breakpoints -/

/-- Since `start`, only calls that had begun by then were checked or delivered hits for a breakpoint
that is disabled. -/
structure Silent (start : HitSystem) (id : ℕ) (s : HitSystem) : Prop where
  given : id < s.manager.nextId
  disabled : ∀ b ∈ s.manager.breakpoints, b.id = id → b.enabled = false
  calls : start.calls.length ≤ s.calls.length
  checked : ∀ i hit, s.calls[i]? = some ⟨id, hit, .checked⟩ → i < start.calls.length
  delivered : ∀ d ∈ s.delivered, d.bp.id = id → d ∈ start.delivered ∨ d.call < start.calls.length

variable {start : HitSystem} {id : ℕ}

/-- A call of the breakpoint is checked now only if it was before, unless it moved there itself. -/
theorem checked_setStage {call i : ℕ} {stage : CallStage} {hit : BreakpointHit}
    (hstage : ∀ hit stage', s.calls[call]? = some ⟨id, hit, stage'⟩ → stage ≠ .checked)
    (hcall : (s.setStage call stage).calls[i]? = some ⟨id, hit, .checked⟩) :
    s.calls[i]? = some ⟨id, hit, .checked⟩ := by
  rw [setStage] at hcall
  by_cases hi : call = i
  · subst hi
    rw [List.getElem?_modify_eq] at hcall
    obtain ⟨⟨other, hit', stage'⟩, hbefore, hsame⟩ := Option.map_eq_some_iff.mp hcall
    obtain ⟨rfl, rfl, hchecked⟩ := HitCall.mk.inj hsame
    exact absurd hchecked (hstage hit' stage' hbefore)
  · rw [List.getElem?_modify_ne _ _ hi] at hcall
    exact hcall

/-- A disabled breakpoint is given no hit. -/
theorem checkHit_of_disabled {m : BreakpointManager}
    (hdisabled : ∀ b ∈ m.breakpoints, b.id = id → b.enabled = false) (hit : BreakpointHit) :
    m.checkHit lua id hit = false := by
  unfold BreakpointManager.checkHit
  cases hfind : m.breakpoints.find? fun b ↦ decide (b.id = id) with
  | none => rfl
  | some bp =>
    obtain ⟨hbp, hid⟩ := find?_id hfind
    dsimp only
    rw [hdisabled bp hbp hid, Bool.false_and, Bool.false_and]

theorem Silent.op (hbooked : s.Booked) (h : Silent start id s) {op : Op}
    (hop : op ≠ .setEnabled id true) : Silent start id (s.step lua (.op op)) := by
  refine ⟨?_, ?_, h.calls, h.checked, h.delivered⟩
  · cases op with
    | add bp => exact h.given.trans (Nat.lt_succ_self _)
    | remove other => exact h.given
    | setEnabled other enabled => exact h.given
  · intro b hb hid
    cases op with
    | add bp =>
      rcases List.mem_append.mp hb with hb | hb
      · exact h.disabled b hb hid
      · rw [List.mem_singleton.mp hb] at hid
        exact absurd hid h.given.ne'
    | remove other => exact h.disabled b (List.mem_of_mem_filter hb) hid
    | setEnabled other enabled =>
      obtain ⟨before, hbefore, rfl⟩ := (BreakpointManager.mem_setEnabled hbooked.numbered).mp hb
      by_cases hother : before.id = other
      · rw [if_pos hother] at hid ⊢
        have hsame : other = id := hother.symm.trans hid
        cases enabled with
        | true => exact absurd (by rw [hsame]) hop
        | false => rfl
      · rw [if_neg hother] at hid ⊢
        exact h.disabled before hbefore hid

theorem Silent.begin (h : Silent start id s) (other : ℕ) (hit : BreakpointHit) :
    Silent start id (s.step lua (.begin other hit)) := by
  refine ⟨h.given, h.disabled, ?_, ?_, h.delivered⟩
  · rw [step, List.length_append]
    exact h.calls.trans (Nat.le_add_right _ _)
  · intro i hit' hcall
    rw [step, List.getElem?_append] at hcall
    split_ifs at hcall with hi
    · exact h.checked i hit' hcall
    · rw [List.getElem?_singleton] at hcall
      split_ifs at hcall
      cases Option.some.inj hcall

/-- A call that moves to a stage other than `checked` unless it is of another breakpoint. -/
theorem Silent.setStage (h : Silent start id s) {call : ℕ} {stage : CallStage}
    (hstage : ∀ hit stage', s.calls[call]? = some ⟨id, hit, stage'⟩ → stage ≠ .checked) :
    Silent start id (s.setStage call stage) := by
  refine ⟨h.given, h.disabled, ?_, fun i hit hcall ↦ ?_, h.delivered⟩
  · rw [HitSystem.setStage, List.length_modify]
    exact h.calls
  · exact h.checked i hit (checked_setStage hstage hcall)

/-- A counted hit comes from a checked call, and the breakpoint stays disabled. -/
theorem Silent.count (hbooked : s.Booked) (h : Silent start id s) (call : ℕ) :
    Silent start id (s.step lua (.count call)) := by
  unfold HitSystem.step
  dsimp only
  split
  · next other hit hcall =>
    have hdone : Silent start id (s.setStage call .done) := h.setStage fun _ _ _ ↦ by simp
    unfold BreakpointManager.countHit
    cases hfind : s.manager.breakpoints.find? fun b ↦ decide (b.id = other) with
    | none => exact hdone
    | some bp =>
      obtain ⟨hbp, rfl⟩ := find?_id hfind
      refine ⟨h.given, fun b hb hid ↦ ?_, hdone.calls, hdone.checked, fun d hd hid ↦ ?_⟩
      · dsimp only at hb
        split_ifs at hb with honce
        · exact h.disabled b (List.mem_of_mem_eraseP hb) hid
        · rw [updateFirst_eq_map hbooked.numbered.nodup] at hb
          obtain ⟨before, hbefore, rfl⟩ := List.mem_map.mp hb
          split_ifs at hid ⊢ with hsame
          · exact h.disabled before hbefore hid
          · exact h.disabled before hbefore hid
      · rcases List.mem_append.mp hd with hd | hd
        · exact h.delivered d hd hid
        · rw [List.mem_singleton.mp hd] at hid ⊢
          have hid : bp.id = id := hid
          rw [hid] at hcall
          exact Or.inr (h.checked call hit hcall)
  · exact h

theorem Silent.step (hbooked : s.Booked) (h : Silent start id s) {action : Action}
    (haction : action ≠ .op (.setEnabled id true)) : Silent start id (s.step lua action) := by
  cases action with
  | op op => exact h.op hbooked fun hop ↦ haction (by rw [hop])
  | begin other hit => exact h.begin other hit
  | check call =>
    unfold HitSystem.step
    dsimp only
    split
    · next other hit hcall =>
      refine h.setStage fun hit' stage' hsame ↦ ?_
      obtain ⟨rfl, rfl, rfl⟩ := HitCall.mk.inj (Option.some.inj (hcall.symm.trans hsame))
      rw [checkHit_of_disabled h.disabled]
      simp
    · exact h
  | count call => exact h.count hbooked call

theorem silent_of_disabled (hbooked : s.Booked) (hdisabled : s.Disabled id) : Silent s id s := by
  obtain ⟨b, hb, hid, henabled⟩ := hdisabled
  refine ⟨hid ▸ hbooked.numbered.below b hb, fun other hother hotherId ↦ ?_, le_rfl,
    fun i hit hcall ↦ ?_, fun d hd _ ↦ Or.inl hd⟩
  · rw [hbooked.numbered.eq_of_id hother hb (hotherId.trans hid.symm)]
    exact henabled
  · exact (List.getElem?_eq_some_iff.mp hcall).1

/-- From a state where a breakpoint is disabled, until it is enabled again. -/
theorem silent_run (lua : Breakpoint → BreakpointHit → Option Bool) (actions later : List Action)
    (hdisabled : (run lua actions).Disabled id)
    (hlater : ∀ action ∈ later, action ≠ .op (.setEnabled id true)) :
    Silent (run lua actions) id (run lua (actions ++ later)) := by
  induction later using List.reverseRecOn with
  | nil =>
    rw [List.append_nil]
    exact silent_of_disabled (booked_run lua actions) hdisabled
  | append_singleton later action ih =>
    have hbefore := ih fun other hother ↦ hlater other (List.mem_append_left _ hother)
    rw [← List.append_assoc, run_concat]
    exact hbefore.step (booked_run lua _) (hlater action (by simp))

/-- In every interleaving a one-shot breakpoint delivers at most one hit, a breakpoint counts the
hits delivered for it, the log of a breakpoint is the last of them, at most `maxHits`, and a call
that begins while its breakpoint is disabled delivers nothing. -/
theorem hits_accounted (lua : Breakpoint → BreakpointHit → Option Bool) (actions : List Action) :
    (run lua actions).Accounted ∧ ∀ id later, (run lua actions).Disabled id →
      (∀ action ∈ later, action ≠ .op (.setEnabled id true)) →
        ∀ d ∈ (run lua (actions ++ later)).delivered, d.bp.id = id →
          d ∈ (run lua actions).delivered ∨ d.call < (run lua actions).calls.length :=
  ⟨(booked_run lua actions).accounted, fun _ later hdisabled hlater ↦
    (silent_run lua actions later hdisabled hlater).delivered⟩

end HitSystem

end Cecore.Debug
