import Cecore.Debug.Tracer

/-!
# The discipline of a trace

While a trace waits for its start address every attached thread has the breakpoint, while it steps
only the traced thread runs, and when it returns no thread is attached and none has the breakpoint.
The trace keeps this as long as no thread is created, every thread that lives is seized, the wait
for the start address ends with a hit, and all other threads are stopped at the hit: it disarms them
before it stops them.
-/

set_option autoImplicit false
set_option relaxedAutoImplicit false

namespace Cecore.Debug

/-! ### The discipline -/

/-- What is asked of the target at a time of a trace. -/
def Sight.Disciplined (sight : Sight) : Prop :=
  match sight.phase with
  | .waiting => sight.tracees.attached ⊆ sight.tracees.armed
  | .stepping _ => ∀ tid ∈ sight.tracees.live, tid ∉ sight.tracees.halted → tid = sight.traceTid
  | .returned => sight.tracees.attached = ∅ ∧ sight.tracees.armed = ∅
  | .starting | .freezing | .detaching => True

namespace Tracer

/-- The trace has been disciplined and is. -/
def Disciplined (s : Tracer) : Prop := (∀ sight ∈ s.sights, sight.Disciplined) ∧ s.sight.Disciplined

end Tracer

/-- The target creates no threads. -/
def TraceKernel.Childless (k : TraceKernel) : Prop :=
  ∀ clock parent child, Happening.creates parent child ∉ k.happens clock

/-- A wait for a thread finds it stopped or ended. -/
def TraceKernel.Finds (k : TraceKernel) : Prop :=
  ∀ clock, ∃ status, k.waits clock = some status ∧ status ≠ .continued

namespace Tracer

/-- A thread that lives is seized and interrupted when it is asked for. -/
def Seizes (k : TraceKernel) : Tracer → List ℕ → Prop
  | _, [] => True
  | s, tid :: rest => (tid ∈ (pass k s).tracees.live →
      k.grants s.clock = true ∧ k.grants (s.clock + 1) = true) ∧
    Seizes k (seizeThread k s tid) rest

/-- A thread that lives gets the start breakpoint when it is asked for. -/
def Arms (k : TraceKernel) : Tracer → List ℕ → Prop
  | _, [] => True
  | s, tid :: rest => (tid ∈ (pass k s).tracees.live → k.grants s.clock = true) ∧
    Arms k (setBreakpoint k s tid) rest

/-- Every thread that lives is listed and seized, and gets the start breakpoint. -/
structure Starts (k : TraceKernel) (config : TraceConfig) (pid : ℕ) (live : Finset ℕ) : Prop where
  listed : ∀ tid ∈ live, tid ∈ threadsToSeize k pid
  seizes : Seizes k (new pid (.untraced live)) (threadsToSeize k pid)
  arms : config.startAddress ≠ 0 →
    Arms k (seizeAll k pid (.untraced live)) (seizeAll k pid (.untraced live)).seized

/-- A turn of the wait for the start address does not give up while a thread is attached, and at the
hit every other thread is stopped. The main thread ends last. -/
def Orderly (k : TraceKernel) (config : TraceConfig) (s : Tracer) : Prop :=
  s.phase = .waiting →
    if k.cancelled s.clock then s.tracees.attached = ∅
    else match k.polls s.clock with
      | none => (pass k s).tracees.attached = ∅
      | some (w, result) => match result.status with
        | .exited | .signaled => w = s.pid → ∀ tid ∈ (pass k s).tracees.attached, tid = w
        | .continued => True
        | .stopped _ _ => AtStart config result →
            ∀ tid ∈ (pass k s).tracees.attached, tid ≠ w → tid ∈ (pass k s).tracees.halted

end Tracer

/-! ### A target that creates no threads -/

namespace Tracees

/-- Some threads have ended and some have stopped. -/
structure Later (t t' : Tracees) : Prop where
  live : ∀ tid ∈ t'.live, tid ∈ t.live
  attached : ∀ tid, tid ∈ t'.attached ↔ tid ∈ t.attached ∧ tid ∈ t'.live
  armed : ∀ tid, tid ∈ t'.armed ↔ tid ∈ t.armed ∧ tid ∈ t'.live
  halted : ∀ tid ∈ t.halted, tid ∈ t'.live → tid ∈ t'.halted

variable {t t' t'' : Tracees}

theorem Later.refl (t : Tracees) : Later t t where
  live := fun _ h ↦ h
  attached := fun _ ↦ ⟨fun h ↦ ⟨h, t.attached_live h⟩, And.left⟩
  armed := fun _ ↦ ⟨fun h ↦ ⟨h, t.armed_live h⟩, And.left⟩
  halted := fun _ h _ ↦ h

theorem Later.trans (h : Later t t') (h' : Later t' t'') : Later t t'' where
  live := fun tid hlive ↦ h.live tid (h'.live tid hlive)
  attached := fun tid ↦ by
    rw [h'.attached, h.attached, and_assoc]
    exact and_congr_right fun _ ↦ and_iff_right_of_imp (h'.live tid)
  armed := fun tid ↦ by
    rw [h'.armed, h.armed, and_assoc]
    exact and_congr_right fun _ ↦ and_iff_right_of_imp (h'.live tid)
  halted := fun tid hhalted hlive ↦ h'.halted tid (h.halted tid hhalted (h'.live tid hlive)) hlive

theorem mem_halted_stop {tid other : ℕ} :
    other ∈ (t.stop tid).halted ↔ other ∈ t.halted ∨ (other = tid ∧ tid ∈ t.attached) := by
  change other ∈ (if tid ∈ t.attached then insert tid t.halted else t.halted) ↔ _
  split_ifs with hattached
  · rw [Finset.mem_insert]
    tauto
  · tauto

theorem later_stop (tid : ℕ) (t : Tracees) : Later t (t.stop tid) where
  live := fun _ h ↦ h
  attached := (Later.refl t).attached
  armed := (Later.refl t).armed
  halted := fun _ h _ ↦ mem_halted_stop.mpr (Or.inl h)

theorem later_finish (tid : ℕ) (t : Tracees) : Later t (t.finish tid) where
  live := fun _ h ↦ Finset.mem_of_mem_erase h
  attached := fun other ↦ by
    change other ∈ t.attached.erase tid ↔ _ ∧ other ∈ t.live.erase tid
    have hlive := @t.attached_live other
    rw [Finset.mem_erase, Finset.mem_erase]
    tauto
  armed := fun other ↦ by
    change other ∈ t.armed.erase tid ↔ _ ∧ other ∈ t.live.erase tid
    have hlive := @t.armed_live other
    rw [Finset.mem_erase, Finset.mem_erase]
    tauto
  halted := fun _ h hlive ↦ Finset.mem_erase.mpr ⟨(Finset.mem_erase.mp hlive).1, h⟩

theorem later_find (tid : ℕ) (t : Tracees) (status : WaitStatus) : Later t (t.find tid status) := by
  cases status with
  | exited => exact later_finish tid t
  | signaled => exact later_finish tid t
  | continued => exact Later.refl t
  | stopped signal event => exact later_stop tid t

theorem later_happens {happenings : List Happening}
    (hchildless : ∀ parent child, Happening.creates parent child ∉ happenings) (t : Tracees) :
    Later t (happenings.foldl happen t) := by
  induction happenings generalizing t with
  | nil => exact Later.refl t
  | cons first rest ih =>
    have hfirst : Later t (t.happen first) := by
      cases first with
      | stops tid => exact later_stop tid t
      | creates parent child => exact absurd List.mem_cons_self (hchildless parent child)
      | ends tid => exact later_finish tid t
    exact hfirst.trans
      (ih (fun parent child hmem ↦ hchildless parent child (List.mem_cons_of_mem _ hmem)) _)

end Tracees

namespace Tracer

/-! ### Requests -/

/-- The trace is at a place with a target of a kind, and has been disciplined so far. -/
structure At (phase : TracePhase) (pid traceTid : ℕ) (seized : List ℕ) (P : Tracees → Prop)
    (s : Tracer) : Prop where
  phase : s.phase = phase
  pid : s.pid = pid
  traceTid : s.traceTid = traceTid
  seized : s.seized = seized
  watched : ∀ sight ∈ s.sights, sight.Disciplined
  holds : P s.tracees

/-- A target of the kind is disciplined, and stays of the kind. -/
structure Lasting (phase : TracePhase) (traceTid : ℕ) (P : Tracees → Prop) : Prop where
  later : ∀ {t t'}, Tracees.Later t t' → P t → P t'
  seen : ∀ {t}, P t → (Sight.mk phase traceTid t).Disciplined

variable {k : TraceKernel} {config : TraceConfig} {phase phase' : TracePhase} {pid traceTid w : ℕ}
  {pending seized : List ℕ} {P Q : Tracees → Prop} {s : Tracer} {t : Tracees}

/-- The tracer does something to the target. -/
theorem At.act (h : At phase pid traceTid seized P s) (hnext : P s.tracees → Q t) :
    At phase pid traceTid seized Q { s with tracees := t } where
  phase := h.phase
  pid := h.pid
  traceTid := h.traceTid
  seized := h.seized
  watched := h.watched
  holds := hnext h.holds

theorem At.mono (h : At phase pid traceTid seized P s) (hnext : P s.tracees → Q s.tracees) :
    At phase pid traceTid seized Q s :=
  h.act hnext

theorem later_pass (hchildless : k.Childless) (s : Tracer) :
    Tracees.Later s.tracees (pass k s).tracees :=
  Tracees.later_happens (hchildless s.clock) s.tracees

theorem At.pass (hchildless : k.Childless) (hP : Lasting phase traceTid P)
    (h : At phase pid traceTid seized P s) : At phase pid traceTid seized P (pass k s) where
  phase := h.phase
  pid := h.pid
  traceTid := h.traceTid
  seized := h.seized
  watched := by
    have hafter : P (Tracer.pass k s).tracees := hP.later (later_pass hchildless s) h.holds
    intro sight hsight
    change sight ∈ s.sights ++ [⟨s.phase, s.traceTid, s.tracees⟩,
      ⟨s.phase, s.traceTid, (Tracer.pass k s).tracees⟩] at hsight
    rw [h.phase, h.traceTid, List.mem_append, List.mem_pair] at hsight
    rcases hsight with hbefore | rfl | rfl
    · exact h.watched sight hbefore
    · exact hP.seen h.holds
    · exact hP.seen hafter
  holds := hP.later (later_pass hchildless s) h.holds

/-- A kind of target is lasting where nothing is asked of it. -/
theorem lasting_of_later (hfree : ∀ t, (Sight.mk phase traceTid t).Disciplined)
    (hlater : ∀ {t t'}, Tracees.Later t t' → P t → P t') : Lasting phase traceTid P :=
  ⟨hlater, fun _ ↦ hfree _⟩

/-- A loop over threads, with what is left to do at each of them. -/
theorem At.foldl {f : Tracer → ℕ → Tracer} {P : List ℕ → Tracees → Prop}
    (hf : ∀ {s tid rest}, At phase pid traceTid seized (P (tid :: rest)) s →
      At phase pid traceTid seized (P rest) (f s tid))
    {tids : List ℕ} (h : At phase pid traceTid seized (P tids) s) :
    At phase pid traceTid seized (P []) (tids.foldl f s) := by
  induction tids generalizing s with
  | nil => exact h
  | cons tid rest ih => exact ih (hf h)

theorem At.cont (hchildless : k.Childless) (hP : Lasting phase traceTid P)
    (h : At phase pid traceTid seized P s) {tid : ℕ}
    (hnext : ∀ {t : Tracees}, P t → Q (t.resume tid)) :
    At phase pid traceTid seized Q (cont k s tid) :=
  (h.pass hchildless hP).act hnext

/-- A wait for a thread, which is found. -/
theorem At.waitpid (hchildless : k.Childless) (hfinds : k.Finds) (hP : Lasting phase traceTid P)
    (h : At phase pid traceTid seized P s) (tid : ℕ) : ∃ status, status ≠ .continued ∧
      (Tracer.waitpid k tid s).2 = some status ∧
      At phase pid traceTid seized (fun t ↦ ∃ before, P before ∧ t = before.find tid status)
        (Tracer.waitpid k tid s).1 := by
  obtain ⟨status, hwait, hstatus⟩ := hfinds s.clock
  refine ⟨status, hstatus, ?_, ?_⟩
  · rw [Tracer.waitpid, hwait]
  · rw [Tracer.waitpid, hwait]
    exact (h.pass hchildless hP).act fun hbefore ↦ ⟨_, hbefore, rfl⟩

/-- The thread that a wait finds is stopped or has ended. -/
theorem halted_find {tid : ℕ} {status : WaitStatus} (hstatus : status ≠ .continued)
    (h : tid ∈ (t.find tid status).attached) : tid ∈ (t.find tid status).halted := by
  cases status with
  | exited => exact absurd rfl (Finset.mem_erase.mp h).1
  | signaled => exact absurd rfl (Finset.mem_erase.mp h).1
  | continued => exact absurd rfl hstatus
  | stopped signal event => exact Tracees.mem_halted_stop.mpr (Or.inr ⟨rfl, h⟩)

/-! ### Kinds of targets -/

/-- Every thread that lives is attached, and the trace knows it. -/
structure Held (seized : List ℕ) (t : Tracees) : Prop where
  all : ∀ tid ∈ t.live, tid ∈ t.attached
  known : ∀ tid ∈ t.attached, tid ∈ seized

/-- Every thread has the start breakpoint. -/
structure Armed (seized : List ℕ) (t : Tracees) : Prop extends Held seized t where
  armed : ∀ tid ∈ t.attached, tid ∈ t.armed

/-- Every thread is stopped, and none has the breakpoint but for some. -/
structure Stopped (pending seized : List ℕ) (t : Tracees) : Prop extends Held seized t where
  halted : ∀ tid ∈ t.attached, tid ∈ t.halted
  pending : ∀ tid ∈ t.armed, tid ∈ pending

/-- Only the traced thread runs, and none has the breakpoint but for some. -/
structure Stepping (traceTid : ℕ) (pending seized : List ℕ) (t : Tracees) : Prop
    extends Held seized t where
  halted : ∀ tid ∈ t.attached, tid ≠ traceTid → tid ∈ t.halted
  pending : ∀ tid ∈ t.armed, tid ∈ pending

/-- Every thread that is attached is stopped and still to be detached, and none has the breakpoint.
-/
structure Leaving (rest : List ℕ) (t : Tracees) : Prop where
  known : ∀ tid ∈ t.attached, tid ∈ rest
  halted : ∀ tid ∈ t.attached, tid ∈ t.halted
  disarmed : ∀ tid, tid ∉ t.armed

theorem Held.later {t t' : Tracees} (hlater : Tracees.Later t t') (h : Held seized t) :
    Held seized t' where
  all := fun tid hlive ↦ (hlater.attached tid).mpr ⟨h.all tid (hlater.live tid hlive), hlive⟩
  known := fun tid hattached ↦ h.known tid ((hlater.attached tid).mp hattached).1

theorem Armed.later {t t' : Tracees} (hlater : Tracees.Later t t') (h : Armed seized t) :
    Armed seized t' where
  toHeld := h.toHeld.later hlater
  armed := fun tid hattached ↦ (hlater.armed tid).mpr
    ⟨h.armed tid ((hlater.attached tid).mp hattached).1, t'.attached_live hattached⟩

theorem Stopped.later {t t' : Tracees} (hlater : Tracees.Later t t')
    (h : Stopped pending seized t) : Stopped pending seized t' where
  toHeld := h.toHeld.later hlater
  halted := fun tid hattached ↦ hlater.halted tid
    (h.halted tid ((hlater.attached tid).mp hattached).1) (t'.attached_live hattached)
  pending := fun tid harmed ↦ h.pending tid ((hlater.armed tid).mp harmed).1

theorem Stepping.later {t t' : Tracees} (hlater : Tracees.Later t t')
    (h : Stepping traceTid pending seized t) : Stepping traceTid pending seized t' where
  toHeld := h.toHeld.later hlater
  halted := fun tid hattached hne ↦ hlater.halted tid
    (h.halted tid ((hlater.attached tid).mp hattached).1 hne) (t'.attached_live hattached)
  pending := fun tid harmed ↦ h.pending tid ((hlater.armed tid).mp harmed).1

theorem Leaving.later {rest : List ℕ} {t t' : Tracees} (hlater : Tracees.Later t t')
    (h : Leaving rest t) : Leaving rest t' where
  known := fun tid hattached ↦ h.known tid ((hlater.attached tid).mp hattached).1
  halted := fun tid hattached ↦ hlater.halted tid
    (h.halted tid ((hlater.attached tid).mp hattached).1) (t'.attached_live hattached)
  disarmed := fun tid harmed ↦ h.disarmed tid ((hlater.armed tid).mp harmed).1

/-- A target that is held has no breakpoint in a thread that is not attached. -/
theorem Held.attached_of_armed (h : Held seized t) {tid : ℕ} (harmed : tid ∈ t.armed) :
    tid ∈ t.attached :=
  h.all tid (t.armed_live harmed)

theorem Stopped.stepping (h : Stopped pending seized t) : Stepping traceTid pending seized t where
  toHeld := h.toHeld
  halted := fun tid hattached _ ↦ h.halted tid hattached
  pending := h.pending

theorem Stopped.leaving (h : Stopped [] seized t) : Leaving seized t where
  known := h.known
  halted := h.halted
  disarmed := fun tid harmed ↦ List.not_mem_nil (h.pending tid harmed)

/-- Where no thread is left there is nothing to leave behind. -/
theorem Held.leaving (h : Held seized t) (hempty : ∀ tid, tid ∉ t.attached) (rest : List ℕ) :
    Leaving rest t where
  known := fun tid hattached ↦ absurd hattached (hempty tid)
  halted := fun tid hattached ↦ absurd hattached (hempty tid)
  disarmed := fun tid harmed ↦ hempty tid (h.attached_of_armed harmed)

theorem lasting_armed : Lasting .waiting traceTid (Armed seized) where
  later := Armed.later
  seen := fun h ↦ h.armed

theorem lasting_stepping {step : ℕ} :
    Lasting (.stepping step) traceTid (Stepping traceTid pending seized) where
  later := Stepping.later
  seen := by
    intro t h tid hlive hrunning
    by_contra hne
    exact hrunning (h.halted tid (h.all tid hlive) hne)

theorem lasting_stopped {step : ℕ} :
    Lasting (.stepping step) traceTid (Stopped pending seized) where
  later := Stopped.later
  seen := fun h ↦ (@lasting_stepping traceTid pending seized step).seen h.stepping

/-! ### Detaching -/

/-- Every thread is detached. -/
theorem At.detachAll (hchildless : k.Childless) (h : At phase pid traceTid seized P s)
    (hleaving : P s.tracees → Leaving seized s.tracees) :
    At .returned pid traceTid seized (Leaving []) (detachAll k s) := by
  have hstart : At .detaching pid traceTid seized (Leaving seized) { s with phase := .detaching } :=
    ⟨rfl, h.pid, h.traceTid, h.seized, h.watched, hleaving h.holds⟩
  have hlasting : ∀ rest, Lasting .detaching traceTid (Leaving rest) := fun rest ↦
    lasting_of_later (fun _ ↦ trivial) Leaving.later
  have hloop : At .detaching pid traceTid seized (Leaving [])
      (seized.foldl (detach k) { s with phase := .detaching }) := by
    refine hstart.foldl fun {other tid rest} hother ↦ ?_
    refine (hother.pass hchildless (hlasting (tid :: rest))).act fun hleave ↦ ?_
    set before := (Tracer.pass k other).tracees
    have hattached : ∀ {x}, x ∈ (before.detach tid).attached → x ∈ before.attached ∧ x ≠ tid := by
      intro x hx
      change x ∈ (if tid ∈ before.halted then before.attached.erase tid else before.attached) at hx
      split_ifs at hx with hhalted
      · exact ⟨Finset.mem_of_mem_erase hx, Finset.ne_of_mem_erase hx⟩
      · exact ⟨hx, fun hsame ↦ hhalted (hsame ▸ hleave.halted x hx)⟩
    exact {
      known := fun x hx ↦ (List.mem_cons.mp (hleave.known x (hattached hx).1)).resolve_left
        (hattached hx).2
      halted := fun x hx ↦ Finset.mem_erase.mpr
        ⟨(hattached hx).2, hleave.halted x (hattached hx).1⟩
      disarmed := hleave.disarmed }
  rw [← h.seized] at hloop
  exact ⟨rfl, hloop.pid, hloop.traceTid, hloop.seized.trans h.seized, hloop.watched, hloop.holds⟩

/-- The places where a turn of a trace ends. -/
inductive Settled (s : Tracer) : Prop
  | waiting {pid traceTid : ℕ} {seized : List ℕ}
      (h : At .waiting pid traceTid seized (Armed seized) s)
  | stepping {step pid traceTid : ℕ} {seized : List ℕ}
      (h : At (.stepping step) pid traceTid seized (Stopped [] seized) s)
  | returned {pid traceTid : ℕ} {seized : List ℕ}
      (h : At .returned pid traceTid seized (Leaving []) s)

/-! ### Steps of the traced thread -/

/-- A resumed thread is the one that runs. -/
theorem Stopped.resume (h : Stopped pending seized t) :
    Stepping traceTid pending seized (t.resume traceTid) where
  toHeld := ⟨h.all, h.known⟩
  halted := fun tid hattached hne ↦ Finset.mem_erase.mpr ⟨hne, h.halted tid hattached⟩
  pending := h.pending

/-- The breakpoint for the instruction after a call. -/
theorem Stopped.arm (h : Stopped [] seized t) : Stopped [traceTid] seized (t.arm traceTid) where
  toHeld := ⟨h.all, h.known⟩
  halted := h.halted
  pending := by
    intro tid harmed
    change tid ∈ (if traceTid ∈ t.halted then insert traceTid t.armed else t.armed) at harmed
    split_ifs at harmed
    · exact List.mem_singleton.mpr ((Finset.mem_insert.mp harmed).resolve_right fun hbefore ↦
        List.not_mem_nil (h.pending tid hbefore))
    · exact absurd (h.pending tid harmed) List.not_mem_nil

/-- The traced thread is found, and all threads are stopped again. -/
theorem Stepping.find (h : Stepping traceTid pending seized t) {status : WaitStatus}
    (hstatus : status ≠ .continued) : Stopped pending seized (t.find traceTid status) where
  toHeld := h.toHeld.later (Tracees.later_find traceTid t status)
  halted := by
    intro tid hattached
    by_cases hsame : tid = traceTid
    · subst hsame
      exact halted_find hstatus hattached
    · exact (h.later (Tracees.later_find traceTid t status)).halted tid hattached hsame
  pending := (h.later (Tracees.later_find traceTid t status)).pending

/-- Nothing is left of the breakpoint of a thread that has ended. -/
theorem Stepping.finish (h : Stepping traceTid [traceTid] seized t) :
    Stopped [] seized (t.finish traceTid) where
  toHeld := h.toHeld.later (Tracees.later_finish traceTid t)
  halted := fun tid hattached ↦ (h.later (Tracees.later_finish traceTid t)).halted tid hattached
    (Finset.ne_of_mem_erase hattached)
  pending := fun tid harmed ↦ absurd
    (List.mem_singleton.mp (h.pending tid (Finset.mem_of_mem_erase harmed)))
    (Finset.ne_of_mem_erase harmed)

theorem Stopped.disarm {tid : ℕ} (h : Stopped (tid :: pending) seized t) :
    Stopped pending seized (t.disarm tid) where
  toHeld := ⟨h.all, h.known⟩
  halted := h.halted
  pending := by
    intro other harmed
    change other ∈ (if tid ∈ t.halted then t.armed.erase tid else t.armed) at harmed
    split_ifs at harmed with hhalted
    · exact (List.mem_cons.mp (h.pending other (Finset.mem_of_mem_erase harmed))).resolve_left
        (Finset.ne_of_mem_erase harmed)
    · refine (List.mem_cons.mp (h.pending other harmed)).resolve_left fun hsame ↦ hhalted ?_
      rw [← hsame]
      exact h.halted other (h.attached_of_armed harmed)

theorem settled_detachAll (hchildless : k.Childless)
    (h : At phase pid traceTid seized (Stopped [] seized) s) : Settled (detachAll k s) :=
  .returned (h.detachAll hchildless Stopped.leaving)

theorem At.step {next : ℕ} (h : At phase pid traceTid seized (Stopped [] seized) s) :
    Settled { s with phase := .stepping next } :=
  .stepping ⟨rfl, h.pid, h.traceTid, h.seized, h.watched, h.holds⟩

theorem settled_stepInstruction (hchildless : k.Childless) (hfinds : k.Finds) {step : ℕ}
    (h : At (.stepping step) pid traceTid seized (Stopped [] seized) s) :
    Settled (stepInstruction k step s) := by
  have hpassed := h.pass hchildless lasting_stopped
  unfold stepInstruction singleStep
  rw [h.traceTid]
  dsimp only
  by_cases hrefused : traceTid ∉ (pass k s).tracees.halted
  · rw [if_pos hrefused]
    exact settled_detachAll hchildless hpassed
  · rw [if_neg hrefused]
    have hresumed := hpassed.act (@Stopped.resume traceTid _ _ _)
    obtain ⟨status, hstatus, hwait, hfound⟩ :=
      hresumed.waitpid hchildless hfinds lasting_stepping traceTid
    have hstopped := hfound.mono fun ⟨before, hbefore, hafter⟩ ↦ hafter ▸ hbefore.find hstatus
    cases ((Tracer.waitpid k traceTid
        { pass k s with tracees := (pass k s).tracees.resume traceTid }).2.bind
          WaitStatus.stopSignal?).isSome with
    | false => exact settled_detachAll hchildless hstopped
    | true => exact hstopped.step

theorem settled_runOverCall (hchildless : k.Childless) (hfinds : k.Finds) {step : ℕ}
    (h : At (.stepping step) pid traceTid seized (Stopped [] seized) s) :
    Settled (runOverCall k step s) := by
  have harmed : At (.stepping step) pid traceTid seized (Stopped [traceTid] seized)
      (setBreakpoint k s traceTid) := by
    have hpassed := h.pass hchildless lasting_stopped
    unfold setBreakpoint
    dsimp only
    split_ifs
    · exact hpassed.act Stopped.arm
    · exact hpassed.mono fun hstopped ↦
        ⟨hstopped.toHeld, hstopped.halted, fun tid harmed ↦
          absurd (hstopped.pending tid harmed) List.not_mem_nil⟩
  have hresumed := harmed.cont hchildless lasting_stopped (@Stopped.resume traceTid _ _)
  obtain ⟨status, hstatus, hwait, hfound⟩ :=
    hresumed.waitpid hchildless hfinds lasting_stepping traceTid
  unfold runOverCall
  rw [h.traceTid]
  dsimp only
  rw [hwait]
  have hended : status = .exited ∨ status = .signaled → Settled (detachAll k
      (Tracer.waitpid k traceTid (cont k (setBreakpoint k s traceTid) traceTid)).1) := by
    intro hend
    refine settled_detachAll hchildless (hfound.mono fun ⟨before, hbefore, hafter⟩ ↦ ?_)
    rw [hafter]
    rcases hend with rfl | rfl
    · exact hbefore.finish
    · exact hbefore.finish
  cases status with
  | exited => exact hended (Or.inl rfl)
  | signaled => exact hended (Or.inr rfl)
  | continued => exact absurd rfl hstatus
  | stopped signal event =>
    have hstopped := hfound.mono fun ⟨before, hbefore, hafter⟩ ↦ hafter ▸ hbefore.find hstatus
    have hremoved : At (.stepping step) pid traceTid seized (Stopped [] seized) (removeBreakpoint k
        (Tracer.waitpid k traceTid (cont k (setBreakpoint k s traceTid) traceTid)).1 traceTid) :=
      (hstopped.pass hchildless lasting_stopped).act Stopped.disarm
    dsimp only [Option.getD_some]
    rw [hstopped.traceTid]
    exact hremoved.step

theorem settled_stepTurn (hchildless : k.Childless) (hfinds : k.Finds) {step : ℕ}
    (h : At (.stepping step) pid traceTid seized (Stopped [] seized) s) :
    Settled (stepTurn k config step s) := by
  have hpassed := h.pass hchildless lasting_stopped
  unfold stepTurn getContext
  split_ifs with hdone
  · exact settled_detachAll hchildless h
  · rw [h.traceTid]
    dsimp only
    by_cases hread : traceTid ∈ (pass k s).tracees.halted
    · rw [if_pos hread]
      dsimp only
      set ctx := k.context s.clock
      set entry : TraceEntry := ⟨ctx.rip, ((k.instruction (pass k s).clock ctx.rip).map fun i ↦
        i.mnemonic ++ ' ' :: i.operands).getD "??".toList, ctx⟩
      have hlogged : At (.stepping step) pid traceTid seized (Stopped [] seized)
          { pass k s with entries := (pass k s).entries ++ [entry] } :=
        ⟨hpassed.phase, hpassed.pid, hpassed.traceTid, hpassed.seized, hpassed.watched,
          hpassed.holds⟩
      split_ifs
      · exact settled_detachAll hchildless hlogged
      · exact settled_runOverCall hchildless hfinds hlogged
      · exact settled_stepInstruction hchildless hfinds hlogged
    · rw [if_neg hread]
      exact settled_detachAll hchildless hpassed

/-! ### The wait for the start address -/

theorem lasting_freezing : Lasting .freezing traceTid (Stopped pending seized) :=
  lasting_of_later (fun _ ↦ trivial) Stopped.later

theorem At.freezeThread (hchildless : k.Childless) (tid : ℕ)
    (h : At .freezing pid traceTid seized (Stopped pending seized) s) :
    At .freezing pid traceTid seized (Stopped pending seized) (freezeThread k s tid) := by
  have hpassed := h.pass hchildless lasting_freezing
  unfold Tracer.freezeThread interrupt
  split_ifs
  · exact h
  · dsimp only
    cases decide (k.grants s.clock ∧ tid ∈ (Tracer.pass k s).tracees.attached) with
    | false => exact hpassed
    | true =>
      have hagain := hpassed.pass hchildless lasting_freezing
      dsimp only [Tracer.waitpid]
      cases k.waits (Tracer.pass k s).clock with
      | none => exact hagain
      | some status => exact hagain.act (Stopped.later (Tracees.later_find _ _ _))

/-- When all threads are stopped at the hit, they are disarmed and stay stopped. -/
theorem settled_hit (hchildless : k.Childless)
    (h : At .waiting pid traceTid seized (Stopped seized seized) s) : Settled (hit k w s) := by
  obtain rfl := h.seized
  set start : Tracer := { s with traceTid := w, phase := .freezing }
  have hstart : At .freezing pid w s.seized (Stopped s.seized s.seized) start :=
    ⟨rfl, h.pid, rfl, rfl, h.watched, h.holds⟩
  set disarmed := s.seized.foldl (removeBreakpoint k) start
  have hdisarmed : At .freezing pid w s.seized (Stopped [] s.seized) disarmed := by
    refine At.foldl (P := fun rest ↦ Stopped rest s.seized) (fun hother ↦ ?_) hstart
    exact (hother.pass hchildless lasting_freezing).act Stopped.disarm
  have hfrozen : At .freezing pid w s.seized (Stopped [] s.seized)
      (s.seized.foldl (freezeThread k) disarmed) :=
    At.foldl (P := fun _ ↦ Stopped [] s.seized) (fun hother ↦ hother.freezeThread hchildless _)
      hdisarmed
  have hresult : hit k w s =
      { disarmed.seized.foldl (freezeThread k) disarmed with phase := .stepping 0 } := rfl
  rw [hresult, hdisarmed.seized]
  exact hfrozen.step

theorem Armed.stopped (h : Armed seized t) (hhalted : ∀ tid ∈ t.attached, tid ∈ t.halted) :
    Stopped seized seized t where
  toHeld := h.toHeld
  halted := hhalted
  pending := fun tid harmed ↦ h.known tid (h.attached_of_armed harmed)

/-- The end of a thread is noticed. -/
theorem settled_exit (hchildless : k.Childless)
    (h : At .waiting pid traceTid seized (Armed seized) s) (hgone : w ∉ s.tracees.attached)
    (hlast : w = s.pid → ∀ tid, tid ∉ s.tracees.attached) :
    Settled (if w = s.pid ∨ s.seized.erase w = [] then
      detachAll k { s with seized := s.seized.erase w } else
        { s with seized := s.seized.erase w }) := by
  have hknown : Armed (seized.erase w) s.tracees :=
    ⟨⟨h.holds.all, fun tid hattached ↦ (List.mem_erase_of_ne
      (ne_of_mem_of_not_mem hattached hgone)).mpr (h.holds.known tid hattached)⟩, h.holds.armed⟩
  have herased : At .waiting pid traceTid (seized.erase w) (Armed (seized.erase w))
      { s with seized := s.seized.erase w } :=
    ⟨h.phase, h.pid, h.traceTid, by rw [← h.seized], h.watched, hknown⟩
  split_ifs with hends
  · have hempty : ∀ tid, tid ∉ s.tracees.attached := by
      rcases hends with hmain | hnone
      · exact hlast hmain
      · intro tid hattached
        have hmem := hknown.known tid hattached
        rw [← h.seized, hnone] at hmem
        exact List.not_mem_nil hmem
    exact .returned (herased.detachAll hchildless fun harmed ↦ harmed.leaving hempty _)
  · exact .waiting herased

/-- The wait is given up when no thread is attached. -/
theorem settled_abandon (hchildless : k.Childless)
    (h : At .waiting pid traceTid seized (Armed seized) s) (hempty : s.tracees.attached = ∅) :
    Settled (detachAll k s) :=
  .returned (h.detachAll hchildless fun harmed ↦
    harmed.leaving (Finset.eq_empty_iff_forall_notMem.mp hempty) _)

theorem settled_awaitStart (hchildless : k.Childless)
    (h : At .waiting pid traceTid seized (Armed seized) s) (horderly : Orderly k config s) :
    Settled (awaitStart k config s) := by
  have hexpected := horderly h.phase
  have hpassed := h.pass hchildless lasting_armed
  unfold awaitStart
  by_cases hcancelled : k.cancelled s.clock = true
  · rw [if_pos hcancelled] at hexpected
    rw [if_pos hcancelled]
    exact settled_abandon hchildless h hexpected
  · rw [if_neg hcancelled] at hexpected
    rw [if_neg hcancelled]
    unfold poll
    cases hpoll : k.polls s.clock with
    | none =>
      rw [hpoll] at hexpected
      exact settled_abandon hchildless hpassed hexpected
    | some found =>
      obtain ⟨w, result⟩ := found
      rw [hpoll] at hexpected
      dsimp only at hexpected ⊢
      have hended : ∀ after : Tracees, after = (pass k s).tracees.finish w →
          (w = s.pid → ∀ tid ∈ (pass k s).tracees.attached, tid = w) →
          Settled (if w = s.pid ∨ (pass k s).seized.erase w = [] then
            detachAll k { pass k s with tracees := after, seized := (pass k s).seized.erase w } else
              { pass k s with tracees := after, seized := (pass k s).seized.erase w }) := by
        rintro after rfl hlast
        refine settled_exit hchildless (hpassed.act (Armed.later (Tracees.later_finish w _)))
          (Finset.notMem_erase w _) fun hmain tid hattached ↦ ?_
        obtain ⟨hother, hbefore⟩ := Finset.mem_erase.mp hattached
        exact hother (hlast hmain tid hbefore)
      cases hstatus : result.status with
      | exited =>
        rw [hstatus] at hexpected
        exact hended _ rfl hexpected
      | signaled =>
        rw [hstatus] at hexpected
        exact hended _ rfl hexpected
      | continued => exact .waiting hpassed
      | stopped signal event =>
        rw [hstatus] at hexpected
        have hfound := hpassed.act (Armed.later (Tracees.later_stop w (pass k s).tracees))
        dsimp only
        split_ifs with hstart
        · refine settled_hit hchildless (hfound.mono fun harmed ↦ harmed.stopped fun tid hattached ↦ ?_)
          by_cases hsame : tid = w
          · rw [hsame] at hattached ⊢
            exact Tracees.mem_halted_stop.mpr (Or.inr ⟨rfl, hattached⟩)
          · exact Tracees.mem_halted_stop.mpr (Or.inl (hexpected hstart tid hattached hsame))
        · exact .waiting (hfound.cont hchildless lasting_armed fun harmed ↦
            ⟨⟨harmed.all, harmed.known⟩, harmed.armed⟩)

/-! ### The start -/

/-- Every thread that lives is attached or still to be seized, and those that are attached are
stopped. -/
structure Seized (rest seized : List ℕ) (t : Tracees) : Prop where
  all : ∀ tid ∈ t.live, tid ∈ t.attached ∨ tid ∈ rest
  known : ∀ tid ∈ t.attached, tid ∈ seized
  halted : ∀ tid ∈ t.attached, tid ∈ t.halted
  disarmed : ∀ tid, tid ∉ t.armed

/-- One thread is attached and not yet found. -/
structure Pending (w : ℕ) (rest seized : List ℕ) (t : Tracees) : Prop where
  all : ∀ tid ∈ t.live, tid ∈ t.attached ∨ tid ∈ rest
  known : ∀ tid ∈ t.attached, tid = w ∨ tid ∈ seized
  halted : ∀ tid ∈ t.attached, tid = w ∨ tid ∈ t.halted
  disarmed : ∀ tid, tid ∉ t.armed

variable {rest : List ℕ}

theorem lasting_seized : Lasting .starting traceTid (Seized rest seized) := by
  refine lasting_of_later (fun _ ↦ trivial) fun hlater h ↦ ?_
  refine ⟨fun tid hlive ↦ ?_, fun tid hattached ↦ ?_, fun tid hattached ↦ ?_, fun tid harmed ↦ ?_⟩
  · exact (h.all tid (hlater.live tid hlive)).imp_left fun hattached ↦
      (hlater.attached tid).mpr ⟨hattached, hlive⟩
  · exact h.known tid ((hlater.attached tid).mp hattached).1
  · have hbefore := (hlater.attached tid).mp hattached
    exact hlater.halted tid (h.halted tid hbefore.1) hbefore.2
  · exact h.disarmed tid ((hlater.armed tid).mp harmed).1

theorem Pending.later {t t' : Tracees} (hlater : Tracees.Later t t') (h : Pending w rest seized t) :
    Pending w rest seized t' := by
  refine ⟨fun tid hlive ↦ ?_, fun tid hattached ↦ ?_, fun tid hattached ↦ ?_, fun tid harmed ↦ ?_⟩
  · exact (h.all tid (hlater.live tid hlive)).imp_left fun hattached ↦
      (hlater.attached tid).mpr ⟨hattached, hlive⟩
  · exact h.known tid ((hlater.attached tid).mp hattached).1
  · have hbefore := (hlater.attached tid).mp hattached
    exact (h.halted tid hbefore.1).imp_right fun hhalted ↦ hlater.halted tid hhalted hbefore.2
  · exact h.disarmed tid ((hlater.armed tid).mp harmed).1

theorem lasting_pending : Lasting .starting traceTid (Pending w rest seized) :=
  lasting_of_later (fun _ ↦ trivial) Pending.later

/-- The thread that was not yet found has ended. -/
theorem Pending.seized_of_gone (h : Pending w rest seized t) (hgone : w ∉ t.attached) :
    Seized rest seized t where
  all := h.all
  known := fun tid hattached ↦
    (h.known tid hattached).resolve_left (ne_of_mem_of_not_mem hattached hgone)
  halted := fun tid hattached ↦
    (h.halted tid hattached).resolve_left (ne_of_mem_of_not_mem hattached hgone)
  disarmed := h.disarmed

/-- The thread is found. -/
theorem Pending.find (h : Pending w rest seized t) {status : WaitStatus}
    (hstatus : status ≠ .continued) : Seized rest (insertTid w seized) (t.find w status) := by
  have hafter := h.later (Tracees.later_find w t status)
  refine ⟨hafter.all, fun tid hattached ↦ mem_insertTid.mpr (hafter.known tid hattached),
    fun tid hattached ↦ ?_, hafter.disarmed⟩
  rcases hafter.halted tid hattached with rfl | hhalted
  · exact halted_find hstatus hattached
  · exact hhalted

/-- A thread is seized. -/
theorem Seized.attach (h : Seized (w :: rest) seized t) (hlive : w ∈ t.live) :
    Pending w rest seized (t.attach w true) := by
  have hattached : ∀ tid, tid ∈ (t.attach w true).attached ↔ tid = w ∨ tid ∈ t.attached := by
    intro tid
    change tid ∈ (if w ∈ t.live then insert w t.attached else t.attached) ↔ _
    rw [if_pos hlive, Finset.mem_insert]
  refine ⟨fun tid htid ↦ ?_, fun tid htid ↦ ?_, fun tid htid ↦ ?_, h.disarmed⟩
  · rw [hattached]
    rcases h.all tid htid with hbefore | hlisted
    · exact Or.inl (Or.inr hbefore)
    · exact (List.mem_cons.mp hlisted).imp_left Or.inl
  · exact ((hattached tid).mp htid).imp_right (h.known tid)
  · exact ((hattached tid).mp htid).imp_right (h.halted tid)

theorem at_seizeThread (hchildless : k.Childless) (hfinds : k.Finds)
    (h : At .starting pid traceTid seized (Seized (w :: rest) seized) s)
    (hgranted : w ∈ (pass k s).tracees.live →
      k.grants s.clock = true ∧ k.grants (s.clock + 1) = true) :
    ∃ seized', At .starting pid traceTid seized' (Seized rest seized') (seizeThread k s w) := by
  have hpassed := h.pass hchildless lasting_seized
  unfold seizeThread attach
  dsimp only
  by_cases hattach : k.grants s.clock = true ∧ w ∈ (pass k s).tracees.live ∧
      w ∉ (pass k s).tracees.attached
  · rw [if_pos hattach]
    have hpending : At .starting pid traceTid seized (Pending w rest seized)
        { pass k s with tracees := (pass k s).tracees.attach w true } :=
      hpassed.act fun hseized ↦ hseized.attach hattach.2.1
    set attached : Tracer := { pass k s with tracees := (pass k s).tracees.attach w true }
    have hinterrupted := hpending.pass hchildless lasting_pending
    have hgrants : k.grants attached.clock = true := (hgranted hattach.2.1).2
    unfold interrupt
    dsimp only
    by_cases hleft : w ∈ (pass k attached).tracees.attached
    · rw [hgrants, decide_eq_true ⟨rfl, hleft⟩]
      obtain ⟨status, hstatus, hwait, hfound⟩ :=
        hinterrupted.waitpid hchildless hfinds lasting_pending w
      refine ⟨insertTid w seized, ?_⟩
      have hseized : Seized rest (insertTid w seized)
          (Tracer.waitpid k w (pass k attached)).1.tracees := by
        obtain ⟨before, hbefore, hafter⟩ := hfound.holds
        rw [hafter]
        exact hbefore.find hstatus
      rcases hresult : Tracer.waitpid k w (pass k attached) with ⟨after, answer⟩
      rw [hresult] at hwait hfound hseized
      obtain rfl : answer = some status := hwait
      dsimp only
      rw [hresult]
      exact ⟨hfound.phase, hfound.pid, hfound.traceTid, by rw [← hfound.seized], hfound.watched,
        hseized⟩
    · rw [decide_eq_false fun hboth ↦ hleft hboth.2]
      exact ⟨seized, hinterrupted.mono fun hpend ↦ hpend.seized_of_gone hleft⟩
  · rw [if_neg hattach]
    refine ⟨seized, hpassed.mono fun hseized ↦
      ⟨fun tid hlive ↦ ?_, hseized.known, hseized.halted, hseized.disarmed⟩⟩
    rcases hseized.all tid hlive with hbefore | hlisted
    · exact Or.inl hbefore
    · rcases List.mem_cons.mp hlisted with rfl | hrest
      · refine Or.inl (by_contra fun hfree ↦ hattach ⟨(hgranted hlive).1, hlive, hfree⟩)
      · exact Or.inr hrest

/-- Every thread that could be seized is. -/
theorem at_seizeAll (hchildless : k.Childless) (hfinds : k.Finds) {tids : List ℕ}
    (hseizes : Seizes k s tids) (h : At .starting pid traceTid seized (Seized tids seized) s) :
    ∃ seized', At .starting pid traceTid seized' (Seized [] seized')
      (tids.foldl (seizeThread k) s) := by
  induction tids generalizing s seized with
  | nil => exact ⟨seized, h⟩
  | cons tid rest ih =>
    obtain ⟨after, hafter⟩ := at_seizeThread hchildless hfinds h hseizes.1
    exact ih hseizes.2 hafter

/-- Threads are stopped, and those that are not on a list have the breakpoint. -/
structure Arming (rest seized : List ℕ) (t : Tracees) : Prop extends Held seized t where
  halted : ∀ tid ∈ t.attached, tid ∈ t.halted
  armed : ∀ tid ∈ t.attached, tid ∈ t.armed ∨ tid ∈ rest

theorem lasting_arming : Lasting .starting traceTid (Arming rest seized) := by
  refine lasting_of_later (fun _ ↦ trivial) fun {t t'} hlater h ↦
    ⟨h.toHeld.later hlater, fun tid hattached ↦ ?_, fun tid hattached ↦ ?_⟩
  · have hbefore := (hlater.attached tid).mp hattached
    exact hlater.halted tid (h.halted tid hbefore.1) hbefore.2
  · have hbefore := (hlater.attached tid).mp hattached
    exact (h.armed tid hbefore.1).imp_left fun harmed ↦ (hlater.armed tid).mpr ⟨harmed, hbefore.2⟩

theorem at_setBreakpoint (hchildless : k.Childless)
    (h : At .starting pid traceTid seized (Arming (w :: rest) seized) s)
    (hgranted : w ∈ (pass k s).tracees.live → k.grants s.clock = true) :
    At .starting pid traceTid seized (Arming rest seized) (setBreakpoint k s w) := by
  have hpassed := h.pass hchildless lasting_arming
  unfold setBreakpoint
  dsimp only
  split_ifs with hgrant
  · refine hpassed.act fun harming ↦ ⟨⟨harming.all, harming.known⟩, harming.halted, ?_⟩
    intro tid hattached
    change tid ∈ (if w ∈ (pass k s).tracees.halted then insert w (pass k s).tracees.armed else
      (pass k s).tracees.armed) ∨ _
    have hlisted := (harming.armed tid hattached).imp_right List.mem_cons.mp
    split_ifs with hhalted
    · rw [Finset.mem_insert]
      tauto
    · rcases hlisted with harmed | rfl | hrest
      · exact Or.inl harmed
      · exact absurd (harming.halted tid hattached) hhalted
      · exact Or.inr hrest
  · refine hpassed.mono fun harming ↦ ⟨harming.toHeld, harming.halted, fun tid hattached ↦ ?_⟩
    rcases (harming.armed tid hattached).imp_right List.mem_cons.mp with harmed | rfl | hrest
    · exact Or.inl harmed
    · exact absurd (hgranted ((pass k s).tracees.attached_live hattached)) hgrant
    · exact Or.inr hrest

theorem at_armAll (hchildless : k.Childless) {tids : List ℕ} (harms : Arms k s tids)
    (h : At .starting pid traceTid seized (Arming tids seized) s) :
    At .starting pid traceTid seized (Arming [] seized) (tids.foldl (setBreakpoint k) s) := by
  induction tids generalizing s with
  | nil => exact h
  | cons tid rest ih => exact ih harms.2 (at_setBreakpoint hchildless h harms.1)

theorem settled_start (hchildless : k.Childless) (hfinds : k.Finds) {live : Finset ℕ}
    (hstarts : Starts k config pid live) : Settled (start k config pid (.untraced live)) := by
  have hnew : At .starting pid pid [] (Seized (threadsToSeize k pid) []) (new pid (.untraced live)) :=
    ⟨rfl, rfl, rfl, rfl, fun sight hsight ↦ absurd hsight List.not_mem_nil,
      ⟨fun tid hlive ↦ Or.inr (hstarts.listed tid hlive),
        fun tid hattached ↦ absurd hattached (Finset.notMem_empty tid),
        fun tid hattached ↦ absurd hattached (Finset.notMem_empty tid),
        fun tid ↦ Finset.notMem_empty tid⟩⟩
  obtain ⟨seized, hseized⟩ := at_seizeAll hchildless hfinds hstarts.seizes hnew
  change At _ _ _ _ _ (seizeAll k pid (.untraced live)) at hseized
  have hheld : ∀ {t}, Seized [] seized t → Stopped [] seized t := fun h ↦
    ⟨⟨fun tid hlive ↦ (h.all tid hlive).resolve_right List.not_mem_nil, h.known⟩, h.halted,
      fun tid harmed ↦ absurd harmed (h.disarmed tid)⟩
  have hstopped := hseized.mono hheld
  unfold start attachMain
  by_cases hnone : (seizeAll k pid (.untraced live)).seized = []
  · -- no thread lives, and there is none to attach to
    have hempty : ∀ tid, tid ∉ (pass k (seizeAll k pid (.untraced live))).tracees.live := by
      intro tid hlive
      have hknown := hstopped.holds.known tid (hstopped.holds.all tid
        ((later_pass hchildless _).live tid hlive))
      rw [← hseized.seized, hnone] at hknown
      exact List.not_mem_nil hknown
    rw [if_neg (not_not.mpr hnone)]
    have hrefused : attach k false (seizeAll k pid (.untraced live)).pid
        (seizeAll k pid (.untraced live)) =
          (pass k (seizeAll k pid (.untraced live)), false) := by
      unfold attach
      exact if_neg fun hgranted ↦ hempty _ hgranted.2.1
    rw [hrefused]
    have hpassed := hseized.pass hchildless lasting_seized
    exact .returned ⟨rfl, hpassed.pid, hpassed.traceTid, hpassed.seized, hpassed.watched,
      (hheld hpassed.holds).toHeld.leaving (fun tid hattached ↦
        hempty tid ((Tracees.attached_live _) hattached)) []⟩
  · rw [if_pos hnone]
    dsimp only
    by_cases haddress : config.startAddress = 0
    · rw [if_pos haddress]
      exact hstopped.step
    · rw [if_neg haddress]
      have harming : At .starting pid pid seized (Arming seized seized)
          (seizeAll k pid (.untraced live)) :=
        hstopped.mono fun h ↦ ⟨h.toHeld, h.halted, fun tid hattached ↦ Or.inr (h.known tid hattached)⟩
      have harms := hstarts.arms haddress
      rw [hseized.seized] at harms ⊢
      have harmed := (at_armAll hchildless harms harming).mono fun h ↦
        (⟨h.toHeld, fun tid hattached ↦ (h.armed tid hattached).resolve_right List.not_mem_nil⟩ :
          Armed seized _)
      have hlasting : Lasting .starting pid (Armed seized) :=
        lasting_of_later (fun _ ↦ trivial) Armed.later
      have hresumed : At .starting pid pid seized (Armed seized)
          ((seized.foldl (setBreakpoint k) (seizeAll k pid (.untraced live))).seized.foldl (cont k)
            (seized.foldl (setBreakpoint k) (seizeAll k pid (.untraced live)))) :=
        At.foldl (P := fun _ ↦ Armed seized) (fun hother ↦
          hother.cont hchildless hlasting fun h ↦ ⟨⟨h.all, h.known⟩, h.armed⟩) harmed
      exact .waiting ⟨rfl, hresumed.pid, hresumed.traceTid, hresumed.seized, hresumed.watched,
        hresumed.holds⟩

/-! ### Whole traces -/

theorem Settled.disciplined (h : Settled s) : Disciplined s := by
  cases h with
  | waiting hat =>
    refine ⟨hat.watched, ?_⟩
    rw [sight, hat.phase]
    exact hat.holds.armed
  | stepping hat =>
    refine ⟨hat.watched, ?_⟩
    rw [sight, hat.phase, hat.traceTid]
    exact lasting_stopped.seen hat.holds
  | returned hat =>
    refine ⟨hat.watched, ?_⟩
    rw [sight, hat.phase]
    exact ⟨Finset.eq_empty_of_forall_notMem fun tid hattached ↦
      List.not_mem_nil (hat.holds.known tid hattached),
      Finset.eq_empty_of_forall_notMem hat.holds.disarmed⟩

theorem settled_turn (hchildless : k.Childless) (hfinds : k.Finds) (horderly : Orderly k config s)
    (h : Settled s) : Settled (turn k config s) := by
  unfold turn
  cases h with
  | waiting hat =>
    rw [hat.phase]
    exact settled_awaitStart hchildless hat horderly
  | stepping hat =>
    rw [hat.phase]
    exact settled_stepTurn hchildless hfinds hat
  | returned hat =>
    rw [hat.phase]
    exact .returned hat

theorem settled_run (hchildless : k.Childless) (hfinds : k.Finds)
    (horderly : ∀ n, Orderly k config (run k config n s)) (h : Settled s) (n : ℕ) :
    Settled (run k config n s) := by
  induction n generalizing s with
  | zero => exact h
  | succ n ih =>
    exact ih (fun m ↦ horderly (m + 1)) (settled_turn hchildless hfinds (horderly 0) h)

/-- A trace is disciplined when no thread is created, waits for a thread find it, every thread is
listed, seized and armed at the start, and every turn is orderly. -/
theorem trace_disciplined (k : TraceKernel) (config : TraceConfig) (pid : ℕ) (live : Finset ℕ)
    (hchildless : k.Childless) (hfinds : k.Finds) (hstarts : Starts k config pid live)
    (horderly : ∀ n, Orderly k config (run k config n (start k config pid (.untraced live)))) (n : ℕ) :
    Disciplined (run k config n (start k config pid (.untraced live))) :=
  (settled_run hchildless hfinds horderly (settled_start hchildless hfinds hstarts) n).disciplined

/-! ### A target with two threads -/

theorem run_returned (hreturned : s.phase = .returned) (n : ℕ) : run k config n s = s := by
  induction n with
  | zero => rfl
  | succ n ih =>
    have hturn : turn k config s = s := by rw [turn, hreturned]
    change run k config n (turn k config s) = s
    rw [hturn, ih]

theorem seizes_of_grants (hgrants : ∀ clock, k.grants clock = true) (tids : List ℕ) (s : Tracer) :
    Seizes k s tids := by
  induction tids generalizing s with
  | nil => trivial
  | cons tid rest ih => exact ⟨fun _ ↦ ⟨hgrants _, hgrants _⟩, ih _⟩

theorem arms_of_grants (hgrants : ∀ clock, k.grants clock = true) (tids : List ℕ) (s : Tracer) :
    Arms k s tids := by
  induction tids generalizing s with
  | nil => trivial
  | cons tid rest ih => exact ⟨fun _ ↦ hgrants _, ih _⟩

/-- Thread 1 hits the start address `0x2000`, when some other things happen. -/
def hittingKernel (atHit : List Happening) : TraceKernel where
  threads := [1, 2]
  happens := fun clock ↦ if clock = 10 then atHit else []
  grants := fun _ ↦ true
  waits := fun _ ↦ some (.stopped sigtrap 0)
  polls := fun _ ↦ some (1, ⟨.stopped sigtrap 0, some ⟨0x2000, 0x7000⟩, some [0], 0x2000⟩)
  context := fun _ ↦ ⟨0x2000, 0x7000⟩
  instruction := fun _ _ ↦ some ⟨"nop".toList, [], 1⟩
  cancelled := fun _ ↦ false

/-- One step from `0x2000`. -/
def oneStep : TraceConfig where
  startAddress := 0x2000
  maxSteps := 1
  stepOverCalls := false
  stayInModule := false
  moduleBase := 0
  moduleEnd := 0
  stopAddress := 0

/-- The trace of threads 1 and 2 after some turns. -/
def hittingTrace (atHit : List Happening) (turns : ℕ) : Tracer :=
  run (hittingKernel atHit) oneStep turns (start (hittingKernel atHit) oneStep 1 (.untraced {1, 2}))

theorem hittingKernel_childless {atHit : List Happening}
    (hatHit : ∀ parent child, Happening.creates parent child ∉ atHit) :
    (hittingKernel atHit).Childless := by
  intro clock parent child
  change _ ∉ (if clock = 10 then atHit else [])
  split_ifs
  · exact hatHit parent child
  · exact List.not_mem_nil

theorem hittingKernel_finds (atHit : List Happening) : (hittingKernel atHit).Finds :=
  fun _ ↦ ⟨.stopped sigtrap 0, rfl, WaitStatus.noConfusion⟩

theorem hittingKernel_starts (atHit : List Happening) :
    Starts (hittingKernel atHit) oneStep 1 {1, 2} where
  listed := by simp [threadsToSeize, hittingKernel]
  seizes := seizes_of_grants (fun _ ↦ rfl) _ _
  arms := fun _ ↦ arms_of_grants (fun _ ↦ rfl) _ _

/-- Both threads have stopped when thread 1 is found at the start address. -/
theorem trace_disciplined_stopped : (hittingTrace [.stops 2] 3).phase = .returned ∧
    Disciplined (hittingTrace [.stops 2] 3) := by
  refine ⟨by decide, trace_disciplined (hittingKernel [.stops 2]) oneStep 1 {1, 2}
    (hittingKernel_childless (by simp)) (hittingKernel_finds _) (hittingKernel_starts _) ?_ 3⟩
  have hphase : ∀ n, (hittingTrace [.stops 2] (n + 1)).phase ≠ .waiting := by
    intro n
    match n with
    | 0 | 1 => decide
    | n + 2 =>
      have hlater : hittingTrace [.stops 2] (n + 3) = hittingTrace [.stops 2] 3 :=
        run_returned (by decide) n
      rw [hlater]
      decide
  intro n
  match n with
  | 0 =>
    intro _
    rw [if_neg (by decide)]
    exact fun _ ↦ (by decide : ∀ tid ∈ (pass (hittingKernel [.stops 2])
      (hittingTrace [.stops 2] 0)).tracees.attached, tid ≠ 1 →
        tid ∈ (pass (hittingKernel [.stops 2]) (hittingTrace [.stops 2] 0)).tracees.halted)
  | n + 1 => exact fun hwaiting ↦ absurd hwaiting (hphase n)

/-- Thread 2 runs while the trace disarms it, and is detached with the breakpoint. -/
theorem running_thread_left_armed :
    (hittingKernel []).Childless ∧ (hittingKernel []).Finds ∧
    Starts (hittingKernel []) oneStep 1 {1, 2} ∧
    (hittingTrace [] 3).phase = .returned ∧
    (hittingTrace [] 3).tracees.attached = ∅ ∧ (hittingTrace [] 3).tracees.armed = {2} ∧
    ¬Disciplined (hittingTrace [] 3) := by
  have harmed : (hittingTrace [] 3).tracees.armed = {2} := by decide
  have hreturned : (hittingTrace [] 3).phase = .returned := by decide
  refine ⟨hittingKernel_childless (by simp), hittingKernel_finds _, hittingKernel_starts _, hreturned,
    by decide, harmed, ?_⟩
  rintro ⟨-, hnow⟩
  rw [sight, hreturned] at hnow
  have hempty : (hittingTrace [] 3).tracees.armed = ∅ := hnow.2
  rw [harmed] at hempty
  exact absurd hempty (by decide)

end Tracer

end Cecore.Debug
