import Cecore.Debug.Watchpoints
import Cecore.Remote.LockStep

/-!
# Breakpoints of a remote debugger

`RemoteDebugger` sets breakpoints through a connection to a server with a `DebugSession`. The
callers of `Debugger::setBreakpoint` pass the length code of DR7 as the size, the session takes it
as a number of bytes. A breakpoint is never removed, though each remove request is acknowledged.
-/

set_option autoImplicit false
set_option relaxedAutoImplicit false

namespace Cecore.Remote

open Debug

/-! ### Requests -/

inductive Access
  | execute
  | write
  | readWrite
  deriving DecidableEq, Repr

/-- The condition bits of DR7. -/
def Access.hwType : Access → UInt32
  | .execute => 0
  | .write => 1
  | .readWrite => 3

inductive WatchSize
  | one
  | two
  | four
  | eight
  deriving DecidableEq, Repr

def WatchSize.bytes : WatchSize → UInt32
  | .one => 1
  | .two => 2
  | .four => 4
  | .eight => 8

/-- The length bits of DR7, as `CodeFinder` and `BreakpointManager` pass them for a size. -/
def WatchSize.dr7Length : WatchSize → UInt32
  | .one => 0
  | .two => 1
  | .four => 3
  | .eight => 2

/-- How a caller passes the size. -/
inductive SizeCode
  | dr7
  | byteCount
  deriving DecidableEq, Repr

def SizeCode.encode : SizeCode → WatchSize → UInt32
  | .dr7, size => size.dr7Length
  | .byteCount, size => size.bytes

/-- What a breakpoint watches. -/
structure WatchRange where
  address : ℕ
  access : Access
  size : WatchSize
  deriving DecidableEq, Repr

/-! ### The server's session -/

/-- What the debug register of a watchpoint makes the processor watch. -/
def watchedBy (bp : HwBp) : WatchRange where
  address := bp.address
  access := if bp.type = 1 then .write else if bp.type = 0 then .execute else .readWrite
  size := if bp.len = 0 then .one else if bp.len = 1 then .two else if bp.len = 2 then .eight
    else .four

/-- An int3 watches the execution of its byte. -/
def caughtBy (bp : SoftBp) : WatchRange := ⟨bp.address, .execute, .one⟩

/-- All that a session watches. -/
def installed (s : DebugSession) : List WatchRange :=
  s.hwBreakpoints.map watchedBy ++ s.softBreakpoints.map caughtBy

/-- `setSoftwareBreakpoint` or `setHardwareBreakpoint`, whichever the type asks for. -/
def setSessionBreakpoint (k : Kernel) (s : DebugSession) (address : UInt64) (bpType bpSize : UInt32) :
    DebugSession × ℤ :=
  if !s.attached then (s, -1)
  else if bpType = 0 then DebugSession.doSetSoftBp k address.toNat s
  else DebugSession.doSetHwBp k address.toNat bpType.toNat bpSize.toNat s

/-- A target that is debugged by a session; what else it answers is left open. -/
def debugHost (k : Kernel) (others : Host DebugSession) : Host DebugSession :=
  { others with
    setBreakpoint := fun s address bpType bpSize ↦
      let (s, id) := setSessionBreakpoint k s address bpType bpSize
      (decide (id > 0), s)
    continueExecution := fun s ↦ if s.attached then DebugSession.doContinue k s else s }

/-! ### The debugger -/

namespace RemoteDebugger

variable {σ : Type}

/-- A result that is an error when the reply is no number or zero. -/
def succeeded : Outcome → Bool
  | .value n => n ≠ 0
  | _ => false

/-- `RemoteDebugger::setBreakpoint`. -/
def setBreakpoint (host : Host σ) (link : Link σ) (handle tid reg : UInt32) (address : UInt64)
    (type size : UInt32) : Option (Bool × Link σ) := do
  let (outcome, link) ← link.exchange host (.setRemoteBreakpoint handle tid reg address type size)
  some (succeeded outcome, link)

/-- `RemoteDebugger::removeBreakpoint`. -/
def removeBreakpoint (host : Host σ) (link : Link σ) (handle tid reg : UInt32) :
    Option (Bool × Link σ) := do
  let (outcome, link) ← link.exchange host (.removeRemoteBreakpoint handle tid reg 0)
  some (succeeded outcome, link)

end RemoteDebugger

/-- From `s` to `s'` a breakpoint at the address is set that watches `watch`: a new watchpoint, or
an int3 with no new watchpoint. -/
def Installs (address : UInt64) (s s' : DebugSession) (watch : WatchRange) : Prop :=
  watch.address = address.toNat ∧
    ((∃ bp, s'.hwBreakpoints = s.hwBreakpoints ++ [bp] ∧ watchedBy bp = watch) ∨
      (s'.hwBreakpoints = s.hwBreakpoints ∧ ∃ bp ∈ s'.softBreakpoints, caughtBy bp = watch))

/-- A request on a server: an acknowledged request installs what it asks for, and nothing of what it
installed is left when its removal is acknowledged. -/
def MeansTheSame (k : Kernel) (others : Host DebugSession) (server : CeserverServer DebugSession)
    (handle tid reg : UInt32) (address : UInt64) (access : Access) (size : WatchSize)
    (code : SizeCode) : Prop :=
  ∀ link, RemoteDebugger.setBreakpoint (debugHost k others) ⟨server, [], []⟩ handle tid reg address
      access.hwType (code.encode size) = some (true, link) →
    Installs address server.host link.server.host ⟨address.toNat, access, size⟩ ∧
      ∀ after, RemoteDebugger.removeBreakpoint (debugHost k others) link handle tid reg =
        some (true, after) → ∀ watch, Installs address server.host link.server.host watch →
          watch ∉ installed after.server.host

/-! ### What continuing leaves alone -/

section Continue

open DebugSession

theorem softBreakpoints_pokeByte (k : Kernel) (address : ℕ) (val : UInt8) (s : DebugSession) :
    (pokeByte k address val s).1.softBreakpoints = s.softBreakpoints := by
  unfold pokeByte
  split_ifs <;> rfl

theorem softBreakpoints_waitpid (k : Kernel) (site : WaitSite) (tid : ℕ) (s : DebugSession) :
    (waitpid k site tid s).1.softBreakpoints = s.softBreakpoints := by
  unfold waitpid
  cases k.waits s.clock <;> rfl

theorem softBreakpoints_stepThreadOverBp (k : Kernel) (tid : ℕ) (s : DebugSession) :
    (stepThreadOverBp k tid s).1.softBreakpoints = s.softBreakpoints := by
  unfold stepThreadOverBp
  cases s.regs tid with
  | none => rfl
  | some regs =>
    dsimp only
    cases s.armedAt regs.rip with
    | none => rfl
    | some bp =>
      have hstep := (softBreakpoints_waitpid k .singleStep tid
        (resume tid 0 (pokeByte k regs.rip bp.originalByte s).1)).trans
        (softBreakpoints_pokeByte k regs.rip bp.originalByte s)
      dsimp only
      unfold rearm
      split_ifs
      · exact (softBreakpoints_pokeByte _ _ _ _).trans hstep
      · exact hstep

theorem softBreakpoints_foldl {f : DebugSession → ℕ → DebugSession}
    (hf : ∀ s tid, (f s tid).softBreakpoints = s.softBreakpoints) (tids : List ℕ)
    (s : DebugSession) : (tids.foldl f s).softBreakpoints = s.softBreakpoints := by
  induction tids generalizing s with
  | nil => rfl
  | cons tid rest ih => exact (ih (f s tid)).trans (hf s tid)

theorem softBreakpoints_doContinue (k : Kernel) (s : DebugSession) :
    (doContinue k s).softBreakpoints = s.softBreakpoints := by
  unfold doContinue
  split_ifs
  · rfl
  · have hsteps := softBreakpoints_foldl
      (fun s tid ↦ softBreakpoints_stepThreadOverBp k tid s) s.traced s
    exact (softBreakpoints_foldl (f := fun s tid ↦ resume tid 0 s) (fun _ _ ↦ rfl) _ _).trans hsteps

end Continue

/-! ### What a request does -/

variable {k : Kernel} {others : Host DebugSession} {server : CeserverServer DebugSession}
  {handle tid reg : UInt32} {address : UInt64} {access : Access} {size : WatchSize} {code : SizeCode}

theorem setBreakpoint_eq {σ : Type} (host : Host σ) (server : CeserverServer σ)
    (handle tid reg : UInt32) (address : UInt64) (type bpSize : UInt32) :
    RemoteDebugger.setBreakpoint host ⟨server, [], []⟩ handle tid reg address type bpSize =
      let op := Operation.setRemoteBreakpoint handle tid reg address type bpSize
      some (RemoteDebugger.succeeded (op.call host server).1, ⟨(op.call host server).2, [], []⟩) := by
  rw [RemoteDebugger.setBreakpoint, exchange_eq_call host server
    (.setRemoteBreakpoint handle tid reg address type bpSize) trivial]
  rfl

/-- A removal is acknowledged, and changes nothing. -/
theorem removeBreakpoint_eq {σ : Type} (host : Host σ) (server : CeserverServer σ)
    (handle tid reg : UInt32) :
    RemoteDebugger.removeBreakpoint host ⟨server, [], []⟩ handle tid reg =
      some (true, ⟨server, [], []⟩) := by
  rw [RemoteDebugger.removeBreakpoint, exchange_eq_call host server
    (.removeRemoteBreakpoint handle tid reg 0) trivial]
  rfl

/-- A set request that is acknowledged has been made of the session. -/
theorem setBreakpoint_acknowledged {type bpSize : UInt32} {link : Link DebugSession}
    (h : RemoteDebugger.setBreakpoint (debugHost k others) ⟨server, [], []⟩ handle tid reg address type
      bpSize = some (true, link)) :
    0 < (setSessionBreakpoint k server.host address type bpSize).2 ∧
      link.server.host.hwBreakpoints =
        (setSessionBreakpoint k server.host address type bpSize).1.hwBreakpoints ∧
      link.server.host.softBreakpoints =
        (setSessionBreakpoint k server.host address type bpSize).1.softBreakpoints ∧
      link = ⟨link.server, [], []⟩ := by
  rw [setBreakpoint_eq] at h
  simp only [Option.some.injEq, Prod.mk.injEq] at h
  obtain ⟨hsuccess, rfl⟩ := h
  rw [Operation.call] at hsuccess ⊢
  cases hdebugging : server.debugging with
  | false =>
    rw [hdebugging, if_neg Bool.false_ne_true] at hsuccess
    cases hsuccess
  | true =>
    rw [hdebugging, if_pos rfl] at hsuccess
    rw [if_pos rfl]
    set set := setSessionBreakpoint k server.host address type bpSize with hset
    have hid : 0 < set.2 := by
      by_contra hnone
      have hflag : decide (set.2 > 0) = false := decide_eq_false hnone
      change RemoteDebugger.succeeded (.value (if decide (set.2 > 0) = true then 1 else 0)) = true
        at hsuccess
      rw [hflag] at hsuccess
      cases hsuccess
    refine ⟨hid, ?_, ?_, rfl⟩
    · change (if set.1.attached then DebugSession.doContinue k set.1 else set.1).hwBreakpoints = _
      split_ifs
      · exact (DebugSession.steady_doContinue k set.1).hwBreakpoints
      · rfl
    · change (if set.1.attached then DebugSession.doContinue k set.1 else set.1).softBreakpoints = _
      split_ifs
      · exact softBreakpoints_doContinue k set.1
      · rfl

/-- A software breakpoint that gets an id is among the breakpoints. -/
theorem doSetSoftBp_installs {s : DebugSession} {address : ℕ}
    (hid : 0 < (DebugSession.doSetSoftBp k address s).2) :
    (DebugSession.doSetSoftBp k address s).1.hwBreakpoints = s.hwBreakpoints ∧
      ∃ bp ∈ (DebugSession.doSetSoftBp k address s).1.softBreakpoints, bp.address = address := by
  refine ⟨congrArg View.hwBreakpoints (DebugSession.view_doSetSoftBp k address s), ?_⟩
  unfold DebugSession.doSetSoftBp at hid ⊢
  cases hfind : s.softBreakpoints.find? fun bp ↦ decide (bp.address = address) with
  | some bp =>
    have hat : bp.address = address := by simpa using List.find?_some hfind
    exact ⟨bp, List.mem_of_find?_eq_some hfind, hat⟩
  | none =>
    rw [hfind] at hid
    rcases hpoke : DebugSession.pokeByte k address 0xCC s with ⟨poked, _ | orig⟩
    · rw [hpoke] at hid
      exact absurd hid (show ¬ (0 : ℤ) < -1 by decide)
    · exact ⟨_, List.mem_append_right _ List.mem_cons_self, rfl⟩

/-- A watchpoint that gets an id is the last one. -/
theorem doSetHwBp_installs {s : DebugSession} {address type size : ℕ}
    (hid : 0 < (DebugSession.doSetHwBp k address type size s).2) :
    ∃ bp, (DebugSession.doSetHwBp k address type size s).1.hwBreakpoints =
        s.hwBreakpoints ++ [bp] ∧ bp.address = address ∧ bp.type = (if type = 1 then 1 else 3) ∧
      bp.len = if size = 1 then 0 else if size = 2 then 1 else if size = 8 then 2 else 3 := by
  unfold DebugSession.doSetHwBp at hid ⊢
  cases hfind : (List.range 4).find? fun reg ↦ decide (reg ∉ s.hwBreakpoints.map HwBp.reg) with
  | none =>
    rw [hfind] at hid
    exact absurd hid (show ¬ (0 : ℤ) < -1 by decide)
  | some reg =>
    dsimp only
    rw [DebugSession.armHwBp_eq]
    set watch : Watch := ⟨address, if type = 1 then 1 else 3,
      if size = 1 then 0 else if size = 2 then 1 else if size = 8 then 2 else 3⟩
    have hview := (DebugSession.oneRegister_foldl k reg (some watch) s.traced s).view
    set armed := s.traced.foldl (DebugSession.pokeDebugReg k reg (some watch)) s
    have hlist : armed.hwBreakpoints = s.hwBreakpoints := congrArg View.hwBreakpoints hview
    exact ⟨⟨armed.nextHwBpId, address, reg, watch.cond, watch.len⟩, by rw [hlist], rfl, rfl, rfl⟩

/-- Two watches of one address and one access are the same when their sizes are. -/
theorem watchRange_eq_iff {address : ℕ} {access access' : Access} {size size' : WatchSize} :
    WatchRange.mk address access size = ⟨address, access', size'⟩ ↔
      access = access' ∧ size = size' := by
  rw [WatchRange.mk.injEq]
  exact and_iff_right rfl

/-- What an acknowledged request installs: as a rule, something else than what was asked for. -/
theorem installs_acknowledged {s s' : DebugSession}
    (hid : 0 < (setSessionBreakpoint k s address access.hwType (code.encode size)).2)
    (hhw : s'.hwBreakpoints =
      (setSessionBreakpoint k s address access.hwType (code.encode size)).1.hwBreakpoints)
    (hsoft : s'.softBreakpoints =
      (setSessionBreakpoint k s address access.hwType (code.encode size)).1.softBreakpoints) :
    (∃ watch, Installs address s s' watch ∧ watch ∈ installed s') ∧
      (Installs address s s' ⟨address.toNat, access, size⟩ ↔
        if access = .execute then size = .one else code = .byteCount ∨ size = .four) := by
  unfold setSessionBreakpoint at hid hhw hsoft
  cases hattached : s.attached with
  | false =>
    rw [hattached] at hid
    exact absurd hid (show ¬ (0 : ℤ) < -1 by decide)
  | true =>
    rw [hattached] at hid hhw hsoft
    by_cases hexecute : access = .execute
    · subst hexecute
      rw [if_pos rfl]
      change 0 < (DebugSession.doSetSoftBp k address.toNat s).2 at hid
      change s'.hwBreakpoints = (DebugSession.doSetSoftBp k address.toNat s).1.hwBreakpoints at hhw
      change s'.softBreakpoints =
        (DebugSession.doSetSoftBp k address.toNat s).1.softBreakpoints at hsoft
      obtain ⟨hkept, bp, hbp, hat⟩ := doSetSoftBp_installs hid
      rw [hkept] at hhw
      rw [← hsoft] at hbp
      refine ⟨⟨caughtBy bp, ⟨hat, Or.inr ⟨hhw, bp, hbp, rfl⟩⟩,
        List.mem_append_right _ (List.mem_map_of_mem hbp)⟩, ?_⟩
      constructor
      · rintro ⟨-, ⟨other, hother, -⟩ | ⟨-, other, -, hwatch⟩⟩
        · rw [hhw] at hother
          exact absurd (congrArg List.length hother) (by simp)
        · exact (congrArg WatchRange.size hwatch).symm
      · rintro rfl
        exact ⟨rfl, Or.inr ⟨hhw, bp, hbp, congrArg (WatchRange.mk · .execute .one) hat⟩⟩
    · have htype : access.hwType ≠ 0 := by
        cases access with
        | execute => exact absurd rfl hexecute
        | write => decide
        | readWrite => decide
      rw [if_neg hexecute]
      change 0 < (if access.hwType = 0 then _ else DebugSession.doSetHwBp k address.toNat
        access.hwType.toNat (code.encode size).toNat s : DebugSession × ℤ).2 at hid
      change s'.hwBreakpoints = (if access.hwType = 0 then _ else DebugSession.doSetHwBp k
        address.toNat access.hwType.toNat (code.encode size).toNat s : DebugSession × ℤ).1.hwBreakpoints
          at hhw
      rw [if_neg htype] at hid hhw
      obtain ⟨bp, hset, hat, hbptype, hlen⟩ := doSetHwBp_installs hid
      rw [hset] at hhw
      have hmem : bp ∈ s'.hwBreakpoints := by
        rw [hhw]
        exact List.mem_append_right _ List.mem_cons_self
      refine ⟨⟨watchedBy bp, ⟨hat, Or.inl ⟨bp, hhw, rfl⟩⟩,
        List.mem_append_left _ (List.mem_map_of_mem hmem)⟩, ?_⟩
      have hwatched : watchedBy bp = ⟨address.toNat, access, size⟩ ↔
          code = .byteCount ∨ size = .four := by
        unfold watchedBy
        rw [hat, watchRange_eq_iff, hbptype, hlen]
        revert htype
        cases access <;> cases size <;> cases code <;> decide
      rw [← hwatched]
      constructor
      · rintro ⟨-, ⟨other, hother, hwatch⟩ | ⟨hnone, -⟩⟩
        · rw [hhw] at hother
          have hsame := List.append_cancel_left hother
          rw [(List.cons.inj hsame).1]
          exact hwatch
        · rw [hhw] at hnone
          exact absurd (congrArg List.length hnone) (by simp)
      · exact fun hwatch ↦ ⟨rfl, Or.inl ⟨bp, hhw, hwatch⟩⟩

/-- A request installs what it asks for exactly when it is a watchpoint of four bytes, or its size
is passed as a number of bytes, or it is for the execution of one byte; and as soon as it is
acknowledged, it does not mean the same on both ends, since what it installed is there after every
removal. -/
theorem remote_breakpoint_iff (k : Kernel) (others : Host DebugSession)
    (server : CeserverServer DebugSession) (handle tid reg : UInt32) (address : UInt64)
    (access : Access) (size : WatchSize) (code : SizeCode) :
    (∀ link, RemoteDebugger.setBreakpoint (debugHost k others) ⟨server, [], []⟩ handle tid reg address
        access.hwType (code.encode size) = some (true, link) →
      (Installs address server.host link.server.host ⟨address.toNat, access, size⟩ ↔
        if access = .execute then size = .one else code = .byteCount ∨ size = .four)) ∧
    (MeansTheSame k others server handle tid reg address access size code ↔
      ∀ link, RemoteDebugger.setBreakpoint (debugHost k others) ⟨server, [], []⟩ handle tid reg address
        access.hwType (code.encode size) ≠ some (true, link)) := by
  refine ⟨fun link hset ↦ ?_, fun hsame link hset ↦ ?_, fun hrefused link hset ↦
    absurd hset (hrefused link)⟩
  · obtain ⟨hid, hhw, hsoft, -⟩ := setBreakpoint_acknowledged hset
    exact (installs_acknowledged hid hhw hsoft).2
  · obtain ⟨hid, hhw, hsoft, hlink⟩ := setBreakpoint_acknowledged hset
    obtain ⟨⟨watch, hinstalls, hwatch⟩, -⟩ := installs_acknowledged hid hhw hsoft
    obtain ⟨-, hremoved⟩ := hsame link hset
    refine hremoved link ?_ watch hinstalls hwatch
    rw [hlink]
    exact removeBreakpoint_eq (debugHost k others) link.server handle tid reg

/-- A session that is attached to threads 1 and 2. -/
def attachedSession : DebugSession :=
  DebugSession.run DebugSession.cloningKernel (DebugSession.new fun _ ↦ 0x90) [.attach 1]

/-- Eight bytes are asked for, two are watched, and they are watched after the removal too. -/
theorem eight_bytes_watched_as_two :
    ∃ link, RemoteDebugger.setBreakpoint (debugHost DebugSession.cloningKernel (threadsHost _ []))
        ⟨⟨attachedSession, true⟩, [], []⟩ 7 1 0 0x2000 Access.write.hwType
        (SizeCode.dr7.encode .eight) = some (true, link) ∧
      installed link.server.host = [⟨0x2000, .write, .two⟩] ∧
      RemoteDebugger.removeBreakpoint (debugHost DebugSession.cloningKernel (threadsHost _ [])) link
        7 1 0 = some (true, link) := by
  refine ⟨_, setBreakpoint_eq _ ⟨attachedSession, true⟩ 7 1 0 0x2000 _ _, by decide, ?_⟩
  exact removeBreakpoint_eq _ _ 7 1 0

end Cecore.Remote
