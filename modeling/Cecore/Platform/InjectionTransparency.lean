import Cecore.Platform.Injector
import Mathlib.Data.Finset.Lattice.Lemmas
import Mathlib.Data.Finset.SDiff

/-!
# Transparent injections

An injection is transparent when the results of calls are taken at returns to the poison address
only, and the target is left as it was found: its threads detached with their registers, its signals
delivered, its code restored and no scratch memory mapped. This is so as long as every stop that the
kernel reports is the one the code waits for, which it does not check.
-/

set_option autoImplicit false
set_option relaxedAutoImplicit false

namespace Cecore.Platform.Injector

open Debug

namespace Injection

/-- A target that is not attached to. -/
def new (regs : ℕ → UserRegs) (memory : ℕ → UInt8) : Injection where
  attached := ∅
  halted := ∅
  regs := regs
  held := fun _ ↦ none
  lost := []
  memory := memory
  blocks := []
  taken := []
  clock := 0

/-- What an injection leaves behind of a target. -/
structure Transparent (k : InjectorKernel) (before after : Injection) : Prop where
  taken : ∀ cause ∈ after.taken, cause = .poison
  detached : after.attached = ∅
  regs : after.regs = before.regs
  delivered : after.lost = []
  code : ∀ a, k.code a = true → after.memory a = before.memory a
  unmapped : after.blocks = []

end Injection

/-- Every stop is the one that is waited for: a thread that is seized stops for the interrupt, a
step ends with its trap and a call at the poison address. `munmap` succeeds, and neither the stacks
of the threads nor new mappings are in the code. -/
structure Quiet (abi : Abi) (k : InjectorKernel) (regs : ℕ → UserRegs) : Prop where
  seizes : ∀ tid, k.seizes tid = .refused ∨ k.seizes tid = .ended ∨
    ∃ signal, k.seizes tid = .stopped .interrupt signal
  steps : ∀ clock call, ∃ report, k.steps clock call = .stopped report ∧ report.cause = .trap ∧
    report.signal = sigtrap
  calls : ∀ clock, ∃ report, k.calls clock = .stopped report ∧ report.cause = .poison
  unmaps : ∀ clock call report, call.nr = abi.munmap → k.steps clock call = .stopped report →
    report.regs.rax = 0
  frames : ∀ tid args, ∀ i < 8 * (abi.frame args (regs tid)).2.length,
    k.code ((abi.frame args (regs tid)).1 + i) = false
  mappings : ∀ clock call report, call.nr = abi.mmap → k.steps clock call = .stopped report →
    abi.rejected (abi.result report.regs.rax) = false →
    ∀ i < call.args.getD 1 0, k.code ((abi.result report.regs.rax).toNat + i) = false

/-- Words are written as they are, and a mapping is taken for what it is. -/
structure Abi.Lawful (abi : Abi) : Prop where
  opcode : abi.opcode.length = 2
  words : ∀ args regs, ∀ word ∈ (abi.frame args regs).2, word.length = 8
  distinct : abi.munmap ≠ abi.mmap
  failed : abi.rejected (-1) = true
  mapped : ∀ rax address, abi.address? rax = some address →
    abi.rejected (abi.result rax) = false ∧ (abi.result rax).toNat = address

theorem lawful_abi64 : abi64.Lawful where
  opcode := rfl
  words := by
    intro args regs word hword
    rw [List.mem_singleton.mp hword]
    exact Library.LittleEndian.length_toLE _ _
  distinct := by decide
  failed := by decide
  mapped := by
    intro rax address hmapped
    obtain ⟨⟨hpos, hlt⟩, haddress⟩ := Option.ite_none_right_eq_some.mp hmapped
    cases haddress
    have hresult : abi64.result rax = rax := by
      change (if rax % sizeModulus < 2 ^ 63 then (rax : ℤ) % sizeModulus else _) = _
      have hrax : rax % sizeModulus = rax := Nat.mod_eq_of_lt (hlt.trans (by decide))
      rw [hrax, if_pos (hlt.trans (by decide)), ← Int.natCast_emod, hrax]
    rw [hresult]
    refine ⟨decide_eq_false ?_, Int.toNat_natCast rax⟩
    omega

theorem lawful_abi32 : abi32.Lawful where
  opcode := rfl
  words := by
    intro args regs word hword
    rcases List.mem_pair.mp hword with rfl | rfl
    · rw [List.length_append, Library.LittleEndian.length_toLE, Library.LittleEndian.length_toLE]
    · rw [List.length_append, Library.LittleEndian.length_toLE, Library.LittleEndian.length_toLE]
  distinct := by decide
  failed := by decide
  mapped := by
    intro rax address hmapped
    obtain ⟨⟨hpos, hlt⟩, haddress⟩ := Option.ite_none_right_eq_some.mp hmapped
    cases haddress
    have hresult : abi32.result rax = ((rax % 2 ^ 32 : ℕ) : ℤ) := by
      change ((rax : ℤ) % 2 ^ 32 : ℤ) = _
      push_cast
      rfl
    rw [hresult]
    refine ⟨decide_eq_false ?_, Int.toNat_natCast _⟩
    omega

/-! ### Memory -/

theorem length_wordAt (memory : ℕ → UInt8) (address : ℕ) : (wordAt memory address).length = 8 := by
  rw [wordAt, List.length_map, List.length_range]

theorem overwrite_of_lt {memory : ℕ → UInt8} {address a : ℕ} {bytes : List UInt8} (h : a < address) :
    overwrite memory address bytes a = memory a := if_neg (Nat.not_le.mpr h)

theorem overwrite_of_ge {memory : ℕ → UInt8} {address a : ℕ} {bytes : List UInt8}
    (h : address + bytes.length ≤ a) : overwrite memory address bytes a = memory a := by
  rw [overwrite, if_pos (by omega), List.getD_eq_default _ _ (by omega)]

/-- The word that was there is put back. -/
theorem overwrite_wordAt {memory after : ℕ → UInt8} {address a : ℕ} (hge : address ≤ a)
    (hlt : a < address + 8) : overwrite after address (wordAt memory address) a = memory a := by
  obtain ⟨i, rfl⟩ := Nat.exists_eq_add_of_le hge
  have hi : i < 8 := by omega
  rw [overwrite, if_pos hge, Nat.add_sub_cancel_left, wordAt,
    List.getD_eq_getElem _ _ (by rw [List.length_map, List.length_range]; exact hi), List.getElem_map,
    List.getElem_range]

/-- An instruction is replaced and put back, and the code stays as it was. -/
theorem patch_restore {code : ℕ → Bool} {memory written : ℕ → UInt8} {address : ℕ}
    {patch : List UInt8} (hpatch : patch.length = 8) {a : ℕ} (ha : code a = true) :
    overwrite (fun a ↦ if code a then overwrite memory address patch a else written a) address
      (wordAt memory address) a = memory a := by
  rcases Nat.lt_or_ge a address with hlt | hge
  · rw [overwrite_of_lt hlt, if_pos ha, overwrite_of_lt hlt]
  · rcases Nat.lt_or_ge a (address + 8) with hin | hout
    · exact overwrite_wordAt hge hin
    · rw [overwrite_of_ge (by rw [length_wordAt]; exact hout), if_pos ha,
        overwrite_of_ge (by rw [hpatch]; exact hout)]

namespace Injection

variable {abi : Abi} {k : InjectorKernel} {regs : ℕ → UserRegs} {s₀ s : Injection} {tid pid : ℕ}

/-- Words that are written outside of the code leave it as it is. -/
theorem pokeWords_eq {words : List (List UInt8)} (hwords : ∀ word ∈ words, word.length = 8)
    {address : ℕ} (hcode : ∀ i < 8 * words.length, k.code (address + i) = false) (s : Injection) :
    ∃ memory, (pokeWords k address words s).1 = { s with memory := memory } ∧
      ∀ a, k.code a = true → memory a = s.memory a := by
  induction words generalizing address s with
  | nil => exact ⟨s.memory, rfl, fun _ _ ↦ rfl⟩
  | cons word rest ih =>
    unfold pokeWords
    split_ifs
    · have hrest : ∀ i < 8 * rest.length, k.code (address + 8 + i) = false := by
        intro i hi
        rw [Nat.add_assoc]
        exact hcode (8 + i) (by rw [List.length_cons]; omega)
      obtain ⟨memory, hresult, hsame⟩ :=
        ih (fun other hother ↦ hwords other (List.mem_cons_of_mem _ hother)) hrest
          (poke address word s)
      refine ⟨memory, hresult, fun a ha ↦ (hsame a ha).trans ?_⟩
      change overwrite s.memory address word a = s.memory a
      rcases Nat.lt_or_ge a address with hlt | hge
      · exact overwrite_of_lt hlt
      · refine overwrite_of_ge ?_
        rw [hwords word List.mem_cons_self]
        by_contra hin
        have hfree := hcode (a - address) (by rw [List.length_cons]; omega)
        rw [Nat.add_sub_cancel' hge, ha] at hfree
        cases hfree
    · exact ⟨s.memory, rfl, fun _ _ ↦ rfl⟩

/-! ### Syscalls and calls -/

/-- The target is as it was found, but for threads that are stopped and scratch memory. -/
structure Clean (k : InjectorKernel) (s₀ s : Injection) : Prop where
  regs : s.regs = s₀.regs
  held : ∀ tid, s.held tid = none
  lost : s.lost = []
  code : ∀ a, k.code a = true → s.memory a = s₀.memory a
  taken : ∀ cause ∈ s.taken, cause = .poison
  halted : s.halted = s.attached

/-- The target is still clean, and the same threads are stopped. -/
structure Steady (k : InjectorKernel) (s₀ s s' : Injection) : Prop extends Clean k s₀ s' where
  attached : s'.attached = s.attached

theorem drop_eq (s : Injection) (hheld : ∀ tid, s.held tid = none) (tid : ℕ) : drop tid s = s := by
  have hsame : Function.update s.held tid none = s.held := by
    rw [← hheld tid]
    exact Function.update_eq_self _ _
  have hlost : s.lost ++ (s.held tid).toList = s.lost := by
    rw [hheld tid]
    exact List.append_nil _
  unfold drop
  rw [hsame, hlost]

theorem halt_eq (s : Injection) (hheld : ∀ tid, s.held tid = none) {cause : StopCause}
    (hcause : cause ≠ .signal) (tid signal : ℕ) :
    halt tid cause signal s = { s with halted := insert tid s.halted } := by
  have hsame : Function.update s.held tid none = s.held := by
    rw [← hheld tid]
    exact Function.update_eq_self _ _
  unfold halt
  rw [if_neg hcause, hsame]

/-- A stopped thread runs with other registers and stops again, for nothing of the target. -/
theorem await_entered (h : Clean k s₀ s) (hhalted : tid ∈ s.halted) (memory : ℕ → UInt8)
    (entered : UserRegs) {report : StopReport} (hcause : report.cause ≠ .signal) :
    await k tid (.stopped report) (resume tid (setRegs tid entered { s with memory := memory })) =
      ({ s with
          regs := Function.update s.regs tid report.regs
          memory := fun a ↦ if k.code a then memory a else report.memory a
          clock := s.clock + 1 }, some report) := by
  have hset : setRegs tid entered { s with memory := memory } =
      { s with memory := memory, regs := Function.update s.regs tid entered } := if_pos hhalted
  have hresumed : resume tid { s with memory := memory, regs := Function.update s.regs tid entered } =
      { s with
        memory := memory
        regs := Function.update s.regs tid entered
        halted := s.halted.erase tid } := by
    rw [resume]
    dsimp only
    rw [if_pos hhalted]
    exact drop_eq { s with
      memory := memory
      regs := Function.update s.regs tid entered
      halted := s.halted.erase tid } h.held tid
  rw [hset, hresumed]
  unfold await haltAt
  dsimp only
  rw [halt_eq { s with
    memory := fun a ↦ if k.code a then memory a else report.memory a
    regs := Function.update (Function.update s.regs tid entered) tid report.regs
    halted := s.halted.erase tid
    clock := s.clock + 1 } h.held hcause]
  dsimp only
  rw [Function.update_idem, Finset.insert_erase hhalted]

/-- The registers of a stopped thread are set back. -/
theorem setRegs_back (hhalted : tid ∈ s.halted) {found : UserRegs}
    (hfound : s.regs = Function.update regs tid found) :
    setRegs tid (regs tid) s = { s with regs := regs } := by
  rw [setRegs, if_pos hhalted, hfound, Function.update_idem, Function.update_eq_self]

/-- A syscall is executed with the registers and the code set back. -/
theorem runSyscall_eq (h : Clean k s₀ s) (hhalted : tid ∈ s.halted) {call : Syscall}
    (hreach : k.reaches (s.regs tid).rip = true) {report : StopReport}
    (hsteps : k.steps s.clock call = .stopped report) (hcause : report.cause = .trap)
    (hsignal : report.signal = sigtrap) :
    runSyscall abi k call tid s =
      ({ s with
          memory := overwrite (fun a ↦ if k.code a then overwrite s.memory (s.regs tid).rip
              (abi.opcode ++ (wordAt s.memory (s.regs tid).rip).drop 2) a else report.memory a)
            (s.regs tid).rip (wordAt s.memory (s.regs tid).rip)
          blocks := abi.execute call report.regs.rax s.blocks
          clock := s.clock + 1 }, abi.result report.regs.rax) := by
  have hgate : ¬(tid ∉ s.halted ∨ k.reaches (s.regs tid).rip = false) := by
    rw [hreach]
    rintro (hout | hfalse)
    · exact hout hhalted
    · cases hfalse
  have hcause' : report.cause ≠ .signal := by
    rw [hcause]
    exact StopCause.noConfusion
  have hawait := await_entered h hhalted
    (overwrite s.memory (s.regs tid).rip
      (abi.opcode ++ (wordAt s.memory (s.regs tid).rip).drop 2))
    (abi.load call (s.regs tid)) hcause'
  unfold runSyscall
  dsimp only
  rw [if_neg hgate, hsteps]
  unfold poke
  rw [hawait]
  dsimp only
  rw [if_pos hcause, if_pos hsignal, restore, if_pos hhalted]
  exact congrArg (·, _) (@setRegs_back s.regs { s with
    regs := Function.update s.regs tid report.regs
    memory := _
    blocks := _
    clock := _ } tid hhalted report.regs rfl)

/-- A syscall is executed, and the target is clean again. -/
theorem runSyscall_spec (hquiet : Quiet abi k s₀.regs) (hlawful : abi.Lawful) (h : Clean k s₀ s)
    (hhalted : tid ∈ s.halted) (call : Syscall) :
    Steady k s₀ s (runSyscall abi k call tid s).1 ∧
      ((k.reaches (s.regs tid).rip = false ∧ (runSyscall abi k call tid s).1.blocks = s.blocks ∧
          (runSyscall abi k call tid s).2 = -1) ∨
        (k.reaches (s.regs tid).rip = true ∧ ∃ report, k.steps s.clock call = .stopped report ∧
          (runSyscall abi k call tid s).1.blocks = abi.execute call report.regs.rax s.blocks ∧
          (runSyscall abi k call tid s).2 = abi.result report.regs.rax)) := by
  rcases Bool.eq_false_or_eq_true (k.reaches (s.regs tid).rip) with hreach | hreach
  · obtain ⟨report, hsteps, hcause, hsignal⟩ := hquiet.steps s.clock call
    rw [runSyscall_eq h hhalted hreach hsteps hcause hsignal]
    have hpatch : (abi.opcode ++ (wordAt s.memory (s.regs tid).rip).drop 2).length = 8 := by
      rw [List.length_append, hlawful.opcode, List.length_drop, length_wordAt]
    exact ⟨{ h with
      code := fun a ha ↦ (patch_restore hpatch ha).trans (h.code a ha)
      attached := rfl }, .inr ⟨hreach, report, hsteps, rfl, rfl⟩⟩
  · have hresult : runSyscall abi k call tid s = (s, -1) := if_pos (.inr hreach)
    rw [hresult]
    exact ⟨{ h with attached := rfl }, .inl ⟨hreach, rfl, rfl⟩⟩

/-- A call is made with the registers set back. -/
theorem runCall_eq (h : Clean k s₀ s) (hhalted : tid ∈ s.halted) {function : ℕ} {args : List ℕ}
    {memory : ℕ → UInt8}
    (hpoked : pokeWords k (abi.frame args (s.regs tid)).1 (abi.frame args (s.regs tid)).2 s =
      ({ s with memory := memory }, true))
    {report : StopReport} (hcalls : k.calls s.clock = .stopped report)
    (hcause : report.cause ≠ .signal) :
    runCall abi k function args tid s =
      ({ s with
          memory := fun a ↦ if k.code a then memory a else report.memory a
          taken := s.taken ++ [report.cause]
          clock := s.clock + 1 }, abi.callResult report.regs.rax) := by
  unfold runCall
  dsimp only
  rw [if_neg (not_not_intro hhalted), hpoked]
  dsimp only
  rw [hcalls, await_entered h hhalted memory (abi.enter function args (s.regs tid)) hcause]
  exact congrArg (·, _) (@setRegs_back s.regs { s with
    regs := Function.update s.regs tid report.regs
    memory := _
    taken := _
    clock := _ } tid hhalted report.regs rfl)

/-- A call is made, and the target is clean again. -/
theorem runCall_spec (hquiet : Quiet abi k s₀.regs) (hlawful : abi.Lawful) (h : Clean k s₀ s)
    (hhalted : tid ∈ s.halted) (function : ℕ) (args : List ℕ) :
    Steady k s₀ s (runCall abi k function args tid s).1 ∧
      (runCall abi k function args tid s).1.blocks = s.blocks := by
  have hframe : ∀ i < 8 * (abi.frame args (s.regs tid)).2.length,
      k.code ((abi.frame args (s.regs tid)).1 + i) = false := by
    rw [h.regs]
    exact hquiet.frames tid args
  obtain ⟨memory, hpoked, hcode⟩ := pokeWords_eq (hlawful.words args (s.regs tid)) hframe s
  have hclean : Clean k s₀ { s with memory := memory } :=
    { h with code := fun a ha ↦ (hcode a ha).trans (h.code a ha) }
  generalize hwritten : pokeWords k (abi.frame args (s.regs tid)).1 (abi.frame args (s.regs tid)).2 s
    = written at hpoked
  obtain ⟨s', ok⟩ := written
  cases hpoked
  cases ok with
  | false =>
    unfold runCall
    dsimp only
    rw [if_neg (not_not_intro hhalted), hwritten]
    exact ⟨{ hclean with attached := rfl }, rfl⟩
  | true =>
    obtain ⟨report, hcalls, hcause⟩ := hquiet.calls s.clock
    rw [runCall_eq h hhalted hwritten hcalls (by rw [hcause]; exact StopCause.noConfusion)]
    refine ⟨{ hclean with
      code := fun a ha ↦ (if_pos ha).trans (hclean.code a ha)
      taken := ?_
      attached := rfl }, rfl⟩
    intro cause hmem
    rcases List.mem_append.mp hmem with hbefore | hnow
    · exact h.taken cause hbefore
    · rw [List.mem_singleton.mp hnow]
      exact hcause

/-! ### The threads of the target -/

theorem Steady.trans {s' s'' : Injection} (h : Steady k s₀ s s') (h' : Steady k s₀ s' s'') :
    Steady k s₀ s s'' := { h' with attached := h'.attached.trans h.attached }

/-- A thread is seized, or left alone. -/
theorem seizeStop_spec (hquiet : Quiet abi k s₀.regs) (h : Clean k s₀ s) (tid : ℕ) :
    Clean k s₀ (seizeStop k tid s).1 ∧ (seizeStop k tid s).1.blocks = s.blocks ∧
      (seizeStop k tid s).1.attached =
        if (seizeStop k tid s).2 then insert tid s.attached else s.attached := by
  unfold seizeStop
  rcases hquiet.seizes tid with hrefused | hended | ⟨signal, hstopped⟩
  · rw [hrefused]
    exact ⟨h, rfl, rfl⟩
  · rw [hended]
    exact ⟨h, rfl, rfl⟩
  · rw [hstopped]
    dsimp only
    rw [halt_eq { s with attached := insert tid s.attached } h.held StopCause.noConfusion]
    refine ⟨{ h with halted := ?_ }, rfl, rfl⟩
    change insert tid s.halted = insert tid s.attached
    rw [h.halted]

/-- A thread is let go of. -/
theorem detach_spec (h : Clean k s₀ s) (tid : ℕ) :
    Clean k s₀ (detach s tid) ∧ (detach s tid).blocks = s.blocks ∧
      (detach s tid).attached = s.attached.erase tid := by
  unfold detach
  split_ifs with hhalted
  · rw [drop_eq { s with attached := s.attached.erase tid, halted := s.halted.erase tid } h.held tid]
    refine ⟨{ h with halted := ?_ }, rfl, rfl⟩
    change s.halted.erase tid = s.attached.erase tid
    rw [h.halted]
  · refine ⟨h, rfl, ?_⟩
    rw [h.halted] at hhalted
    exact (Finset.erase_eq_of_notMem hhalted).symm

/-- The siblings that are listed are those that were stopped. -/
theorem stopSiblings_spec (hquiet : Quiet abi k s₀.regs) (h : Clean k s₀ s) (pid : ℕ) :
    Clean k s₀ (stopSiblings k pid s).1 ∧ (stopSiblings k pid s).1.blocks = s.blocks ∧
      (stopSiblings k pid s).1.attached = s.attached ∪ (stopSiblings k pid s).2.toFinset := by
  suffices hfold : ∀ (tids : List ℕ) (p : Injection × List ℕ), Clean k s₀ p.1 →
      p.1.blocks = s.blocks → p.1.attached = s.attached ∪ p.2.toFinset →
      Clean k s₀ (tids.foldl (stopSibling k pid) p).1 ∧
        (tids.foldl (stopSibling k pid) p).1.blocks = s.blocks ∧
        (tids.foldl (stopSibling k pid) p).1.attached =
          s.attached ∪ (tids.foldl (stopSibling k pid) p).2.toFinset from
    hfold k.tasks (s, []) h rfl (Finset.union_empty _).symm
  intro tids
  induction tids with
  | nil => exact fun p hclean hblocks hattached ↦ ⟨hclean, hblocks, hattached⟩
  | cons tid rest ih =>
    intro p hclean hblocks hattached
    obtain ⟨hseized, hsame, hthreads⟩ := seizeStop_spec hquiet hclean tid
    rw [List.foldl_cons]
    unfold stopSibling
    split_ifs
    · exact ih p hclean hblocks hattached
    · generalize seizeStop k tid p.1 = result at hseized hsame hthreads
      obtain ⟨s', stopped⟩ := result
      cases stopped with
      | false => exact ih (s', p.2) hseized (hsame.trans hblocks) (hthreads.trans hattached)
      | true =>
        refine ih (s', p.2 ++ [tid]) hseized (hsame.trans hblocks) ?_
        rw [List.toFinset_append, ← Finset.union_assoc, ← hattached]
        exact hthreads.trans (Finset.insert_eq tid _ ▸ Finset.union_comm _ _)

/-- Every thread that is listed is let go of. -/
theorem releaseSiblings_spec (siblings : List ℕ) (h : Clean k s₀ s) :
    Clean k s₀ (releaseSiblings siblings s) ∧ (releaseSiblings siblings s).blocks = s.blocks ∧
      (releaseSiblings siblings s).attached = s.attached \ siblings.toFinset := by
  induction siblings generalizing s with
  | nil => exact ⟨h, rfl, (Finset.sdiff_empty).symm⟩
  | cons tid rest ih =>
    obtain ⟨hclean, hblocks, hattached⟩ := detach_spec h tid
    obtain ⟨hclean', hblocks', hattached'⟩ := ih hclean
    refine ⟨hclean', hblocks'.trans hblocks, hattached'.trans ?_⟩
    rw [hattached, List.toFinset_cons]
    ext other
    simp only [Finset.mem_sdiff, Finset.mem_erase, Finset.mem_insert]
    tauto

/-- The hijacked thread is one that is stopped. -/
theorem hijacked_mem (hpid : pid ∈ s.halted) (siblings : List ℕ) :
    hijacked abi k pid siblings s ∈ s.halted := by
  unfold hijacked
  split_ifs with hmain
  · exact hpid
  · cases hfound : siblings.find? (inUserspace abi k s) with
    | none => exact hpid
    | some tid =>
      have huser := List.find?_some hfound
      unfold inUserspace at huser
      rw [Bool.and_eq_true, Bool.and_eq_true] at huser
      exact of_decide_eq_true huser.1.1

/-! ### Libraries -/

/-- The words of a path stay in the memory that is mapped for it. -/
theorem pathWords_fit (path : Text) : 8 * (pathWords path).length ≤ allocSize path := by
  unfold pathWords allocSize
  dsimp only
  rw [List.length_map, List.length_range, List.length_append, List.length_map, List.length_singleton]
  omega

theorem length_of_mem_pathWords {path : Text} {word : List UInt8} (h : word ∈ pathWords path) :
    word.length = 8 := by
  obtain ⟨i, -, rfl⟩ := List.mem_map.mp h
  rw [List.length_append, List.length_replicate, List.length_take]
  omega

/-- The size of a mapping is its second argument. -/
theorem getD_mmapArgs (size : ℕ) :
    ([0, size, 3, 0x22, sizeModulus - 1, 0] : List ℕ).getD 1 0 = size := rfl

/-- The scratch memory is mapped. -/
theorem execute_mmap (abi : Abi) (args : List ℕ) (rax : ℕ) :
    abi.execute ⟨abi.mmap, args⟩ rax [] =
      ((abi.address? rax).map fun address ↦ (address, args.getD 1 0)).toList := by
  rw [Abi.execute, if_pos rfl]
  cases abi.address? rax with
  | none => rfl
  | some address => rfl

/-- The scratch memory is unmapped. -/
theorem munmap_spec (hquiet : Quiet abi k s₀.regs) (hlawful : abi.Lawful) (h : Clean k s₀ s)
    (hhalted : tid ∈ s.halted) (hreach : k.reaches (s.regs tid).rip = true) {address size : ℕ}
    (hblocks : s.blocks.erase (address, size) = []) :
    Steady k s₀ s (runSyscall abi k ⟨abi.munmap, [address, size, 0, 0, 0, 0]⟩ tid s).1 ∧
      (runSyscall abi k ⟨abi.munmap, [address, size, 0, 0, 0, 0]⟩ tid s).1.blocks = [] := by
  obtain ⟨hsteady, ⟨hout, -⟩ | ⟨-, report, hsteps, hexecuted, -⟩⟩ :=
    runSyscall_spec hquiet hlawful h hhalted ⟨abi.munmap, [address, size, 0, 0, 0, 0]⟩
  · rw [hreach] at hout
    cases hout
  · refine ⟨hsteady, hexecuted.trans ?_⟩
    rw [Abi.execute, if_neg hlawful.distinct,
      if_pos ⟨rfl, hquiet.unmaps s.clock _ report rfl hsteps⟩]
    exact hblocks

/-- An attempt leaves nothing behind. -/
theorem tryPath_spec (hquiet : Quiet abi k s₀.regs) (hlawful : abi.Lawful) (h : Clean k s₀ s)
    (hhalted : tid ∈ s.halted) (hblocks : s.blocks = []) (dlopenAddr flags : ℕ) (path : Text) :
    Steady k s₀ s (tryPath abi k dlopenAddr flags tid path s).1 ∧
      (tryPath abi k dlopenAddr flags tid path s).1.blocks = [] := by
  unfold tryPath
  obtain ⟨args, hargs, hsize⟩ : ∃ args : List ℕ,
      args = [0, allocSize path, 3, 0x22, sizeModulus - 1, 0] ∧ args.getD 1 0 = allocSize path :=
    ⟨_, rfl, getD_mmapArgs (allocSize path)⟩
  rw [← hargs]
  obtain ⟨hsteady, hcases⟩ := runSyscall_spec hquiet hlawful h hhalted ⟨abi.mmap, args⟩
  generalize runSyscall abi k ⟨abi.mmap, args⟩ tid s = allocated at hsteady hcases
  obtain ⟨mapped, raw⟩ := allocated
  dsimp only at hsteady hcases ⊢
  rcases hcases with ⟨-, hsame, rfl⟩ | ⟨hreach, report, hsteps, hexecuted, rfl⟩
  · rw [if_pos hlawful.failed]
    exact ⟨hsteady, hsame.trans hblocks⟩
  have hexecute : mapped.blocks =
      ((abi.address? report.regs.rax).map fun address ↦ (address, allocSize path)).toList := by
    rw [hexecuted, hblocks, execute_mmap, hsize]
  split_ifs with hrejected
  · refine ⟨hsteady, hexecute.trans ?_⟩
    cases haddress : abi.address? report.regs.rax with
    | none => rfl
    | some address =>
      rw [(hlawful.mapped _ _ haddress).1] at hrejected
      cases hrejected
  · have hrejected := Bool.eq_false_iff.mpr hrejected
    have herase : mapped.blocks.erase ((abi.result report.regs.rax).toNat, allocSize path) = [] := by
      rw [hexecute]
      cases haddress : abi.address? report.regs.rax with
      | none => rfl
      | some address =>
        rw [(hlawful.mapped _ _ haddress).2]
        exact List.erase_cons_head _ _
    have hfree : ∀ i < 8 * (pathWords path).length,
        k.code ((abi.result report.regs.rax).toNat + i) = false := fun i hi ↦
      hquiet.mappings s.clock ⟨abi.mmap, args⟩ report rfl hsteps hrejected i
        (hsize.symm ▸ hi.trans_le (pathWords_fit path))
    obtain ⟨memory, hpoked, hcode⟩ :=
      pokeWords_eq (fun _ hword ↦ length_of_mem_pathWords hword) hfree mapped
    have hclean : Steady k s₀ s { mapped with memory := memory } :=
      { hsteady with code := fun a ha ↦ (hcode a ha).trans (hsteady.code a ha) }
    have hrip : ∀ {s' : Injection}, Steady k s₀ s s' → k.reaches (s'.regs tid).rip = true := by
      intro s' hs'
      rw [hs'.regs, ← h.regs]
      exact hreach
    have hstopped : ∀ {s' : Injection}, Steady k s₀ s s' → tid ∈ s'.halted := by
      intro s' hs'
      rw [hs'.halted, hs'.attached, ← h.halted]
      exact hhalted
    generalize pokeWords k (abi.result report.regs.rax).toNat (pathWords path) mapped = written
      at hpoked
    obtain ⟨s', ok⟩ := written
    cases hpoked
    cases ok with
    | false =>
      obtain ⟨hunmap, hnone⟩ := munmap_spec hquiet hlawful hclean.toClean (hstopped hclean)
        (hrip hclean) herase
      exact ⟨hclean.trans hunmap, hnone⟩
    | true =>
      obtain ⟨hcall, hkept⟩ := runCall_spec hquiet hlawful hclean.toClean (hstopped hclean)
        dlopenAddr [(abi.result report.regs.rax).toNat, flags]
      have hcalled := hclean.trans hcall
      obtain ⟨hunmap, hnone⟩ := munmap_spec hquiet hlawful hcall.toClean (hstopped hcalled)
        (hrip hcalled) (hkept.symm ▸ herase)
      exact ⟨hcalled.trans hunmap, hnone⟩

/-- So does every row of attempts. -/
theorem tryPaths_spec (hquiet : Quiet abi k s₀.regs) (hlawful : abi.Lawful) (paths : List Text)
    {lastError : Text} (h : Clean k s₀ s) (hhalted : tid ∈ s.halted) (hblocks : s.blocks = [])
    (dlopenAddr flags : ℕ) :
    Steady k s₀ s (tryPaths abi k dlopenAddr flags tid paths lastError s).1 ∧
      (tryPaths abi k dlopenAddr flags tid paths lastError s).1.blocks = [] := by
  induction paths generalizing lastError s with
  | nil => exact ⟨{ h with attached := rfl }, hblocks⟩
  | cons path rest ih =>
    obtain ⟨hsteady, hnone⟩ := tryPath_spec hquiet hlawful h hhalted hblocks dlopenAddr flags path
    unfold tryPaths
    generalize tryPath abi k dlopenAddr flags tid path s = tried at hsteady hnone
    obtain ⟨s', attempt⟩ := tried
    cases attempt with
    | loaded handle => exact ⟨hsteady, hnone⟩
    | stop error => exact ⟨hsteady, hnone⟩
    | next error =>
      have hstopped : tid ∈ s'.halted := by
        rw [hsteady.halted, hsteady.attached, ← h.halted]
        exact hhalted
      obtain ⟨hrest, hnone'⟩ := @ih s' error hsteady.toClean hstopped hnone
      exact ⟨hsteady.trans hrest, hnone'⟩

/-! ### Injections -/

theorem clean_new (k : InjectorKernel) (regs : ℕ → UserRegs) (memory : ℕ → UInt8) :
    Clean k (new regs memory) (new regs memory) where
  regs := rfl
  held := fun _ ↦ rfl
  lost := rfl
  code := fun _ _ ↦ rfl
  taken := fun _ hcause ↦ nomatch hcause
  halted := rfl

/-- A clean target with no thread stopped and no scratch memory is as it was found. -/
theorem Clean.transparent (h : Clean k s₀ s) (hattached : s.attached = ∅) (hblocks : s.blocks = []) :
    Transparent k s₀ s :=
  { h with detached := hattached, delivered := h.lost, unmapped := hblocks }

/-- The main thread and its siblings are let go of. -/
theorem sdiff_stopped (pid : ℕ) (siblings : List ℕ) :
    (insert pid (∅ : Finset ℕ) ∪ siblings.toFinset).erase pid \ siblings.toFinset = ∅ := by
  ext tid
  simp only [Finset.mem_sdiff, Finset.mem_erase, Finset.mem_union, Finset.mem_insert,
    Finset.notMem_empty]
  tauto

theorem injectWith_transparent {memory : ℕ → UInt8} (hquiet : Quiet abi k regs)
    (hlawful : abi.Lawful) (pid : ℕ) (soPath : Text) :
    Transparent k (new regs memory) (injectWith abi k pid soPath (new regs memory)).1 := by
  have hnew := clean_new k regs memory
  have huntouched := hnew.transparent rfl rfl
  unfold injectWith
  split_ifs
  · exact huntouched
  · exact huntouched
  obtain ⟨hseized, hnone, hattached⟩ := seizeStop_spec hquiet hnew pid
  generalize seizeStop k pid (new regs memory) = seized at hseized hnone hattached
  obtain ⟨s₁, stopped⟩ := seized
  cases stopped with
  | false => exact hseized.transparent hattached hnone
  | true =>
    obtain ⟨hquieted, hnone₂, hthreads⟩ := stopSiblings_spec hquiet hseized pid
    dsimp only at hattached hnone ⊢
    generalize stopSiblings k pid s₁ = quieted at hquieted hnone₂ hthreads
    obtain ⟨s₂, siblings⟩ := quieted
    dsimp only at hquieted hnone₂ hthreads ⊢
    have hpid : pid ∈ s₂.halted := by
      rw [hquieted.halted, hthreads, hattached]
      exact Finset.mem_union_left _ (Finset.mem_insert_self _ _)
    obtain ⟨htried, hnone₃⟩ := tryPaths_spec hquiet hlawful (injectPathCandidates k soPath)
      hquieted (hijacked_mem hpid siblings) (hnone₂.trans hnone) (dlopenOf k).1 (dlopenOf k).2
    obtain ⟨hdetached, hnone₄, hleft⟩ := detach_spec htried.toClean pid
    obtain ⟨hreleased, hnone₅, hempty⟩ := releaseSiblings_spec siblings hdetached
    refine hreleased.transparent (hempty.trans ?_) (hnone₅.trans (hnone₄.trans hnone₃))
    rw [hleft, htried.attached, hthreads, hattached]
    exact sdiff_stopped pid siblings

/-! ### Threads -/

/-- The join calls leave the target clean, however many there are. -/
theorem tryJoin_spec (hquiet : Quiet abi64 k s₀.regs) {function handle turns : ℕ} {after : Injection}
    {completed : Bool} (h : Clean k s₀ s) (hhalted : tid ∈ s.halted)
    (hjoin : tryJoin k function handle tid turns s = some (after, completed)) :
    Steady k s₀ s after ∧ after.blocks = s.blocks := by
  induction turns generalizing s with
  | zero => cases hjoin
  | succ turns ih =>
    obtain ⟨hcall, hkept⟩ := runCall_spec hquiet lawful_abi64 h hhalted function [handle, 0]
    unfold tryJoin remoteCall at hjoin
    generalize runCall abi64 k function [handle, 0] tid s = called at hcall hkept hjoin
    obtain ⟨s', joinResult⟩ := called
    dsimp only at hcall hkept hjoin
    split_ifs at hjoin
    · cases hjoin
      exact ⟨hcall, hkept⟩
    · cases hjoin
      exact ⟨hcall, hkept⟩
    · cases hjoin
      exact ⟨hcall, hkept⟩
    · have hlater : Steady k s₀ s { s' with clock := s'.clock + 1 } := { hcall with }
      have hstopped : tid ∈ s'.halted := by
        rw [hcall.halted, hcall.attached, ← h.halted]
        exact hhalted
      obtain ⟨hrest, hkept'⟩ := ih hlater.toClean hstopped hjoin
      exact ⟨hlater.trans hrest, hkept'.trans hkept⟩

theorem finishThread_spec (hquiet : Quiet abi64 k s₀.regs) {waitForCompletion : Bool}
    {turns handle : ℕ} {after : Injection} {completed : Bool} (h : Clean k s₀ s)
    (hhalted : tid ∈ s.halted)
    (hfinish : finishThread k waitForCompletion turns handle tid s = some (after, completed)) :
    Steady k s₀ s after ∧ after.blocks = s.blocks := by
  unfold finishThread at hfinish
  split_ifs at hfinish
  · exact tryJoin_spec hquiet h hhalted hfinish
  · cases hfinish
    exact runCall_spec hquiet lawful_abi64 h hhalted _ _
  · cases hfinish
    exact ⟨{ h with attached := rfl }, rfl⟩
  · cases hfinish
    exact runCall_spec hquiet lawful_abi64 h hhalted _ _
  · cases hfinish
    exact ⟨{ h with attached := rfl }, rfl⟩

/-- The storage for the handle is freed. -/
theorem freeStorage_spec (hfrees : ∀ clock, k.frees clock = true) (h : Clean k s₀ s) {storage : ℕ}
    (hblocks : s.blocks = [(storage, 4096)]) :
    Steady k s₀ s (freeStorage k storage s) ∧ (freeStorage k storage s).blocks = [] := by
  rw [freeStorage, if_pos (hfrees s.clock)]
  refine ⟨{ h with attached := rfl }, ?_⟩
  change s.blocks.erase (storage, 4096) = []
  rw [hblocks]
  exact List.erase_cons_head _ _

theorem release_spec (hfrees : ∀ clock, k.frees clock = true) (h : Clean k s₀ s) {storage : ℕ}
    {siblings : List ℕ} (hblocks : s.blocks = [(storage, 4096)])
    (hattached : s.attached = insert pid ∅ ∪ siblings.toFinset) :
    Transparent k s₀ (release k pid storage siblings s) := by
  obtain ⟨hdetached, hsame, hleft⟩ := detach_spec h pid
  obtain ⟨hfreed, hnone⟩ := freeStorage_spec hfrees hdetached (hsame.trans hblocks)
  obtain ⟨hreleased, hnone', hempty⟩ := releaseSiblings_spec siblings hfreed.toClean
  refine hreleased.transparent (hempty.trans ?_) (hnone'.trans hnone)
  rw [hfreed.attached, hleft, hattached]
  exact sdiff_stopped pid siblings

theorem createStopped_transparent (hquiet : Quiet abi64 k s₀.regs)
    (hfrees : ∀ clock, k.frees clock = true) (h : Clean k s₀ s) {storage : ℕ} {siblings : List ℕ}
    (hblocks : s.blocks = [(storage, 4096)])
    (hattached : s.attached = insert pid ∅ ∪ siblings.toFinset) {entryPoint turns : ℕ}
    {waitForCompletion : Bool} {after : Injection} {result : Except Text RemoteThreadInfo}
    (hcreate : createStopped k pid entryPoint storage siblings waitForCompletion turns s =
      some (after, result)) :
    Transparent k s₀ after := by
  have hpid : pid ∈ s.halted := by
    rw [h.halted, hattached]
    exact Finset.mem_union_left _ (Finset.mem_insert_self _ _)
  have hhijacked := @hijacked_mem abi64 k s pid hpid siblings
  obtain ⟨hcall, hkept⟩ := runCall_spec hquiet lawful_abi64 h hhijacked (pthreadCreate k)
    [storage, 0, entryPoint, 0]
  unfold createStopped remoteCall at hcreate
  dsimp only at hcreate
  generalize hijacked abi64 k pid siblings s = tid at hhijacked hcall hkept hcreate
  generalize runCall abi64 k (pthreadCreate k) [storage, 0, entryPoint, 0] tid s = called
    at hcall hkept hcreate
  obtain ⟨s', createResult⟩ := called
  dsimp only at hcall hkept hcreate
  have hreleased : Transparent k s₀ (release k pid storage siblings s') :=
    release_spec hfrees hcall.toClean (hkept.trans hblocks) (hcall.attached.trans hattached)
  split_ifs at hcreate
  · cases hcreate
    exact hreleased
  · cases hcreate
    exact hreleased
  · obtain ⟨⟨finished, completed⟩, hfinish, hafter⟩ := Option.map_eq_some_iff.mp hcreate
    cases hafter
    have hstopped : tid ∈ s'.halted := by
      rw [hcall.halted, hcall.attached, ← h.halted]
      exact hhijacked
    obtain ⟨hsteady, hsame⟩ := finishThread_spec hquiet hcall.toClean hstopped hfinish
    exact release_spec hfrees hsteady.toClean (hsame.trans (hkept.trans hblocks))
      (hsteady.attached.trans (hcall.attached.trans hattached))

theorem createRemoteThread_transparent {memory : ℕ → UInt8} (hquiet : Quiet abi64 k regs)
    (hfrees : ∀ clock, k.frees clock = true) {is64bit waitForCompletion : Bool}
    {pid entryPoint turns : ℕ} {after : Injection} {result : Except Text RemoteThreadInfo}
    (hcreate : createRemoteThread k is64bit pid entryPoint waitForCompletion turns
      (new regs memory) = some (after, result)) :
    Transparent k (new regs memory) after := by
  have hnew := clean_new k regs memory
  unfold createRemoteThread at hcreate
  split_ifs at hcreate
  · cases hcreate
    exact hnew.transparent rfl rfl
  · cases hcreate
    exact hnew.transparent rfl rfl
  · cases hcreate
    exact hnew.transparent rfl rfl
  unfold allocateStorage at hcreate
  cases hallocates : k.allocates (new regs memory).clock with
  | error error =>
    rw [hallocates] at hcreate
    cases hcreate
    exact Clean.transparent { hnew with } rfl rfl
  | ok storage =>
    rw [hallocates] at hcreate
    have hallocated : Clean k (new regs memory)
        { new regs memory with
          clock := (new regs memory).clock + 1
          blocks := (new regs memory).blocks ++ [(storage, 4096)] } := { hnew with }
    obtain ⟨hseized, hblocks, hattached⟩ := seizeStop_spec hquiet hallocated pid
    dsimp only at hcreate
    generalize seizeStop k pid { new regs memory with
      clock := (new regs memory).clock + 1
      blocks := (new regs memory).blocks ++ [(storage, 4096)] } = seized
      at hseized hblocks hattached hcreate
    obtain ⟨s₁, stopped⟩ := seized
    cases stopped with
    | false =>
      cases hcreate
      obtain ⟨hfreed, hnone⟩ := freeStorage_spec hfrees hseized hblocks
      exact hfreed.toClean.transparent (hfreed.attached.trans hattached) hnone
    | true =>
      obtain ⟨hquieted, hsame, hthreads⟩ := stopSiblings_spec hquiet hseized pid
      dsimp only at hattached hblocks hcreate
      generalize stopSiblings k pid s₁ = quieted at hquieted hsame hthreads hcreate
      obtain ⟨s₂, siblings⟩ := quieted
      refine createStopped_transparent hquiet hfrees hquieted (hsame.trans hblocks) ?_ hcreate
      exact hthreads.trans (congrArg (· ∪ siblings.toFinset) hattached)

/-- Injections are transparent for as long as every stop is the one that is waited for. -/
theorem injections_transparent (k : InjectorKernel) (regs : ℕ → UserRegs) (memory : ℕ → UInt8)
    (pid : ℕ) :
    (Quiet abi64 k regs → ∀ soPath,
      Transparent k (new regs memory) (injectLibrary true k pid soPath (new regs memory)).1) ∧
    (Quiet abi32 k regs → ∀ soPath,
      Transparent k (new regs memory) (injectLibrary false k pid soPath (new regs memory)).1 ∧
      Transparent k (new regs memory) (injectLibrary32 k pid soPath (new regs memory)).1) ∧
    (Quiet abi64 k regs → (∀ clock, k.frees clock = true) →
      ∀ is64bit entryPoint waitForCompletion turns after result,
        createRemoteThread k is64bit pid entryPoint waitForCompletion turns (new regs memory) =
          some (after, result) →
        Transparent k (new regs memory) after) := by
  refine ⟨?_, ?_, ?_⟩
  · intro hquiet soPath
    exact injectWith_transparent hquiet lawful_abi64 pid soPath
  · intro hquiet soPath
    have h := @injectWith_transparent abi32 k regs memory hquiet lawful_abi32 pid soPath
    exact ⟨h, h⟩
  · intro hquiet hfrees is64bit entryPoint waitForCompletion turns after result hcreate
    exact createRemoteThread_transparent hquiet hfrees hcreate

/-- The registers of a thread in the code of the target. -/
def threadRegs : UserRegs where
  rax := 0
  rbx := 0
  rcx := 0
  rdx := 0
  rsi := 0
  rdi := 0
  rbp := 0
  rsp := 0x7fff0000
  r8 := 0
  r9 := 0
  r10 := 0
  rip := 0x1000
  origRax := 0
  others := 0

/-- A target of two threads that can open every path, whose calls stop for a cause with `rax`. -/
def sampleKernel (cause : StopCause) (signal rax : ℕ) : InjectorKernel where
  lookup := fun name ↦ if name = "dlopen".toList then 0x7000
    else if name = "pthread_create".toList then 0x7100 else 0
  seizes := fun _ ↦ .stopped .interrupt sigtrap
  seizeError := []
  tasks := [10, 11]
  reaches := fun _ ↦ true
  code := fun a ↦ decide (0x1000 ≤ a ∧ a < 0x2000)
  steps := fun _ call ↦ .stopped ⟨.trap, sigtrap,
    { threadRegs with rax := if call.nr = abi64.mmap ∨ call.nr = abi32.mmap then 0x500000 else 0 },
    fun _ ↦ 0⟩
  calls := fun _ ↦ .stopped ⟨cause, signal, { threadRegs with rax := rax }, fun _ ↦ 0⟩
  accesses := fun _ ↦ true
  ownPid := 1
  mapped := fun _ _ ↦ true
  allocates := fun _ ↦ .ok 0x400000
  frees := fun _ ↦ true
  reads := fun _ ↦ 0x6000
  late := fun _ ↦ true

/-- What is far above the code is not in it. -/
theorem sampleKernel_code {cause : StopCause} {signal rax a : ℕ} (h : 0x2000 ≤ a) :
    (sampleKernel cause signal rax).code a = false := decide_eq_false (by omega)

theorem quiet_sampleKernel {abi : Abi} (signal rax : ℕ) (hunmaps : abi.munmap ≠ abi64.mmap)
    (hunmaps' : abi.munmap ≠ abi32.mmap) (hmaps : abi.mmap = abi64.mmap ∨ abi.mmap = abi32.mmap)
    (hresult : abi.result 0x500000 = 0x500000)
    (hframes : ∀ args, 0x2000 ≤ (abi.frame args threadRegs).1) :
    Quiet abi (sampleKernel .poison signal rax) fun _ ↦ threadRegs where
  seizes := fun _ ↦ .inr (.inr ⟨_, rfl⟩)
  steps := fun _ _ ↦ ⟨_, rfl, rfl, rfl⟩
  calls := fun _ ↦ ⟨_, rfl, rfl⟩
  unmaps := by
    intro _ call report hcall hsteps
    cases hsteps
    refine if_neg ?_
    rw [hcall]
    rintro (h | h)
    · exact hunmaps h
    · exact hunmaps' h
  frames := fun _ args i _ ↦ sampleKernel_code (Nat.le_add_right_of_le (hframes args))
  mappings := by
    intro _ call report hcall hsteps _ i _
    cases hsteps
    dsimp only
    rw [if_pos (hcall ▸ hmaps), hresult]
    exact sampleKernel_code (Nat.le_add_right_of_le (by decide))

/-- Libraries are injected, and a thread is created. -/
theorem injections_transparent_sample :
    (∀ is64bit, Transparent (sampleKernel .poison 11 0x6000) (new (fun _ ↦ threadRegs) fun _ ↦ 0)
      (injectLibrary is64bit (sampleKernel .poison 11 0x6000) 10 "/a.so".toList
        (new (fun _ ↦ threadRegs) fun _ ↦ 0)).1) ∧
    ∃ after, createRemoteThread (sampleKernel .poison 11 0) true 10 0x1800 false 0
        (new (fun _ ↦ threadRegs) fun _ ↦ 0) = some (after, .ok ⟨0x6000, false⟩) ∧
      Transparent (sampleKernel .poison 11 0) (new (fun _ ↦ threadRegs) fun _ ↦ 0) after := by
  have hquiet64 : ∀ rax, Quiet abi64 (sampleKernel .poison 11 rax) fun _ ↦ threadRegs := fun rax ↦
    quiet_sampleKernel 11 rax (by decide) (by decide) (.inl rfl) (by decide) fun _ ↦
      show 0x2000 ≤ returnAddrSlot threadRegs.rsp by decide
  have hquiet32 : Quiet abi32 (sampleKernel .poison 11 0x6000) fun _ ↦ threadRegs :=
    quiet_sampleKernel 11 _ (by decide) (by decide) (.inr rfl) (by decide) fun _ ↦
      show 0x2000 ≤ frame32 threadRegs.rsp by decide
  obtain ⟨h64, h32, -⟩ := injections_transparent (sampleKernel .poison 11 0x6000)
    (fun _ ↦ threadRegs) (fun _ ↦ 0) 10
  obtain ⟨-, -, hthread⟩ := injections_transparent (sampleKernel .poison 11 0)
    (fun _ ↦ threadRegs) (fun _ ↦ 0) 10
  refine ⟨fun is64bit ↦ ?_, _, rfl, ?_⟩
  · cases is64bit with
    | false => exact (h32 hquiet32 _).1
    | true => exact h64 (hquiet64 _) _
  · exact hthread (hquiet64 0) (fun _ ↦ rfl) true 0x1800 false 0 _ _ rfl

/-- A signal of the target stops the call to `dlopen`: it is taken for the return, and lost. -/
theorem signal_taken_for_return :
    (injectLibrary true (sampleKernel .signal 12 0x6000) 10 "/a.so".toList
        (new (fun _ ↦ threadRegs) fun _ ↦ 0)).1.taken = [.signal] ∧
      (injectLibrary true (sampleKernel .signal 12 0x6000) 10 "/a.so".toList
        (new (fun _ ↦ threadRegs) fun _ ↦ 0)).1.lost = [12] ∧
      ¬∀ k regs memory pid soPath,
        Transparent k (new regs memory) (injectLibrary true k pid soPath (new regs memory)).1 := by
  have htaken : (injectLibrary true (sampleKernel .signal 12 0x6000) 10 "/a.so".toList
      (new (fun _ ↦ threadRegs) fun _ ↦ 0)).1.taken = [.signal] := by decide
  refine ⟨htaken, by decide, ?_⟩
  intro hall
  have hpoison := (hall (sampleKernel .signal 12 0x6000) (fun _ ↦ threadRegs) (fun _ ↦ 0) 10
    "/a.so".toList).taken .signal (htaken ▸ List.mem_cons_self)
  cases hpoison

end Injection

end Cecore.Platform.Injector
