import Cecore.Platform.Target

/-!
# Blocks that were allocated

The calls made on a target say which blocks are allocated: those that an `allocate` returned and no
accepted `free` gave back. While they are mapped and apart from each other (`Intact`), a new block
has a new address, and freeing one leaves the others alone.
-/

set_option autoImplicit false
set_option relaxedAutoImplicit false

namespace Cecore.Platform

/-- The block that a call allocated. -/
def Event.allocated : Event → Option (ℕ × ℕ)
  | .allocate (some address) size => some (address, size)
  | .allocate none _ | .free _ _ _ | .protect _ _ | .write _ _ | .foreign => none

/-- The address whose block a call frees. -/
def Event.freed : Event → Option ℕ
  | .free address _ _ => some address
  | .allocate _ _ | .protect _ _ | .write _ _ | .foreign => none

namespace Target

/-- The blocks allocated after one more call. -/
def blocksAfter (blocks : List (ℕ × ℕ)) : Event → List (ℕ × ℕ)
  | .allocate (some address) size => blocks ++ [(address, size)]
  | .free address _ true => blocks.filter fun block ↦ block.1 ≠ address
  | .allocate none _ | .free _ _ false | .protect _ _ | .write _ _ | .foreign => blocks

/-- The blocks that a list of calls has allocated and not freed. -/
def liveBlocks (events : List Event) : List (ℕ × ℕ) := events.foldl blocksAfter []

theorem liveBlocks_concat (events : List Event) (event : Event) :
    liveBlocks (events ++ [event]) = blocksAfter (liveBlocks events) event := by
  simp [liveBlocks]

/-- How many calls free the block at `address`. -/
def freeCount (events : List Event) (address : ℕ) : ℕ :=
  events.countP fun event ↦ event.freed = some address

/-- The calls made between `before` and `after`. -/
def since (before after : Target) : List Event := after.events.drop before.events.length

theorem since_eq {before after : Target} {added : List Event}
    (h : after.events = before.events ++ added) : since before after = added := by
  rw [since, h, List.drop_left]

/-- Some call gave up the address. -/
def GivenUp (events : List Event) (x : ℕ) : Prop :=
  ∃ address size, Event.free address size true ∈ events ∧ InBlock address size x

theorem GivenUp.append_left {first : List Event} {x : ℕ} (h : GivenUp first x)
    (second : List Event) : GivenUp (first ++ second) x := by
  obtain ⟨address, size, hevent, hx⟩ := h
  exact ⟨address, size, List.mem_append_left _ hevent, hx⟩

/-- Every `free` was of a block that was allocated at that time. -/
def NoDoubleFree (events : List Event) : Prop :=
  ∀ before after address size accepted,
    events = before ++ .free address size accepted :: after →
      address ∈ (liveBlocks before).map Prod.fst

theorem noDoubleFree_nil : NoDoubleFree [] := by
  intro before after address size accepted hsplit
  simp at hsplit

/-- One more call, of a block that is allocated if it frees one. -/
theorem NoDoubleFree.concat {events : List Event} (h : NoDoubleFree events) {event : Event}
    (hfree : ∀ address size accepted, event = .free address size accepted →
      address ∈ (liveBlocks events).map Prod.fst) : NoDoubleFree (events ++ [event]) := by
  intro before after address size accepted hsplit
  rcases List.eq_nil_or_concat after with hafter | ⟨rest, last, hafter⟩
  · rw [hafter] at hsplit
    obtain ⟨hevents, hevent⟩ := List.append_inj' hsplit rfl
    rw [← hevents]
    exact hfree address size accepted (List.cons.inj hevent).1
  · rw [hafter, List.concat_eq_append, ← List.cons_append, ← List.append_assoc] at hsplit
    exact h before rest address size accepted (List.append_inj' hsplit rfl).1

/-- The live blocks are mapped and apart from each other. -/
structure Intact (t : Target) : Prop where
  mapped : ∀ block ∈ liveBlocks t.events,
    0 < pageAlign block.2 ∧ ∀ x, InBlock block.1 block.2 x → (t.memory x).isSome
  apart : ∀ block ∈ liveBlocks t.events, ∀ other ∈ liveBlocks t.events, block ≠ other →
    ∀ x, InBlock block.1 block.2 x → ¬InBlock other.1 other.2 x

section Blocks

variable {t after : Target} {kernel : Kernel} {address size : ℕ}

/-- Calls that allocate nothing and unmap nothing. -/
theorem Intact.of_mapped (h : t.Intact) (hblocks : liveBlocks after.events = liveBlocks t.events)
    (hmapped : ∀ x, (t.memory x).isSome → (after.memory x).isSome) : after.Intact where
  mapped block hblock := by
    obtain ⟨hsize, hbytes⟩ := h.mapped block (hblocks ▸ hblock)
    exact ⟨hsize, fun x hx ↦ hmapped x (hbytes x hx)⟩
  apart block hblock other hother := h.apart block (hblocks ▸ hblock) other (hblocks ▸ hother)

theorem liveBlocks_allocate {preferred : ℕ}
    (hcall : t.allocate kernel size preferred = (.ok address, after)) :
    liveBlocks after.events = liveBlocks t.events ++ [(address, size)] := by
  unfold allocate at hcall
  cases hmmap : kernel.mmap t size preferred with
  | error message => simp [hmmap] at hcall
  | ok base =>
    simp only [hmmap, Prod.mk.injEq, Except.ok.injEq] at hcall
    rw [← hcall.2, liveBlocks_concat, hcall.1]
    rfl

/-- A new block is mapped, and lies where nothing was mapped. -/
theorem memory_allocate {preferred : ℕ}
    (hcall : t.allocate kernel size preferred = (.ok address, after)) :
    0 < address ∧ 0 < pageAlign size ∧ (∀ x, InBlock address size x → t.memory x = none) ∧
      ∀ x, after.memory x = if InBlock address size x then some 0 else t.memory x := by
  unfold allocate at hcall
  cases hmmap : kernel.mmap t size preferred with
  | error message => simp [hmmap] at hcall
  | ok base =>
    simp only [hmmap, Prod.mk.injEq, Except.ok.injEq] at hcall
    obtain ⟨hpos, hsize, hfresh⟩ := kernel.mmap_fresh t size preferred base hmmap
    obtain ⟨hbase, hafter⟩ := hcall
    subst hbase hafter
    exact ⟨hpos, hsize, hfresh, fun _ ↦ rfl⟩

theorem Intact.allocate {preferred : ℕ} (h : t.Intact)
    (hcall : t.allocate kernel size preferred = (.ok address, after)) : after.Intact := by
  have hblocks := liveBlocks_allocate hcall
  obtain ⟨-, hsize, hfresh, hmemory⟩ := memory_allocate hcall
  have hmapped : ∀ block ∈ liveBlocks t.events, ∀ x, InBlock block.1 block.2 x →
      ¬InBlock address size x := by
    intro block hblock x hx hnew
    have hsome := (h.mapped block hblock).2 x hx
    rw [hfresh x hnew] at hsome
    cases hsome
  refine ⟨fun block hblock ↦ ?_, fun block hblock other hother hne x hx ↦ ?_⟩
  · rw [hblocks, List.mem_append, List.mem_singleton] at hblock
    rcases hblock with hold | hnew
    · refine ⟨(h.mapped block hold).1, fun x hx ↦ ?_⟩
      rw [hmemory, if_neg (hmapped block hold x hx)]
      exact (h.mapped block hold).2 x hx
    · rw [hnew]
      refine ⟨hsize, fun x hx ↦ ?_⟩
      rw [hmemory, if_pos hx]
      rfl
  · rw [hblocks, List.mem_append, List.mem_singleton] at hblock hother
    rcases hblock with hold | hnew <;> rcases hother with hold' | hnew'
    · exact h.apart block hold other hold' hne x hx
    · rw [hnew']
      exact hmapped block hold x hx
    · rw [hnew] at hx
      exact fun hother ↦ hmapped other hold' x hother hx
    · exact absurd (hnew.trans hnew'.symm) hne

/-- No live block has the address of a new one. -/
theorem Intact.ne_of_allocate {preferred : ℕ} (h : t.Intact)
    (hcall : t.allocate kernel size preferred = (.ok address, after))
    {block : ℕ × ℕ} (hblock : block ∈ liveBlocks t.events) : block.1 ≠ address := by
  intro hsame
  obtain ⟨-, hsize, hfresh, -⟩ := memory_allocate hcall
  obtain ⟨hblockSize, hbytes⟩ := h.mapped block hblock
  have hsome := hbytes address ⟨by omega, by omega⟩
  rw [hfresh address ⟨le_rfl, by omega⟩] at hsome
  cases hsome

/-- Freeing a live block leaves the others mapped. -/
theorem Intact.free (h : t.Intact) (hlive : (address, size) ∈ liveBlocks t.events) :
    (t.free kernel address size).2.Intact := by
  rcases free_eq t kernel address size with ⟨message, hcall⟩ | ⟨after, hcall, hevents, hmemory⟩
  · rw [hcall]
    exact h.of_mapped (by simp only [liveBlocks_concat]; rfl) fun _ hx ↦ hx
  · have hblocks : ∀ block ∈ liveBlocks after.events,
        block ∈ liveBlocks t.events ∧ block.1 ≠ address := by
      intro block hblock
      rw [hevents, liveBlocks_concat] at hblock
      simpa [blocksAfter] using hblock
    rw [hcall]
    refine ⟨fun block hblock ↦ ?_, fun block hblock other hother ↦
      h.apart block (hblocks block hblock).1 other (hblocks other hother).1⟩
    obtain ⟨hold, hne⟩ := hblocks block hblock
    have hpair : block ≠ (address, size) := fun heq ↦ hne (congrArg Prod.fst heq)
    refine ⟨(h.mapped block hold).1, fun x hx ↦ ?_⟩
    rw [hmemory, if_neg (h.apart block hold _ hlive hpair x hx)]
    exact (h.mapped block hold).2 x hx

end Blocks

end Target

end Cecore.Platform
