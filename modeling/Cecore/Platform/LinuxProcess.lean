import Cecore.Platform.ProcessHandle

/-!
# Resident ranges

`LinuxProcessHandle::residentRanges` turns the page map of an address range into the runs of pages
that are present or swapped out. The walk reads the page map in windows and falls back to the whole
range when a read fails. `residentRanges_pieces` says what a scan relies on: the runs are ascending,
disjoint, non-empty pieces of the range.
-/

set_option autoImplicit false
set_option relaxedAutoImplicit false

namespace Cecore.Platform

/-- The page is present (bit 63) or swapped out (bit 62). -/
def worthReading (entry : ℕ) : Bool := entry.testBit 63 || entry.testBit 62

/-- The runs found so far, and the start of the run the walk is in. -/
structure RunScan where
  runs : List (ℕ × ℕ)
  runStart : Option ℕ
  deriving DecidableEq, Repr

/-- `endRun`: the run clipped to `[base, limit)`, unless nothing is left of it. -/
def RunScan.endRun (base limit : ℕ) (s : RunScan) (start runEnd : ℕ) : RunScan :=
  let a := max start base
  let b := min runEnd limit
  ⟨if a < b then s.runs ++ [(a, b)] else s.runs, none⟩

/-- One page of the walk. -/
def RunScan.page (base limit : ℕ) (s : RunScan) (pageAddr entry : ℕ) : RunScan :=
  match s.runStart, worthReading entry with
  | none, true => { s with runStart := some pageAddr }
  | some start, false => s.endRun base limit start pageAddr
  | _, _ => s

/-- The pages of one window. -/
def walkWindow (pageSize base limit : ℕ) (s : RunScan) (page : ℕ) : List ℕ → RunScan
  | [] => s
  | entry :: rest =>
    walkWindow pageSize base limit (s.page base limit (page * pageSize) entry) (page + 1) rest

/-- The `pread` of `n` entries, retried until complete. -/
def readEntries (pagemap : ℕ → Option ℕ) : (page n : ℕ) → Option (List ℕ)
  | _, 0 => some []
  | page, n + 1 =>
    match pagemap page, readEntries pagemap (page + 1) n with
    | some entry, some rest => some (entry :: rest)
    | _, _ => none

/-- `WIN`: page map entries per read. -/
def pagemapWindow : ℕ := 4096

/-- The windows up to `limit`; nothing when the page map cannot be read. A window covers at least
one page, so as many turns as there are pages are enough. -/
def walkPagemap (pagemap : ℕ → Option ℕ) (pageSize base limit : ℕ) :
    (turns page : ℕ) → RunScan → Option RunScan
  | 0, _, s => some s
  | turns + 1, page, s =>
    let addr := page * pageSize
    if addr < limit then
      let n := min pagemapWindow ((limit - addr + pageSize - 1) / pageSize)
      match readEntries pagemap page n with
      | none => none
      | some entries =>
        walkPagemap pagemap pageSize base limit turns (page + n)
          (walkWindow pageSize base limit s page entries)
    else some s

/-- `residentRanges`. -/
def residentRanges (proc : ProcessHandle) (pageSize base size : ℕ) : List (ℕ × ℕ) :=
  let whole := [(base, base + size)]
  if pageSize = 0 ∨ size = 0 then whole
  else
    let limit := base + size
    match walkPagemap proc.pagemap pageSize base limit (limit / pageSize + 1) (base / pageSize)
      ⟨[], none⟩ with
    | none => whole
    | some s =>
      match s.runStart with
      | none => s.runs
      | some start => (s.endRun base limit start limit).runs

/-! ### The runs are pieces of the range -/

theorem length_of_readEntries {pagemap : ℕ → Option ℕ} {page n : ℕ} {entries : List ℕ}
    (h : readEntries pagemap page n = some entries) : entries.length = n := by
  induction n generalizing page entries with
  | zero => rw [← Option.some.inj h, List.length_nil]
  | succ n ih =>
    rw [readEntries] at h
    cases hentry : pagemap page with
    | none => simp [hentry] at h
    | some entry =>
      cases hrest : readEntries pagemap (page + 1) n with
      | none => simp [hentry, hrest] at h
      | some rest =>
        rw [hentry, hrest] at h
        rw [← Option.some.inj h, List.length_cons, ih hrest]

/-- Ascending, disjoint, non-empty pieces of `[base, limit)`. -/
structure Pieces (base limit : ℕ) (runs : List (ℕ × ℕ)) : Prop where
  inside : ∀ run ∈ runs, base ≤ run.1 ∧ run.1 < run.2 ∧ run.2 ≤ limit
  ascending : runs.Pairwise fun first second ↦ first.2 ≤ second.1

theorem Pieces.append {base limit : ℕ} {runs : List (ℕ × ℕ)} (h : Pieces base limit runs)
    {run : ℕ × ℕ} (hbase : base ≤ run.1) (hrun : run.1 < run.2) (hlimit : run.2 ≤ limit)
    (hafter : ∀ earlier ∈ runs, earlier.2 ≤ run.1) : Pieces base limit (runs ++ [run]) where
  inside := by
    intro other hother
    rcases List.mem_append.mp hother with hmem | hmem
    · exact h.inside other hmem
    · rw [List.mem_singleton.mp hmem]
      exact ⟨hbase, hrun, hlimit⟩
  ascending := by
    refine List.pairwise_append.mpr ⟨h.ascending, List.pairwise_singleton _ _, ?_⟩
    intro earlier hearlier later hlater
    rw [List.mem_singleton.mp hlater]
    exact hafter earlier hearlier

/-- What the walk knows when it has reached `position`. -/
structure RunScan.Sound (base limit position : ℕ) (s : RunScan) : Prop where
  pieces : Pieces base limit s.runs
  behind : ∀ run ∈ s.runs, run.2 ≤ position
  started : ∀ start, s.runStart = some start →
    start ≤ position ∧ ∀ run ∈ s.runs, run.2 ≤ start

variable {base limit position : ℕ} {s : RunScan}

theorem RunScan.Sound.mono (h : s.Sound base limit position) {later : ℕ}
    (hlater : position ≤ later) : s.Sound base limit later where
  pieces := h.pieces
  behind := fun run hrun ↦ (h.behind run hrun).trans hlater
  started := fun start hstart ↦
    ⟨(h.started start hstart).1.trans hlater, (h.started start hstart).2⟩

theorem RunScan.Sound.endRun (h : s.Sound base limit position) {start : ℕ}
    (hstart : s.runStart = some start) : (s.endRun base limit start position).Sound base limit
      position := by
  obtain ⟨hle, hafter⟩ := h.started start hstart
  unfold RunScan.endRun
  dsimp only
  split_ifs with hrun
  · refine ⟨h.pieces.append (Nat.le_max_right _ _) hrun (Nat.min_le_right _ _) ?_, ?_, by simp⟩
    · intro earlier hearlier
      exact (hafter earlier hearlier).trans (Nat.le_max_left _ _)
    · intro run hmem
      rcases List.mem_append.mp hmem with hmem | hmem
      · exact h.behind run hmem
      · rw [List.mem_singleton.mp hmem]
        exact Nat.min_le_left _ _
  · exact ⟨h.pieces, h.behind, by simp⟩

theorem RunScan.Sound.page (h : s.Sound base limit position) (entry : ℕ) :
    (s.page base limit position entry).Sound base limit position := by
  unfold RunScan.page
  split
  · refine ⟨h.pieces, h.behind, fun start hstart ↦ ?_⟩
    obtain rfl : position = start := Option.some.inj hstart
    exact ⟨le_rfl, h.behind⟩
  · next start hstart _ => exact h.endRun hstart
  · exact h

theorem RunScan.Sound.walkWindow {pageSize page : ℕ} (h : s.Sound base limit (page * pageSize))
    (entries : List ℕ) :
    (walkWindow pageSize base limit s page entries).Sound base limit
      ((page + entries.length) * pageSize) := by
  induction entries generalizing s page with
  | nil => simpa [Platform.walkWindow] using h
  | cons entry rest ih =>
    rw [Platform.walkWindow]
    have hnext := (h.page entry).mono (Nat.mul_le_mul_right pageSize (Nat.le_succ page))
    have := ih hnext
    rwa [List.length_cons, Nat.add_comm rest.length, ← Nat.add_assoc]

theorem RunScan.Sound.walkPagemap {pagemap : ℕ → Option ℕ} {pageSize turns page : ℕ}
    (h : s.Sound base limit (page * pageSize)) {found : RunScan}
    (hfound : walkPagemap pagemap pageSize base limit turns page s = some found) :
    ∃ reached, found.Sound base limit reached := by
  induction turns generalizing s page with
  | zero => exact ⟨_, Option.some.inj hfound ▸ h⟩
  | succ turns ih =>
    rw [Platform.walkPagemap] at hfound
    dsimp only at hfound
    split_ifs at hfound with hlt
    · cases hentries : readEntries pagemap page (min pagemapWindow
        ((limit - page * pageSize + pageSize - 1) / pageSize)) with
      | none => simp [hentries] at hfound
      | some entries =>
        rw [hentries] at hfound
        have hwindow := h.walkWindow entries
        rw [length_of_readEntries hentries] at hwindow
        exact ih hwindow hfound
    · exact ⟨_, Option.some.inj hfound ▸ h⟩

/-- The resident ranges of an address range are ascending, disjoint pieces of it. -/
theorem residentRanges_pieces (proc : ProcessHandle) {pageSize base size : ℕ} (hsize : 0 < size) :
    Pieces base (base + size) (residentRanges proc pageSize base size) := by
  have hwhole : Pieces base (base + size) [(base, base + size)] :=
    ⟨by simpa using hsize, List.pairwise_singleton _ _⟩
  unfold residentRanges
  dsimp only
  split_ifs
  · exact hwhole
  · have hstart : (RunScan.mk [] none).Sound base (base + size) (base / pageSize * pageSize) :=
      ⟨⟨by simp, List.Pairwise.nil⟩, by simp, by simp⟩
    cases hwalk : walkPagemap proc.pagemap pageSize base (base + size)
      ((base + size) / pageSize + 1) (base / pageSize) ⟨[], none⟩ with
    | none => exact hwhole
    | some found =>
      obtain ⟨reached, hsound⟩ := hstart.walkPagemap hwalk
      dsimp only
      cases hrun : found.runStart with
      | none => exact hsound.pieces
      | some start =>
        have hlate := hsound.mono (Nat.le_max_left reached (base + size))
        dsimp only
        have hend := (hlate.endRun hrun).pieces
        unfold RunScan.endRun at hend ⊢
        simpa [Nat.min_eq_right (Nat.le_max_right reached (base + size))] using hend

end Cecore.Platform
