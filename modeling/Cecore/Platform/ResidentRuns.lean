import Cecore.Library.LittleEndian
import Cecore.Platform.LinuxProcess

/-!
# Exactness of resident ranges

The runs of `residentRanges` are the maximal runs of the pages that are present or swapped out,
clipped to the range (`residentRanges_exact`). Below the entries of the page map stand the `pread`
calls that fetch them: short and interrupted reads are continued, and an error or the end of the
file makes the walk give the whole range (`residentRangesRead_exact`).
-/

set_option autoImplicit false
set_option relaxedAutoImplicit false

namespace Cecore.Platform

open Library.LittleEndian

/-! ### Reading the page map -/

/-- What a `pread` of the page map does: it is interrupted, fails otherwise, or gives up to so many
bytes, none at the end of the file. -/
inductive PagemapRead
  | interrupted
  | failed
  | bytes (count : ℕ)
  deriving DecidableEq, Repr

/-- The loop that reads `want` bytes at `off` behind those it has `got`: the bytes, unless a read
failed, and the answers left. Nothing where the answers are used up before. -/
def preadLoop (content : ℕ → UInt8) (want off : ℕ) :
    List PagemapRead → (got : List UInt8) → Option (Option (List UInt8) × List PagemapRead)
  | [], got => if got.length < want then none else some (some got, [])
  | answer :: answers, got =>
    if got.length < want then
      match answer with
      | .interrupted => preadLoop content want off answers got
      | .failed => some (none, answers)
      | .bytes count =>
        let r := min count (want - got.length)
        if r = 0 then some (none, answers)
        else
          preadLoop content want off answers
            (got ++ (List.range r).map fun i ↦ content (off + got.length + i))
    else some (some got, answer :: answers)

/-- The bytes of `ent` as entries. -/
def entriesOf (n : ℕ) (bytes : List UInt8) : List ℕ :=
  (List.range n).map fun k ↦ leNat ((bytes.drop (k * 8)).take 8)

/-- The windows up to `limit`, over the answers to the reads; nothing in place of the runs where a
read failed. -/
def walkReads (content : ℕ → UInt8) (pageSize base limit : ℕ) :
    (turns page : ℕ) → RunScan → List PagemapRead → Option (Option RunScan × List PagemapRead)
  | 0, _, s, answers => some (some s, answers)
  | turns + 1, page, s, answers =>
    let addr := page * pageSize
    if addr < limit then
      let n := min pagemapWindow ((limit - addr + pageSize - 1) / pageSize)
      match preadLoop content (n * 8) (page * 8) answers [] with
      | none => none
      | some (none, rest) => some (none, rest)
      | some (some bytes, rest) =>
        walkReads content pageSize base limit turns (page + n)
          (walkWindow pageSize base limit s page (entriesOf n bytes)) rest
    else some (some s, answers)

/-- `residentRanges` over the answers to its reads: the runs and the answers left. -/
def residentRangesRead (content : ℕ → UInt8) (opened : Bool) (pageSize base size : ℕ)
    (answers : List PagemapRead) : Option (List (ℕ × ℕ) × List PagemapRead) :=
  let whole := [(base, base + size)]
  if pageSize = 0 ∨ size = 0 then some (whole, answers)
  else if !opened then some (whole, answers)
  else
    let limit := base + size
    match walkReads content pageSize base limit (limit / pageSize + 1) (base / pageSize)
      ⟨[], none⟩ answers with
    | none => none
    | some (none, rest) => some (whole, rest)
    | some (some s, rest) =>
      match s.runStart with
      | none => some (s.runs, rest)
      | some start => some ((s.endRun base limit start limit).runs, rest)

/-! ### What the runs are -/

/-- The maximal runs of the bytes of `[base, limit)` whose page is worth reading, in order. -/
structure Resident (worth : ℕ → Prop) (pageSize base limit : ℕ) (runs : List (ℕ × ℕ)) : Prop where
  pieces : Pieces base limit runs
  covered : ∀ x, base ≤ x → x < limit →
    ((∃ run ∈ runs, run.1 ≤ x ∧ x < run.2) ↔ worth (x / pageSize))
  left : ∀ run ∈ runs, run.1 = base ∨ ¬worth ((run.1 - 1) / pageSize)
  right : ∀ run ∈ runs, run.2 = limit ∨ ¬worth (run.2 / pageSize)

/-- What the walk knows when it has seen the pages up to `page`. -/
structure RunScan.Exact (worth : ℕ → Prop) (pageSize base limit page : ℕ) (s : RunScan) : Prop where
  sound : s.Sound base limit (page * pageSize)
  covered : ∀ x, base ≤ x → x < limit → x < page * pageSize →
    (((∃ run ∈ s.runs, run.1 ≤ x ∧ x < run.2) ∨ ∃ start, s.runStart = some start ∧ start ≤ x) ↔
      worth (x / pageSize))
  left : ∀ run ∈ s.runs, run.1 = base ∨ ¬worth ((run.1 - 1) / pageSize)
  right : ∀ run ∈ s.runs, run.2 = limit ∨ ¬worth (run.2 / pageSize)
  openLeft : ∀ start, s.runStart = some start → start ≤ base ∨ ¬worth ((start - 1) / pageSize)

variable {worth : ℕ → Prop} {pageSize base limit page : ℕ} {s : RunScan}

/-- A byte below the next page that is not below this one is in this page. -/
theorem div_eq_of_page {x : ℕ} (hlow : page * pageSize ≤ x) (hhigh : x < (page + 1) * pageSize) :
    x / pageSize = page :=
  Nat.div_eq_of_lt_le hlow hhigh

/-- Behind a page that ends a run, or that no run covers, a new run may start. -/
theorem RunScan.Exact.before (h : s.Exact worth pageSize base limit page) (hstart : s.runStart = none)
    (hpage : 0 < pageSize) (hworth : worth page) (hlimit : page * pageSize < limit) :
    page * pageSize ≤ base ∨ ¬worth ((page * pageSize - 1) / pageSize) := by
  by_cases hbase : page * pageSize ≤ base
  · exact Or.inl hbase
  refine Or.inr fun hbefore ↦ ?_
  rcases (h.covered (page * pageSize - 1) (by omega) (by omega) (by omega)).mpr hbefore with
    ⟨run, hrun, hlow, hhigh⟩ | ⟨start, hsome, -⟩
  · have hbehind := h.sound.behind run hrun
    rcases h.right run hrun with hend | hend
    · omega
    · rw [show run.2 = page * pageSize by omega, Nat.mul_div_cancel page hpage] at hend
      exact hend hworth
  · rw [hstart] at hsome
    exact absurd hsome (by simp)

/-- A page that is worth reading starts a run. -/
theorem RunScan.Exact.start (h : s.Exact worth pageSize base limit page)
    (hstart : s.runStart = none) (hpage : 0 < pageSize) (hworth : worth page)
    (hlimit : page * pageSize < limit) :
    (RunScan.mk s.runs (some (page * pageSize))).Exact worth pageSize base limit (page + 1) := by
  have hnext : (page + 1) * pageSize = page * pageSize + pageSize := Nat.succ_mul page pageSize
  refine ⟨⟨h.sound.pieces, fun run hrun ↦ (h.sound.behind run hrun).trans (by omega), ?_⟩, ?_,
    h.left, h.right, ?_⟩
  · intro start hsome
    obtain rfl := Option.some.inj hsome
    exact ⟨by omega, h.sound.behind⟩
  · intro x hbase hx hpos
    by_cases hlow : page * pageSize ≤ x
    · rw [div_eq_of_page hlow hpos]
      exact ⟨fun _ ↦ hworth, fun _ ↦ Or.inr ⟨_, rfl, hlow⟩⟩
    · rw [← h.covered x hbase hx (by omega), hstart]
      refine or_congr_right ⟨?_, ?_⟩
      · rintro ⟨start, hsome, hle⟩
        obtain rfl := Option.some.inj hsome
        exact absurd hle hlow
      · rintro ⟨start, hsome, -⟩
        exact absurd hsome (by simp)
  · intro start hsome
    obtain rfl := Option.some.inj hsome
    exact h.before hstart hpage hworth hlimit

/-- What `endRun` adds covers the bytes of the run in the range. -/
theorem mem_endRun {runEnd start x : ℕ} (hbase : base ≤ x) (hx : x < limit) :
    (∃ run ∈ (s.endRun base limit start runEnd).runs, run.1 ≤ x ∧ x < run.2) ↔
      (∃ run ∈ s.runs, run.1 ≤ x ∧ x < run.2) ∨ start ≤ x ∧ x < runEnd := by
  unfold RunScan.endRun
  dsimp only
  split_ifs with hlt
  · simp only [List.mem_append, List.mem_singleton, or_and_right, exists_or, exists_eq_left]
    refine or_congr_right ?_
    omega
  · refine ⟨Or.inl, ?_⟩
    rintro (h | ⟨hlow, hhigh⟩)
    · exact h
    · omega

/-- A run that `endRun` adds starts and ends where the run does, or at the ends of the range. -/
theorem of_mem_endRun {runEnd start : ℕ} {run : ℕ × ℕ}
    (hrun : run ∈ (s.endRun base limit start runEnd).runs) :
    run ∈ s.runs ∨ run = (max start base, min runEnd limit) := by
  unfold RunScan.endRun at hrun
  dsimp only at hrun
  split_ifs at hrun
  · exact (List.mem_append.mp hrun).imp_right List.mem_singleton.mp
  · exact Or.inl hrun

/-- The left end of a run that is ended. -/
theorem RunScan.Exact.left_endRun (h : s.Exact worth pageSize base limit page) {start : ℕ}
    (hstart : s.runStart = some start) (runEnd : ℕ) :
    ∀ run ∈ (s.endRun base limit start runEnd).runs,
      run.1 = base ∨ ¬worth ((run.1 - 1) / pageSize) := by
  intro run hrun
  rcases of_mem_endRun hrun with hold | rfl
  · exact h.left run hold
  · rcases h.openLeft start hstart with hle | hnot
    · exact Or.inl (Nat.max_eq_right hle)
    · by_cases hle : start ≤ base
      · exact Or.inl (Nat.max_eq_right hle)
      · rw [Nat.max_eq_left (by omega)]
        exact Or.inr hnot

/-- A page that is not worth reading ends the run. -/
theorem RunScan.Exact.stop (h : s.Exact worth pageSize base limit page) {start : ℕ}
    (hstart : s.runStart = some start) (hpage : 0 < pageSize) (hworth : ¬worth page)
    (hlimit : page * pageSize < limit) :
    (s.endRun base limit start (page * pageSize)).Exact worth pageSize base limit (page + 1) := by
  have hnext : (page + 1) * pageSize = page * pageSize + pageSize := Nat.succ_mul page pageSize
  have hnone : (s.endRun base limit start (page * pageSize)).runStart = none := rfl
  have hsound := h.sound.endRun hstart
  refine ⟨hsound.mono (by omega), ?_, h.left_endRun hstart _, ?_, ?_⟩
  · intro x hbase hx hpos
    rw [mem_endRun hbase hx, hnone]
    by_cases hlow : page * pageSize ≤ x
    · rw [div_eq_of_page hlow hpos]
      refine ⟨?_, fun hyes ↦ absurd hyes hworth⟩
      rintro ((⟨run, hrun, -, hhigh⟩ | ⟨-, hhigh⟩) | ⟨later, hsome, -⟩)
      · have := h.sound.behind run hrun
        omega
      · omega
      · exact absurd hsome (by simp)
    · rw [← h.covered x hbase hx (by omega), hstart]
      constructor
      · rintro ((hold | ⟨hle, -⟩) | ⟨later, hsome, -⟩)
        · exact Or.inl hold
        · exact Or.inr ⟨start, rfl, hle⟩
        · exact absurd hsome (by simp)
      · rintro (hold | ⟨later, hsome, hle⟩)
        · exact Or.inl (Or.inl hold)
        · obtain rfl := Option.some.inj hsome
          exact Or.inl (Or.inr ⟨hle, by omega⟩)
  · intro run hrun
    rcases of_mem_endRun hrun with hold | rfl
    · exact h.right run hold
    · dsimp only
      rw [Nat.min_eq_left (by omega), Nat.mul_div_cancel page hpage]
      exact Or.inr hworth
  · intro later hsome
    rw [hnone] at hsome
    exact absurd hsome (by simp)

/-- A page that does not change whether the walk is in a run. -/
theorem RunScan.Exact.keep (h : s.Exact worth pageSize base limit page)
    (hworth : s.runStart ≠ none ↔ worth page) : s.Exact worth pageSize base limit (page + 1) := by
  have hnext : (page + 1) * pageSize = page * pageSize + pageSize := Nat.succ_mul page pageSize
  refine ⟨h.sound.mono (by omega), ?_, h.left, h.right, h.openLeft⟩
  intro x hbase hx hpos
  by_cases hlow : page * pageSize ≤ x
  · rw [div_eq_of_page hlow hpos, ← hworth]
    constructor
    · rintro (⟨run, hrun, -, hhigh⟩ | ⟨start, hsome, -⟩)
      · have := h.sound.behind run hrun
        omega
      · rw [hsome]
        simp
    · intro hne
      obtain ⟨start, hsome⟩ := Option.ne_none_iff_exists'.mp hne
      exact Or.inr ⟨start, hsome, (h.sound.started start hsome).1.trans hlow⟩
  · exact h.covered x hbase hx (by omega)

/-- The walk goes on to the next page with what it knows of this one. -/
theorem RunScan.Exact.turn (h : s.Exact worth pageSize base limit page) (hpage : 0 < pageSize)
    (hlimit : page * pageSize < limit) {entry : ℕ} (hentry : worthReading entry = true ↔ worth page) :
    (s.page base limit (page * pageSize) entry).Exact worth pageSize base limit (page + 1) := by
  unfold RunScan.page
  cases hstart : s.runStart with
  | none =>
    cases hread : worthReading entry with
    | true => exact h.start hstart hpage (hentry.mp hread) hlimit
    | false =>
      refine h.keep ?_
      rw [hstart, ← hentry, hread]
      simp
  | some start =>
    cases hread : worthReading entry with
    | true =>
      refine h.keep ?_
      rw [hstart, ← hentry, hread]
      simp
    | false =>
      refine h.stop hstart hpage (fun hworth ↦ ?_) hlimit
      rw [← hentry, hread] at hworth
      exact absurd hworth (by decide)

/-- The pages of a window, all below the limit. -/
theorem RunScan.Exact.window (h : s.Exact worth pageSize base limit page) (hpage : 0 < pageSize)
    {entries : List ℕ} (hbelow : ∀ k < entries.length, (page + k) * pageSize < limit)
    (hentries : ∀ k entry, entries[k]? = some entry →
      (worthReading entry = true ↔ worth (page + k))) :
    (walkWindow pageSize base limit s page entries).Exact worth pageSize base limit
      (page + entries.length) := by
  induction entries generalizing s page with
  | nil => exact h
  | cons entry rest ih =>
    have hfirst := h.turn hpage (hbelow 0 (by simp)) (hentries 0 entry rfl)
    have hrest := ih hfirst
      (fun k hk ↦ by
        rw [show page + 1 + k = page + (k + 1) by omega]
        exact hbelow (k + 1) (by simpa using hk))
      (fun k later hlater ↦ by
        rw [show page + 1 + k = page + (k + 1) by omega]
        exact hentries (k + 1) later hlater)
    rw [walkWindow, List.length_cons, show page + (rest.length + 1) = page + 1 + rest.length by omega]
    exact hrest

/-- The pages of the window at `page`. -/
def windowPages (pageSize limit page : ℕ) : ℕ :=
  min pagemapWindow ((limit - page * pageSize + pageSize - 1) / pageSize)

theorem windowPages_pos (hpage : 0 < pageSize) (hlimit : page * pageSize < limit) :
    0 < windowPages pageSize limit page := by
  have : 1 ≤ (limit - page * pageSize + pageSize - 1) / pageSize :=
    (Nat.le_div_iff_mul_le hpage).mpr (by omega)
  unfold windowPages pagemapWindow
  omega

theorem windowPages_below (hpage : 0 < pageSize) {k : ℕ}
    (hk : k < windowPages pageSize limit page) : (page + k) * pageSize < limit := by
  have hlt : k < (limit - page * pageSize + pageSize - 1) / pageSize :=
    hk.trans_le (Nat.min_le_right _ _)
  have hmul : (k + 1) * pageSize ≤ limit - page * pageSize + pageSize - 1 :=
    (Nat.le_div_iff_mul_le hpage).mp hlt
  rw [Nat.succ_mul] at hmul
  rw [Nat.add_mul]
  omega

/-- The entries of pages that can all be read. -/
theorem readEntries_some (entry : ℕ → ℕ) (page n : ℕ) :
    readEntries (fun page ↦ some (entry page)) page n =
      some ((List.range n).map fun k ↦ entry (page + k)) := by
  induction n generalizing page with
  | zero => rfl
  | succ n ih =>
    rw [readEntries, ih, List.range_succ_eq_map, List.map_cons, List.map_map, Nat.add_zero]
    refine congrArg some (congrArg (entry page :: ·) (List.map_congr_left fun k _ ↦ ?_))
    rw [Function.comp_apply, Nat.succ_eq_add_one, show page + 1 + k = page + (k + 1) by omega]

/-- The walk sees every page below the limit. -/
theorem RunScan.Exact.walk {entry : ℕ → ℕ} {turns : ℕ}
    (h : s.Exact (fun page ↦ worthReading (entry page) = true) pageSize base limit page)
    (hpage : 0 < pageSize) (hturns : limit < (page + turns) * pageSize) :
    ∃ found reached, walkPagemap (fun page ↦ some (entry page)) pageSize base limit turns page s =
        some found ∧
      found.Exact (fun page ↦ worthReading (entry page) = true) pageSize base limit reached ∧
      limit ≤ reached * pageSize := by
  induction turns generalizing s page with
  | zero => exact ⟨s, page, rfl, h, hturns.le⟩
  | succ turns ih =>
    rw [walkPagemap]
    dsimp only
    split_ifs with hlt
    · rw [← windowPages, readEntries_some]
      dsimp only
      set entries := (List.range (windowPages pageSize limit page)).map fun k ↦ entry (page + k)
        with hentries
      have hlength : entries.length = windowPages pageSize limit page := by
        rw [hentries, List.length_map, List.length_range]
      have hwindow : (walkWindow pageSize base limit s page entries).Exact
          (fun page ↦ worthReading (entry page) = true) pageSize base limit
          (page + entries.length) := by
        refine h.window hpage (fun k hk ↦ windowPages_below hpage (hlength ▸ hk)) ?_
        intro k read hread
        rw [hentries, List.getElem?_map] at hread
        obtain ⟨i, hi, rfl⟩ := Option.map_eq_some_iff.mp hread
        obtain ⟨-, rfl⟩ := List.getElem?_eq_some_iff.mp hi
        rw [List.getElem_range]
      rw [hlength] at hwindow
      refine ih hwindow (hturns.trans_le (Nat.mul_le_mul_right pageSize ?_))
      have := windowPages_pos hpage hlt
      omega
    · exact ⟨s, page, rfl, h, by omega⟩

/-- The walk starts with nothing seen. -/
theorem RunScan.exact_init (worth : ℕ → Prop) (pageSize base limit : ℕ) :
    (RunScan.mk [] none).Exact worth pageSize base limit (base / pageSize) := by
  have hstart : base / pageSize * pageSize ≤ base := Nat.div_mul_le_self base pageSize
  refine ⟨⟨⟨by simp, List.Pairwise.nil⟩, by simp, by simp⟩, ?_, by simp, by simp, by simp⟩
  intro x hbase hx hpos
  omega

/-- The runs when the walk has seen every page. -/
theorem RunScan.Exact.finish (h : s.Exact worth pageSize base limit page)
    (hreached : limit ≤ page * pageSize) :
    Resident worth pageSize base limit (match s.runStart with
      | none => s.runs
      | some start => (s.endRun base limit start limit).runs) := by
  cases hstart : s.runStart with
  | none =>
    refine ⟨h.sound.pieces, fun x hbase hx ↦ ?_, h.left, h.right⟩
    rw [← h.covered x hbase hx (by omega), hstart]
    simp
  | some start =>
    have hend := (h.sound.endRun hstart).pieces
    have hsame : (s.endRun base limit start (page * pageSize)).runs =
        (s.endRun base limit start limit).runs := by
      unfold RunScan.endRun
      rw [Nat.min_eq_right hreached, Nat.min_self]
    rw [hsame] at hend
    refine ⟨hend, fun x hbase hx ↦ ?_, h.left_endRun hstart limit, fun run hrun ↦ ?_⟩
    · rw [mem_endRun hbase hx, ← h.covered x hbase hx (by omega), hstart]
      refine or_congr_right ⟨fun hle ↦ ⟨start, rfl, hle.1⟩, ?_⟩
      rintro ⟨later, hsome, hle⟩
      obtain rfl := Option.some.inj hsome
      exact ⟨hle, hx⟩
    · rcases of_mem_endRun hrun with hold | rfl
      · exact h.right run hold
      · exact Or.inl (Nat.min_self limit)

/-- With every entry read, the resident ranges are the maximal runs of the pages worth reading. -/
theorem residentRanges_exact (proc : ProcessHandle) {entry : ℕ → ℕ}
    (hpagemap : proc.pagemap = fun page ↦ some (entry page)) {pageSize base size : ℕ}
    (hpage : 0 < pageSize) (hsize : 0 < size) :
    Resident (fun page ↦ worthReading (entry page) = true) pageSize base (base + size)
      (residentRanges proc pageSize base size) := by
  have hturns : base + size < (base / pageSize + ((base + size) / pageSize + 1)) * pageSize := by
    have hdivMod := Nat.div_add_mod (base + size) pageSize
    have hmod := Nat.mod_lt (base + size) hpage
    rw [Nat.mul_comm] at hdivMod
    rw [Nat.add_mul, Nat.succ_mul]
    omega
  obtain ⟨found, reached, hwalk, hexact, hreached⟩ :=
    (RunScan.exact_init (fun page ↦ worthReading (entry page) = true) pageSize base
      (base + size)).walk hpage hturns
  have hresident := hexact.finish hreached
  unfold residentRanges
  dsimp only
  rw [if_neg (by omega), hpagemap, hwalk]
  exact hresident

/-! ### The reads -/

/-- An answer that ends the reading: an error, or the end of the file. -/
def PagemapRead.Fails (answer : PagemapRead) : Prop := answer = .failed ∨ answer = .bytes 0

/-- The answers that get the reading on: all but interruptions. -/
def PagemapRead.Moves (answer : PagemapRead) : Bool := answer ≠ .interrupted

/-- How many of the answers get the reading on. -/
def moves (answers : List PagemapRead) : ℕ := answers.countP PagemapRead.Moves

/-- The entry of a page in the file. -/
def entryAt (content : ℕ → UInt8) (page : ℕ) : ℕ :=
  leNat ((List.range 8).map fun i ↦ content (page * 8 + i))

/-- The answers a loop used up, and what it made of them. -/
structure Reads {α : Type} (answers : List PagemapRead) (good : α → Prop)
    (result : Option α × List PagemapRead) : Prop where
  used : ∃ used, answers = used ++ result.2 ∧
    (result.1 = none ∧ (∃ answer ∈ used, answer.Fails) ∨
      ∃ value, result.1 = some value ∧ (∀ answer ∈ used, ¬answer.Fails) ∧ good value)

theorem Reads.cons {α : Type} {answer : PagemapRead} {answers : List PagemapRead} {good : α → Prop}
    {result : Option α × List PagemapRead} (h : Reads answers good result)
    (hanswer : ¬answer.Fails) : Reads (answer :: answers) good result := by
  obtain ⟨used, hused, hresult⟩ := h.used
  refine ⟨answer :: used, by rw [hused, List.cons_append], ?_⟩
  rcases hresult with ⟨hnone, failing, hmem, hfails⟩ | ⟨value, hsome, hnever, hgood⟩
  · exact Or.inl ⟨hnone, failing, List.mem_cons_of_mem _ hmem, hfails⟩
  · refine Or.inr ⟨value, hsome, ?_, hgood⟩
    intro other hother
    rcases List.mem_cons.mp hother with rfl | hother
    · exact hanswer
    · exact hnever other hother

/-- The bytes of the file at `off`. -/
def bytesAt (content : ℕ → UInt8) (off want : ℕ) : List UInt8 :=
  (List.range want).map fun i ↦ content (off + i)

theorem bytesAt_add (content : ℕ → UInt8) (off first second : ℕ) :
    bytesAt content off (first + second) =
      bytesAt content off first ++ bytesAt content (off + first) second := by
  unfold bytesAt
  rw [List.range_add, List.map_append, List.map_map]
  refine congrArg (_ ++ ·) (List.map_congr_left fun i _ ↦ ?_)
  rw [Function.comp_apply, Nat.add_assoc]

/-- A loop that has all its bytes uses no answer up. -/
theorem Reads.done {content : ℕ → UInt8} {want off : ℕ} {got : List UInt8}
    (hgot : got = bytesAt content off got.length) (hlength : got.length = want)
    (answers : List PagemapRead) :
    Reads answers (fun bytes ↦ bytes = bytesAt content off want) (some got, answers) :=
  ⟨[], rfl, Or.inr ⟨got, rfl, by simp, by rw [← hlength]; exact hgot⟩⟩

/-- The read loop gives the bytes of the file, or nothing because a read failed. -/
theorem preadLoop_reads {content : ℕ → UInt8} {want off : ℕ} {answers : List PagemapRead}
    {got : List UInt8} (hgot : got = bytesAt content off got.length) (hle : got.length ≤ want)
    {result : Option (List UInt8) × List PagemapRead}
    (h : preadLoop content want off answers got = some result) :
    Reads answers (fun bytes ↦ bytes = bytesAt content off want) result := by
  induction answers generalizing got with
  | nil =>
    rw [preadLoop] at h
    split_ifs at h with hlt
    rw [← Option.some.inj h]
    exact Reads.done hgot (by omega) []
  | cons answer answers ih =>
    rw [preadLoop.eq_def] at h
    dsimp only at h
    split_ifs at h with hlt
    swap
    · rw [← Option.some.inj h]
      exact Reads.done hgot (by omega) _
    cases answer with
    | interrupted => exact (ih hgot hle h).cons (by simp [PagemapRead.Fails])
    | failed =>
      rw [← Option.some.inj h]
      exact ⟨[.failed], rfl, Or.inl ⟨rfl, _, List.mem_cons_self, Or.inl rfl⟩⟩
    | bytes count =>
      dsimp only at h
      split_ifs at h with hzero
      · rw [← Option.some.inj h]
        have hcount : count = 0 := by omega
        exact ⟨[.bytes count], rfl, Or.inl ⟨rfl, _, List.mem_cons_self, Or.inr (by rw [hcount])⟩⟩
      · set r := min count (want - got.length)
        set more := got ++ (List.range r).map fun i ↦ content (off + got.length + i) with hmore
        have hlength : more.length = got.length + r := by
          rw [hmore, List.length_append, List.length_map, List.length_range]
        have hbytes : more = bytesAt content off more.length := by
          rw [hlength, bytesAt_add, ← hgot]
          rfl
        refine (ih hbytes (by omega) h).cons ?_
        rintro (hfails | hfails)
        · exact absurd hfails (by simp)
        · have hcount : count = 0 := by simpa using hfails
          omega

/-- The bytes of a window are the entries of its pages. -/
theorem entriesOf_bytesAt (content : ℕ → UInt8) (page n : ℕ) :
    entriesOf n (bytesAt content (page * 8) (n * 8)) =
      (List.range n).map fun k ↦ entryAt content (page + k) := by
  unfold entriesOf
  refine List.map_congr_left fun k hk ↦ ?_
  have hkn := List.mem_range.mp hk
  have hlength : ∀ off want, (bytesAt content off want).length = want := by
    intro off want
    rw [bytesAt, List.length_map, List.length_range]
  rw [show n * 8 = k * 8 + (8 + (n - k - 1) * 8) by omega, bytesAt_add, bytesAt_add,
    List.drop_left' (hlength _ _), List.take_left' (hlength _ _), entryAt, Nat.add_mul]
  rfl

/-- One loop behind another. -/
theorem Reads.trans {α β : Type} {answers rest : List PagemapRead} {first : α → Prop}
    {good : β → Prop} {value : α} {result : Option β × List PagemapRead}
    (hfirst : Reads answers first (some value, rest)) (h : Reads rest good result) :
    Reads answers good result := by
  obtain ⟨used, hused, hvalue⟩ := hfirst.used
  obtain ⟨others, hothers, hresult⟩ := h.used
  have hnever : ∀ answer ∈ used, ¬answer.Fails := by
    rcases hvalue with ⟨hnone, -⟩ | ⟨-, -, hnever, -⟩
    · exact absurd hnone (by simp)
    · exact hnever
  refine ⟨used ++ others, by rw [hused, hothers, List.append_assoc], ?_⟩
  rcases hresult with ⟨hnone, failing, hmem, hfails⟩ | ⟨found, hsome, hrest, hgood⟩
  · exact Or.inl ⟨hnone, failing, List.mem_append_right used hmem, hfails⟩
  · refine Or.inr ⟨found, hsome, fun answer hmem ↦ ?_, hgood⟩
    exact (List.mem_append.mp hmem).elim (hnever answer) (hrest answer)

/-- The walk over the reads is the walk over the entries in the file, or ends at a failed read. -/
theorem walkReads_reads {content : ℕ → UInt8} {turns : ℕ} {answers : List PagemapRead}
    {result : Option RunScan × List PagemapRead}
    (h : walkReads content pageSize base limit turns page s answers = some result) :
    Reads answers (fun found ↦ walkPagemap (fun page ↦ some (entryAt content page)) pageSize base
      limit turns page s = some found) result := by
  induction turns generalizing page s answers with
  | zero =>
    rw [← Option.some.inj h]
    exact ⟨[], rfl, Or.inr ⟨s, rfl, by simp, rfl⟩⟩
  | succ turns ih =>
    rw [walkReads] at h
    dsimp only at h
    rw [walkPagemap]
    dsimp only
    split_ifs at h ⊢ with hlt
    swap
    · rw [← Option.some.inj h]
      exact ⟨[], rfl, Or.inr ⟨s, rfl, by simp, rfl⟩⟩
    rw [← windowPages] at h ⊢
    rw [readEntries_some]
    dsimp only
    cases hloop : preadLoop content (windowPages pageSize limit page * 8) (page * 8) answers [] with
    | none =>
      rw [hloop] at h
      exact absurd h (by simp)
    | some window =>
      have hreads := preadLoop_reads (show [] = bytesAt content (page * 8) ([] : List UInt8).length
        from rfl) (Nat.zero_le _) hloop
      rw [hloop] at h
      obtain ⟨_ | bytes, rest⟩ := window
      · rw [← Option.some.inj h]
        obtain ⟨used, hused, ⟨-, hfails⟩ | ⟨_, hsome, -⟩⟩ := hreads.used
        · exact ⟨used, hused, Or.inl ⟨rfl, hfails⟩⟩
        · exact absurd hsome (by simp)
      · obtain ⟨used, hused, ⟨hnone, -⟩ | ⟨value, hsome, -, hvalue⟩⟩ := hreads.used
        · exact absurd hnone (by simp)
        obtain rfl := Option.some.inj hsome
        dsimp only at h
        rw [hvalue, entriesOf_bytesAt] at h
        exact hreads.trans (ih h)

/-! ### Enough answers -/

theorem moves_cons (answer : PagemapRead) (answers : List PagemapRead) :
    moves (answer :: answers) = moves answers + if answer.Moves then 1 else 0 :=
  List.countP_cons

/-- A byte for each answer that is no interruption: the loop ends, and leaves the others. -/
theorem preadLoop_ends {content : ℕ → UInt8} {want off : ℕ} {answers : List PagemapRead}
    {got : List UInt8} (henough : want - got.length ≤ moves answers) :
    ∃ result, preadLoop content want off answers got = some result ∧
      (result.1 ≠ none → moves answers ≤ moves result.2 + (want - got.length)) := by
  induction answers generalizing got with
  | nil =>
    have hfull : ¬got.length < want := by
      have : moves [] = 0 := rfl
      omega
    exact ⟨(some got, []), by rw [preadLoop, if_neg hfull], fun _ ↦ Nat.le_add_right _ _⟩
  | cons answer answers ih =>
    rw [preadLoop.eq_def]
    dsimp only
    by_cases hlt : got.length < want
    swap
    · rw [if_neg hlt]
      exact ⟨_, rfl, fun _ ↦ Nat.le_add_right _ _⟩
    rw [moves_cons] at henough ⊢
    rw [if_pos hlt]
    cases answer with
    | interrupted =>
      have hstays : PagemapRead.Moves .interrupted = false := rfl
      rw [hstays, if_neg Bool.false_ne_true, Nat.add_zero] at henough ⊢
      exact ih henough
    | failed => exact ⟨_, rfl, fun hsome ↦ absurd rfl hsome⟩
    | bytes count =>
      have hmoves : PagemapRead.Moves (.bytes count) = true := rfl
      rw [hmoves, if_pos rfl] at henough ⊢
      dsimp only
      split_ifs with hzero
      · exact ⟨_, rfl, fun hsome ↦ absurd rfl hsome⟩
      · set r := min count (want - got.length)
        set more := got ++ (List.range r).map fun i ↦ content (off + got.length + i) with hmore
        have hlength : more.length = got.length + r := by
          rw [hmore, List.length_append, List.length_map, List.length_range]
        obtain ⟨result, hresult, hleft⟩ := @ih more (by omega)
        refine ⟨result, hresult, fun hsome ↦ ?_⟩
        have := hleft hsome
        omega

/-- The pages from `page` on that begin below the limit. -/
def pagesLeft (pageSize limit page : ℕ) : ℕ := (limit - page * pageSize + pageSize - 1) / pageSize

theorem pagesLeft_add (hpage : 0 < pageSize) (limit page n : ℕ) :
    pagesLeft pageSize limit (page + n) = pagesLeft pageSize limit page - n := by
  unfold pagesLeft
  rw [Nat.add_mul]
  by_cases hle : page * pageSize + n * pageSize ≤ limit
  · rw [show limit - (page * pageSize + n * pageSize) + pageSize - 1 =
      limit - page * pageSize + pageSize - 1 - pageSize * n by
        rw [Nat.mul_comm pageSize n]
        omega]
    exact Nat.sub_mul_div _ _ _
  · have hsmall : limit - page * pageSize + pageSize - 1 < (n + 1) * pageSize := by
      rw [Nat.succ_mul]
      omega
    have hdiv : (limit - page * pageSize + pageSize - 1) / pageSize < n + 1 :=
      (Nat.div_lt_iff_lt_mul hpage).mpr hsmall
    rw [show limit - (page * pageSize + n * pageSize) = 0 by omega, Nat.zero_add,
      Nat.div_eq_of_lt (by omega)]
    omega

theorem walkReads_ends {content : ℕ → UInt8} (hpage : 0 < pageSize) {turns : ℕ}
    {answers : List PagemapRead} (henough : pagesLeft pageSize limit page * 8 ≤ moves answers) :
    (walkReads content pageSize base limit turns page s answers).isSome := by
  induction turns generalizing page s answers with
  | zero => rfl
  | succ turns ih =>
    rw [walkReads]
    dsimp only
    split_ifs with hlt
    swap
    · rfl
    rw [← windowPages]
    have hwindow : windowPages pageSize limit page ≤ pagesLeft pageSize limit page :=
      Nat.min_le_right _ _
    obtain ⟨⟨found, rest⟩, hloop, hleft⟩ := @preadLoop_ends content
      (windowPages pageSize limit page * 8) (page * 8) answers [] (by
        rw [List.length_nil]
        omega)
    rw [hloop]
    cases found with
    | none => rfl
    | some bytes =>
      have hrest := hleft (by simp)
      dsimp only [List.length_nil] at hrest ⊢
      refine ih ?_
      rw [pagesLeft_add hpage]
      omega

theorem residentRangesRead_ends {content : ℕ → UInt8} {opened : Bool} {pageSize base size : ℕ}
    {answers : List PagemapRead}
    (henough : pagesLeft pageSize (base + size) (base / pageSize) * 8 ≤ moves answers) :
    (residentRangesRead content opened pageSize base size answers).isSome := by
  unfold residentRangesRead
  dsimp only
  split_ifs with hnone hclosed
  · rfl
  · rfl
  have hwalk : (walkReads content pageSize base (base + size) ((base + size) / pageSize + 1)
      (base / pageSize) ⟨[], none⟩ answers).isSome := walkReads_ends (by omega) henough
  obtain ⟨⟨found, rest⟩, hwalk⟩ := Option.isSome_iff_exists.mp hwalk
  rw [hwalk]
  cases found with
  | none => rfl
  | some found =>
    dsimp only
    cases found.runStart with
    | none => rfl
    | some start => rfl

/-! ### The ranges -/

/-- Over its reads, `residentRanges` gives the whole range where the page map cannot be opened, an
error comes or the file ends; otherwise, however short or often interrupted its reads are, it gives
the maximal runs of the pages worth reading. -/
theorem residentRangesRead_result {content : ℕ → UInt8} {opened : Bool} {pageSize base size : ℕ}
    (hpage : 0 < pageSize) (hsize : 0 < size) {answers rest : List PagemapRead}
    {runs : List (ℕ × ℕ)}
    (h : residentRangesRead content opened pageSize base size answers = some (runs, rest)) :
    ∃ used, answers = used ++ rest ∧
      ((opened = false ∨ ∃ answer ∈ used, answer.Fails) ∧ runs = [(base, base + size)] ∨
        opened = true ∧ (∀ answer ∈ used, ¬answer.Fails) ∧
          Resident (fun page ↦ worthReading (entryAt content page) = true) pageSize base
            (base + size) runs) := by
  unfold residentRangesRead at h
  dsimp only at h
  rw [if_neg (by omega)] at h
  cases opened with
  | false =>
    obtain ⟨rfl, rfl⟩ := Prod.mk.inj (Option.some.inj h)
    exact ⟨[], rfl, Or.inl ⟨Or.inl rfl, rfl⟩⟩
  | true =>
    rw [if_neg (by decide)] at h
    cases hwalk : walkReads content pageSize base (base + size) ((base + size) / pageSize + 1)
      (base / pageSize) ⟨[], none⟩ answers with
    | none =>
      rw [hwalk] at h
      exact absurd h (by simp)
    | some result =>
      rw [hwalk] at h
      obtain ⟨used, hused, ⟨hnone, hfails⟩ | ⟨found, hsome, hnever, hfound⟩⟩ :=
        (walkReads_reads hwalk).used
      · obtain ⟨_, left⟩ := result
        obtain rfl := hnone
        obtain ⟨rfl, rfl⟩ := Prod.mk.inj (Option.some.inj h)
        exact ⟨used, hused, Or.inl ⟨Or.inr hfails, rfl⟩⟩
      · obtain ⟨_, left⟩ := result
        obtain rfl := hsome
        have hexact := @residentRanges_exact
          ⟨fun _ ↦ none, [], fun page ↦ some (entryAt content page), true⟩ (entryAt content) rfl
          pageSize base size hpage hsize
        unfold residentRanges at hexact
        dsimp only at hexact h
        rw [if_neg (by omega), hfound] at hexact
        dsimp only at hexact
        cases hstart : found.runStart with
        | none =>
          rw [hstart] at h hexact
          obtain ⟨rfl, rfl⟩ := Prod.mk.inj (Option.some.inj h)
          exact ⟨used, hused, Or.inr ⟨rfl, hnever, hexact⟩⟩
        | some start =>
          rw [hstart] at h hexact
          obtain ⟨rfl, rfl⟩ := Prod.mk.inj (Option.some.inj h)
          exact ⟨used, hused, Or.inr ⟨rfl, hnever, hexact⟩⟩

/-- With an answer for each byte of the page map's entries, `residentRanges` returns; and what it
returns is the whole range where the page map cannot be opened, an error comes or the file ends, and
otherwise, however short or often interrupted the reads are, the maximal runs of the pages worth
reading. -/
theorem residentRangesRead_exact (content : ℕ → UInt8) (opened : Bool) {pageSize base size : ℕ}
    (hpage : 0 < pageSize) (hsize : 0 < size) (answers : List PagemapRead) :
    (pagesLeft pageSize (base + size) (base / pageSize) * 8 ≤ moves answers →
      (residentRangesRead content opened pageSize base size answers).isSome) ∧
    ∀ runs rest, residentRangesRead content opened pageSize base size answers = some (runs, rest) →
      ∃ used, answers = used ++ rest ∧
        ((opened = false ∨ ∃ answer ∈ used, answer.Fails) ∧ runs = [(base, base + size)] ∨
          opened = true ∧ (∀ answer ∈ used, ¬answer.Fails) ∧
            Resident (fun page ↦ worthReading (entryAt content page) = true) pageSize base
              (base + size) runs) :=
  ⟨residentRangesRead_ends, fun _ _ h ↦ residentRangesRead_result hpage hsize h⟩

/-- A page map whose second page only is present. -/
def secondPage (offset : ℕ) : UInt8 := if offset = 15 then 128 else 0

theorem residentRangesRead_exact_unaligned :
    ∃ used, List.replicate 3 (PagemapRead.bytes 100) = used ++ [.bytes 100, .bytes 100] ∧
      ((true = false ∨ ∃ answer ∈ used, answer.Fails) ∧ [(4096, 5000)] = [(1000, 1000 + 4000)] ∨
        true = true ∧ (∀ answer ∈ used, ¬answer.Fails) ∧
          Resident (fun page ↦ worthReading (entryAt secondPage page) = true) 4096 1000
            (1000 + 4000) [(4096, 5000)]) :=
  (residentRangesRead_exact secondPage true (by decide) (by decide)
    (List.replicate 3 (.bytes 100))).2 _ _ (by decide)

/-- A short read is continued and does not give the whole range, and an empty range gives an empty
run. -/
theorem residentRangesRead_short :
    residentRangesRead secondPage true 4096 0 8192 [.bytes 5, .interrupted, .bytes 11] =
        some ([(4096, 8192)], []) ∧
      residentRangesRead secondPage true 4096 4096 0 [] = some ([(4096, 4096)], []) := by
  decide

end Cecore.Platform
