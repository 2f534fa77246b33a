import Cecore.Symbols.ElfFile

/-!
# What is read of an ELF file

Every pass over an ELF file keeps to the buffers that it loaded, except for the walk over the notes:
the padded size of a name wraps to zero for the three largest sizes, and then `memcmp` may compare
one byte that is not there. `parseElfFile_inside_iff` says for which files.
-/

set_option autoImplicit false
set_option relaxedAutoImplicit false

namespace Cecore.Symbols.Elf

open Library.CheckedBuffer

/-! ### Notes -/

section Notes

def noteNamesz (buf : Buffer) (off : ℕ) : ℕ := buf.nat 4 off

def noteDescsz (buf : Buffer) (off : ℕ) : ℕ := buf.nat 4 (off + 4)

def noteType (buf : Buffer) (off : ℕ) : ℕ := buf.nat 4 (off + 8)

def noteDescOff (buf : Buffer) (off : ℕ) : ℕ := off + nhdrSize + padded (noteNamesz buf off)

def nextNote (buf : Buffer) (off : ℕ) : ℕ := noteDescOff buf off + padded (noteDescsz buf off)

/-- A note with its header and its content in the section. -/
structure NoteFits (buf : Buffer) (off : ℕ) : Prop where
  header : off + nhdrSize ≤ buf.size
  content : noteDescOff buf off + noteDescsz buf off ≤ buf.size

/-- A note whose build id leads to a debug file that exists. -/
structure Names (fs : FileSystem) (buf : Buffer) (off : ℕ) : Prop where
  buildId : noteType buf off = ntGnuBuildId ∧ 3 ≤ noteNamesz buf off ∧ 2 ≤ noteDescsz buf off
  owner : buf.bytes (off + nhdrSize) 3 = [0x47, 0x4E, 0x55]
  present : fs.exists_ (buildIdPath (buf.bytes (noteDescOff buf off) (noteDescsz buf off))) = true

/-- The walk comes from one note to another: those in between fit and lead to no debug file. -/
inductive Leads (fs : FileSystem) (buf : Buffer) : ℕ → ℕ → Prop
  | here (off : ℕ) : Leads fs buf off off
  | next {off later : ℕ} (hfits : NoteFits buf off) (hnames : ¬Names fs buf off)
      (hrest : Leads fs buf (nextNote buf off) later) : Leads fs buf off later

/-- The header of a build id, with a size of the name that is padded to zero, and two bytes. -/
structure Overruns (buf : Buffer) (off : ℕ) : Prop where
  room : buf.size = off + nhdrSize + 2
  namesz : 2 ^ 32 - 3 ≤ noteNamesz buf off
  descsz : noteDescsz buf off = 2
  type : noteType buf off = ntGnuBuildId

/-- No note that the walk comes to leads to a debug file. -/
def Silent (fs : FileSystem) (buf : Buffer) (off : ℕ) : Prop :=
  ∀ later, Leads fs buf off later → NoteFits buf later → ¬Names fs buf later

variable {fs : FileSystem} {buf : Buffer} {off later : ℕ}

theorem noteNamesz_lt (buf : Buffer) (off : ℕ) : noteNamesz buf off < 2 ^ 32 := Buffer.nat_lt 4 off

/-- A name of at least three bytes has room for them, or its padded size is zero. -/
theorem le_padded {size : ℕ} (hsize : size < 2 ^ 32) (hlong : 3 ≤ size) :
    padded size = 0 ∧ 2 ^ 32 - 3 ≤ size ∨ 4 ≤ padded size ∧ size < 2 ^ 32 - 3 := by
  unfold padded
  omega

theorem Overruns.fits (h : Overruns buf off) : NoteFits buf off := by
  have hpadded := le_padded (noteNamesz_lt buf off) (by have := h.namesz; omega)
  have hroom := h.room
  have hnamesz := h.namesz
  refine ⟨by omega, ?_⟩
  rw [noteDescOff, h.descsz]
  omega

/-- A note that fits is read to its end, or it is the one that overruns. -/
theorem noteDebugFile_outside (hfits : NoteFits buf off) :
    OutsideIff (Overruns buf off)
      (noteDebugFile fs buf (off + nhdrSize) (noteDescOff buf off) (noteNamesz buf off)
        (noteDescsz buf off) (noteType buf off))
      fun found ↦ found = none ↔ ¬Names fs buf off := by
  have hcontent := hfits.content
  unfold noteDebugFile
  by_cases hbuild : noteType buf off = ntGnuBuildId ∧ 3 ≤ noteNamesz buf off ∧ 2 ≤ noteDescsz buf off
  · rw [if_pos hbuild]
    have hpadded := le_padded (noteNamesz_lt buf off) hbuild.2.1
    by_cases hroom : off + nhdrSize + 3 ≤ buf.size
    · refine .of_runs (fun h ↦ ?_) ?_
      · have := h.room
        omega
      · rw [Buffer.read_ok (by omega) (by omega), ok_bind, Int.toNat_natCast]
        split_ifs with howner
        · rw [Buffer.read_ok (by omega) (by omega)]
          refine .ret ?_
          rw [Int.toNat_natCast]
          split_ifs with hpresent
          · exact iff_of_false (by simp) (not_not.mpr ⟨hbuild, howner, hpresent⟩)
          · exact iff_of_true rfl fun h ↦ hpresent h.present
        · exact .ret (iff_of_true rfl fun h ↦ howner h.owner)
    · refine .inr ⟨?_, ?_⟩
      · rw [noteDescOff] at hcontent
        exact ⟨by omega, by omega, by omega, hbuild.1⟩
      · rw [Buffer.read, if_neg (by omega)]
        rfl
  · rw [if_neg hbuild]
    refine .of_runs (fun h ↦ hbuild ?_) (.ret (iff_of_true rfl fun h ↦ hbuild h.buildId))
    have hdescsz := h.descsz
    have hnamesz := h.namesz
    exact ⟨h.type, by omega, by omega⟩

theorem leads_iff (hfits : NoteFits buf off) (hnames : ¬Names fs buf off) :
    Leads fs buf off later ↔ later = off ∨ Leads fs buf (nextNote buf off) later := by
  constructor
  · intro h
    cases h with
    | here => exact .inl rfl
    | next _ _ hrest => exact .inr hrest
  · rintro (rfl | hrest)
    · exact .here _
    · exact .next hfits hnames hrest

theorem leads_iff_eq (hend : ¬(NoteFits buf off ∧ ¬Names fs buf off)) :
    Leads fs buf off later ↔ later = off := by
  constructor
  · intro h
    cases h with
    | here => rfl
    | next hfits hnames => exact absurd ⟨hfits, hnames⟩ hend
  · rintro rfl
    exact .here _

theorem silent_nextNote (hfits : NoteFits buf off) (hnames : ¬Names fs buf off) :
    Silent fs buf (nextNote buf off) ↔ Silent fs buf off := by
  refine forall_congr' fun later ↦ ?_
  rw [leads_iff hfits hnames]
  constructor
  · rintro h (rfl | hleads)
    · exact fun _ ↦ hnames
    · exact h hleads
  · exact fun h hleads ↦ h (.inr hleads)

theorem overruns_nextNote (hfits : NoteFits buf off) (hnames : ¬Names fs buf off)
    (hover : ¬Overruns buf off) :
    (∃ later, Leads fs buf (nextNote buf off) later ∧ Overruns buf later) ↔
      ∃ later, Leads fs buf off later ∧ Overruns buf later := by
  refine exists_congr fun later ↦ and_congr_left fun hlater ↦ ?_
  rw [leads_iff hfits hnames]
  refine ⟨.inr, ?_⟩
  rintro (rfl | hleads)
  · exact absurd hlater hover
  · exact hleads

/-- A walk that ends at a note that does not fit finds nothing and overruns nothing. -/
theorem outside_of_not_fits (hfits : ¬NoteFits buf off) :
    OutsideIff (∃ later, Leads fs buf off later ∧ Overruns buf later) (pure none)
      fun found : Option Text ↦ found = none ↔ Silent fs buf off := by
  refine .of_runs ?_ (.ret (iff_of_true rfl ?_))
  · rintro ⟨later, hleads, hover⟩
    obtain rfl := (leads_iff_eq fun h ↦ hfits h.1).mp hleads
    exact hfits hover.fits
  · intro later hleads hlater
    obtain rfl := (leads_iff_eq fun h ↦ hfits h.1).mp hleads
    exact absurd hlater hfits

/-- The walk leaves the section exactly if it comes to a note that overruns. -/
theorem noteWalk_outside (fs : FileSystem) (buf : Buffer) (off : ℕ) :
    OutsideIff (∃ later, Leads fs buf off later ∧ Overruns buf later) (noteWalk fs buf off)
      fun found ↦ found = none ↔ Silent fs buf off := by
  induction hn : buf.size - off using Nat.strong_induction_on generalizing off with
  | h n ih =>
    rw [noteWalk]
    by_cases hheader : off + nhdrSize ≤ buf.size
    · rw [dif_pos hheader]
      have hsize : off + 12 ≤ buf.size := hheader
      refine .readNat off rfl (by omega) ?_
      refine .readNat (off + 4) rfl (by omega) ?_
      refine .readNat (off + 8) rfl (by omega) ?_
      change OutsideIff _ (if buf.size < noteDescOff buf off ∨
        buf.size - noteDescOff buf off < noteDescsz buf off then _ else _) _
      by_cases hcontent : buf.size < noteDescOff buf off ∨
        buf.size - noteDescOff buf off < noteDescsz buf off
      · rw [if_pos hcontent]
        refine outside_of_not_fits fun h ↦ ?_
        have := h.content
        omega
      · rw [if_neg hcontent]
        have hfits : NoteFits buf off := ⟨hheader, by omega⟩
        rcases @noteDebugFile_outside fs buf off hfits with ⟨hover, found, hfound, hnames⟩ | ⟨hover, hfault⟩
        · change OutsideIff _ (noteDebugFile fs buf (off + nhdrSize) (noteDescOff buf off)
            (noteNamesz buf off) (noteDescsz buf off) (noteType buf off) >>= _) _
          rw [hfound]
          cases found with
          | some path =>
            have hpresent : Names fs buf off := not_not.mp fun h ↦ by cases hnames.mpr h
            refine .of_runs ?_ (.ret (iff_of_false (by simp) ?_))
            · rintro ⟨later, hleads, hlater⟩
              obtain rfl := (leads_iff_eq fun h ↦ h.2 hpresent).mp hleads
              exact hover hlater
            · exact fun h ↦ h off (.here off) hfits hpresent
          | none =>
            have habsent := hnames.mp rfl
            have hforth : off < nextNote buf off := by
              rw [nextNote, noteDescOff, nhdrSize]
              omega
            change OutsideIff _ (if _ : nextNote buf off ≤ off then _ else _) _
            rw [dif_neg (not_le.mpr hforth)]
            have hrest := @ih (buf.size - nextNote buf off) (by omega) (nextNote buf off) rfl
            exact (hrest.mono fun found h ↦ h.trans (silent_nextNote hfits habsent)).congr
              (overruns_nextNote hfits habsent hover)
        · refine .inr ⟨⟨off, .here off, hover⟩, ?_⟩
          change noteDebugFile fs buf (off + nhdrSize) (noteDescOff buf off)
            (noteNamesz buf off) (noteDescsz buf off) (noteType buf off) >>= _ = _
          rw [hfault]
          rfl
    · rw [dif_neg hheader]
      exact outside_of_not_fits fun h ↦ hheader h.header

/-- A section of notes is come to whose walk overruns; those in front of it lead to no debug file. -/
inductive NotesOverrun (fs : FileSystem) (b : Buffer) : List Shdr → Prop
  | here {sh : Shdr} {rest : List Shdr} {buf : Buffer} {later : ℕ}
      (hload : loadNotes b sh = some buf) (hleads : Leads fs buf 0 later)
      (hover : Overruns buf later) : NotesOverrun fs b (sh :: rest)
  | later {sh : Shdr} {rest : List Shdr}
      (hsilent : ∀ buf, loadNotes b sh = some buf → Silent fs buf 0)
      (hrest : NotesOverrun fs b rest) : NotesOverrun fs b (sh :: rest)

theorem buildIdFile_outside (fs : FileSystem) (b : Buffer) (shdrs : List Shdr) :
    OutsideIff (NotesOverrun fs b shdrs) (buildIdFile fs b shdrs) fun _ ↦ True := by
  induction shdrs with
  | nil => exact .of_runs (fun h ↦ by cases h) (.ret trivial)
  | cons sh rest ih =>
    rw [buildIdFile]
    cases hload : loadNotes b sh with
    | none =>
      refine ih.congr ⟨fun h ↦ .later (fun buf hbuf ↦ ?_) h, fun h ↦ ?_⟩
      · rw [hload] at hbuf
        cases hbuf
      · cases h with
        | here hbuf => rw [hload] at hbuf; cases hbuf
        | later _ hrest => exact hrest
    | some buf =>
      rcases noteWalk_outside fs buf 0 with ⟨hover, found, hfound, hsilent⟩ | ⟨hover, hfault⟩
      · dsimp only
        rw [hfound]
        cases found with
        | some path =>
          refine .of_runs (fun h ↦ ?_) (.ret trivial)
          cases h with
          | here hbuf hleads hlater =>
            rw [hload] at hbuf
            cases hbuf
            exact hover ⟨_, hleads, hlater⟩
          | later hrest => cases hsilent.mpr (hrest buf hload)
        | none =>
          refine ih.congr ⟨fun h ↦ .later (fun other hother ↦ ?_) h, fun h ↦ ?_⟩
          · rw [hload] at hother
            cases hother
            exact hsilent.mp rfl
          · cases h with
            | here hbuf hleads hlater =>
              rw [hload] at hbuf
              cases hbuf
              exact absurd ⟨_, hleads, hlater⟩ hover
            | later _ hrest => exact hrest
      · obtain ⟨later, hleads, hlater⟩ := hover
        refine .inr ⟨.here hload hleads hlater, ?_⟩
        dsimp only
        rw [hfault]
        rfl

end Notes

/-! ### Buffers -/

section Buffers

variable {b buf : Buffer} {offset n : ℕ}

theorem size_of_readAt (h : readAt b offset n = some buf) : buf.size = n := by
  unfold readAt at h
  split_ifs at h
  obtain rfl := Option.some.inj h
  rfl

/-- The last byte ends every string in the buffer. -/
def Terminated (b : Buffer) : Prop := 0 < b.size → b.byte (b.size - 1) = 0

theorem terminated_terminated (b : Buffer) : Terminated (terminated b) := by
  intro hpos
  change 0 < b.size at hpos
  change (if b.size - 1 + 1 = b.size then 0 else b.byte (b.size - 1)) = 0
  rw [if_pos (by omega)]

/-- A byte that is not zero is not the last one. -/
theorem Terminated.next (h : Terminated b) {o : ℕ} (ho : o < b.size) (hbyte : b.nat 1 o ≠ 0) :
    o + 1 < b.size := by
  by_contra hlast
  obtain rfl : o = b.size - 1 := by omega
  refine hbyte ?_
  simp [Buffer.nat, Buffer.bytes, Library.LittleEndian.leNat, h (by omega)]

theorem cString_runs (h : Terminated b) {o : ℕ} (ho : o < b.size) :
    Runs (cString b o) fun _ ↦ True := by
  induction hn : b.size - o using Nat.strong_induction_on generalizing o with
  | h n ih =>
    rw [cString, dif_pos ho]
    refine Runs.readNat o rfl ho ?_
    split_ifs with hzero
    · exact .ret trivial
    · have hnext := h.next ho hzero
      exact (@ih (b.size - (o + 1)) (by omega) (o + 1) hnext rfl).bind fun rest _ ↦ .ret trivial

theorem strcmp_runs (h : Terminated b) {literal : Text} (hliteral : ∀ c ∈ literal, c.toNat ≠ 0)
    {o : ℕ} (ho : o < b.size) : Runs (strcmp b o literal) fun _ ↦ True := by
  induction literal generalizing o with
  | nil => exact Runs.readNat o rfl ho (.ret trivial)
  | cons letter rest ih =>
    rw [strcmp]
    refine Runs.readNat o rfl ho ?_
    split_ifs with hdiffers
    · exact .ret trivial
    · have hletter : b.nat 1 o ≠ 0 := by
        rw [not_not.mp hdiffers]
        exact hliteral letter List.mem_cons_self
      exact ih (fun c hc ↦ hliteral c (List.mem_cons_of_mem _ hc)) (h.next ho hletter)

/-- A record in front of the end of a table is in it, with its fields. -/
theorem record_le {k count size width : ℕ} (place : ℕ) (hk : k < count)
    (hplace : place + width ≤ size) :
    k * size + place + width ≤ count * size := by
  have h := Nat.mul_le_mul_right size (Nat.succ_le_of_lt hk)
  rw [Nat.succ_mul] at h
  omega

theorem loadTables_spec {entrySize : ℕ} {symShdr strShdr : Shdr} {strtab syms : Buffer}
    (h : loadTables b entrySize symShdr strShdr = some (strtab, syms)) :
    Terminated strtab ∧ syms.size = symShdr.size / entrySize * entrySize := by
  unfold loadTables at h
  split_ifs at h
  cases hstr : readAt b strShdr.offset strShdr.size with
  | none => simp [hstr] at h
  | some strings =>
    cases hsym : readAt b symShdr.offset (symShdr.size / entrySize * entrySize) with
    | none => simp [hstr, hsym] at h
    | some entries =>
      rw [hstr, hsym] at h
      obtain ⟨rfl, rfl⟩ := Prod.mk.inj (Option.some.inj h)
      exact ⟨terminated_terminated strings, size_of_readAt hsym⟩

end Buffers

/-! ### Headers and symbol tables -/

section Tables

variable {c : ElfClass} {b : Buffer}

/-- The fields lie in their records. -/
structure ElfClass.Fits (c : ElfClass) : Prop where
  ehdr : 18 ≤ c.ehdrSize ∧ c.eShoff + c.word ≤ c.ehdrSize ∧ c.eShnum + 4 ≤ c.ehdrSize
  shdr : 8 ≤ c.shdrSize ∧ c.shAddr + c.word ≤ c.shdrSize ∧ c.shOffset + c.word ≤ c.shdrSize ∧
    c.shSize + c.word ≤ c.shdrSize ∧ c.shLink + 4 ≤ c.shdrSize ∧ c.shEntsize + c.word ≤ c.shdrSize
  sym : 4 ≤ c.symSize ∧ c.stInfo + 1 ≤ c.symSize ∧ c.stShndx + 2 ≤ c.symSize ∧
    c.stValue + c.word ≤ c.symSize ∧ c.stSize + c.word ≤ c.symSize

theorem fits_elf64 : elf64.Fits := ⟨by decide, by decide, by decide⟩

theorem fits_elf32 : elf32.Fits := ⟨by decide, by decide, by decide⟩

theorem readEhdr_runs (hc : c.Fits) {header : Buffer} (hsize : header.size = c.ehdrSize) :
    Runs (readEhdr c header) fun _ ↦ True := by
  obtain ⟨htype, hshoff, hshnum⟩ := hc.ehdr
  refine Runs.readNat 16 rfl (by omega) ?_
  refine Runs.readNat _ rfl (by omega) ?_
  refine Runs.readNat _ rfl (by omega) ?_
  refine Runs.readNat _ rfl (by omega) ?_
  exact .ret trivial

theorem readShdr_runs (hc : c.Fits) {table : Buffer} {count k : ℕ}
    (hsize : table.size = count * c.shdrSize) (hk : k < count) :
    Runs (readShdr c table k) fun _ ↦ True := by
  obtain ⟨htype, haddr, hoffset, hsizePlace, hlink, hentsize⟩ := hc.shdr
  refine Runs.readNat _ rfl (hsize ▸ record_le 0 hk (by omega)) ?_
  refine Runs.readNat _ rfl (hsize ▸ record_le _ hk htype) ?_
  refine Runs.readNat _ rfl (hsize ▸ record_le _ hk haddr) ?_
  refine Runs.readNat _ rfl (hsize ▸ record_le _ hk hoffset) ?_
  refine Runs.readNat _ rfl (hsize ▸ record_le _ hk hsizePlace) ?_
  refine Runs.readNat _ rfl (hsize ▸ record_le _ hk hlink) ?_
  refine Runs.readNat _ rfl (hsize ▸ record_le _ hk hentsize) ?_
  exact .ret trivial

theorem readHeaders_runs (hc : c.Fits) {header : Buffer} (hsize : header.size = c.ehdrSize) :
    Runs (readHeaders c b header) fun _ ↦ True := by
  refine (readEhdr_runs hc hsize).bind fun ehdr _ ↦ ?_
  split_ifs
  · exact .ret trivial
  · cases htable : readAt b ehdr.shoff (ehdr.shnum * c.shdrSize) with
    | none => exact .ret trivial
    | some table =>
      refine (runs_mapM_of_runs fun k hk ↦ ?_).bind fun shdrs _ ↦ .ret trivial
      exact readShdr_runs hc (size_of_readAt htable) (List.mem_range.mp hk)

theorem readSym_runs (hc : c.Fits) {strtab syms : Buffer} (hstrtab : Terminated strtab) {count k : ℕ}
    (hsize : syms.size = count * c.symSize) (hk : k < count) :
    Runs (readSym c strtab syms k) fun _ ↦ True := by
  obtain ⟨hname, hinfo, hshndx, hvalue, hstSize⟩ := hc.sym
  refine Runs.readNat _ rfl (hsize ▸ record_le 0 hk (by omega)) ?_
  refine Runs.readNat _ rfl (hsize ▸ record_le _ hk hinfo) ?_
  refine Runs.readNat _ rfl (hsize ▸ record_le _ hk hshndx) ?_
  refine Runs.readNat _ rfl (hsize ▸ record_le _ hk hvalue) ?_
  refine Runs.readNat _ rfl (hsize ▸ record_le _ hk hstSize) ?_
  change Runs (if _ then _ else _) _
  split_ifs with hskip
  · exact .ret trivial
  · push Not at hskip
    exact (cString_runs hstrtab hskip.2.2.1).bind fun name _ ↦ .ret trivial

/-- A symbol table is read, and marked when it is the full one. -/
theorem readSymtab_runs (hc : c.Fits) (symShdr strShdr : Shdr) :
    Runs (readSymtab c b symShdr strShdr) fun table ↦
      table.full = decide (symShdr.type = shtSymtab) := by
  unfold readSymtab
  dsimp only
  split_ifs
  · exact .ret rfl
  · cases htables : loadTables b c.symSize symShdr strShdr with
    | none => exact .ret rfl
    | some tables =>
      obtain ⟨strtab, syms⟩ := tables
      obtain ⟨hstrtab, hsize⟩ := loadTables_spec htables
      refine (runs_mapM_of_runs fun k hk ↦ ?_).bind fun entries _ ↦ .ret rfl
      exact readSym_runs hc hstrtab hsize (List.mem_range.mp hk)

/-- The file has a section `SHT_SYMTAB` with a string table. -/
def HasSymtab (shdrs : List Shdr) : Prop :=
  ∃ sh ∈ shdrs, sh.type = shtSymtab ∧ sh.link < shdrs.length

theorem any_full_iff {shdrs : List Shdr} {tables : List ElfSymtab}
    (h : List.Forall₂ (fun (sh : Shdr × Shdr) (table : ElfSymtab) ↦
      table.full = decide (sh.1.type = shtSymtab)) (shdrs.filterMap (symtabOf shdrs)) tables) :
    tables.any ElfSymtab.full = true ↔ HasSymtab shdrs := by
  rw [List.any_eq_true]
  constructor
  · rintro ⟨table, hmem, hfull⟩
    obtain ⟨sh, hsh, htable⟩ := exists_of_mem_results h hmem
    rw [htable, decide_eq_true_iff] at hfull
    obtain ⟨own, hown, hsome⟩ := List.mem_filterMap.mp hsh
    unfold symtabOf at hsome
    split_ifs at hsome
    obtain ⟨str, hstr, rfl⟩ := Option.map_eq_some_iff.mp hsome
    exact ⟨own, hown, hfull, (List.getElem?_eq_some_iff.mp hstr).1⟩
  · rintro ⟨sh, hsh, htype, hlink⟩
    have hsome : symtabOf shdrs sh = some (sh, shdrs[sh.link]) := by
      rw [symtabOf, if_pos (.inr htype), List.getElem?_eq_getElem hlink]
      rfl
    have hmem := List.mem_filterMap.mpr ⟨sh, hsh, hsome⟩
    obtain ⟨table, htable, hfull⟩ := exists_result_of_mem h hmem
    exact ⟨table, htable, by rw [hfull, decide_eq_true htype]⟩

theorem readSymtabs_runs (hc : c.Fits) (shdrs : List Shdr) :
    Runs (readSymtabs c b shdrs) fun tables ↦
      (tables.any ElfSymtab.full = true ↔ HasSymtab shdrs) :=
  (runs_mapM fun tables _ ↦ readSymtab_runs hc tables.1 tables.2).mono fun _ h ↦ any_full_iff h

end Tables

/-! ### Debug links, relocations and the PLT -/

section Passes

variable {fs : FileSystem} {b : Buffer}

theorem linkedFile_runs (fs : FileSystem) (b : Buffer) (origPath : Text) (sh : Shdr) :
    Runs (linkedFile fs b origPath sh) fun _ ↦ True := by
  unfold linkedFile
  split_ifs with hskip
  · exact .ret trivial
  · push Not at hskip
    cases hload : readAt b sh.offset sh.size with
    | none => exact .ret trivial
    | some dl =>
      have hsize : 0 < (terminated dl).size := by
        change 0 < dl.size
        rw [size_of_readAt hload]
        omega
      exact (cString_runs (terminated_terminated dl) hsize).bind fun debugName _ ↦ .ret trivial

theorem findDebugLink_runs {names : Buffer} (hnames : Terminated names) (origPath : Text)
    (shdrs : List Shdr) : Runs (findDebugLink fs b names origPath shdrs) fun _ ↦ True := by
  induction shdrs with
  | nil => exact .ret trivial
  | cons sh rest ih =>
    rw [findDebugLink]
    split_ifs with hskip
    · exact ih
    · refine (strcmp_runs hnames (by decide) (not_le.mp hskip)).bind fun same _ ↦ ?_
      cases same with
      | true => exact linkedFile_runs fs b origPath sh
      | false => exact ih

theorem sectionNames_spec {ehdr : Ehdr} {shdrs : List Shdr} {names : Buffer}
    (h : sectionNames b ehdr shdrs = some names) : Terminated names := by
  unfold sectionNames at h
  cases hshstr : shdrs[ehdr.shstrndx]? with
  | none => simp [hshstr] at h
  | some shstr =>
    rw [hshstr] at h
    dsimp only at h
    split_ifs at h
    obtain ⟨raw, -, rfl⟩ := Option.map_eq_some_iff.mp h
    exact terminated_terminated raw

theorem findSeparateDebugFile_outside (fs : FileSystem) (b : Buffer) (origPath : Text) (ehdr : Ehdr)
    (shdrs : List Shdr) : OutsideIff (NotesOverrun fs b shdrs)
      (findSeparateDebugFile fs b origPath ehdr shdrs) fun _ ↦ True := by
  refine (buildIdFile_outside fs b shdrs).andThen fun found _ ↦ ?_
  cases found with
  | some path => exact .ret trivial
  | none =>
    cases hnames : (sectionNames b ehdr shdrs).filter fun names ↦ names.size < 2 ^ 20 with
    | none => exact .ret trivial
    | some names =>
      have hsome := (Option.filter_eq_some_iff.mp hnames).1
      exact findDebugLink_runs (sectionNames_spec hsome) origPath shdrs

theorem readRelocation_runs {strtab syms rels : Buffer} (hstrtab : Terminated strtab)
    {numSyms count k : ℕ} (hsyms : syms.size = numSyms * elf64.symSize)
    (hrels : rels.size = count * relaSize) (hk : k < count) :
    Runs (readRelocation strtab syms rels numSyms k) fun _ ↦ True := by
  refine Runs.readNat _ rfl (hrels ▸ record_le 0 hk (show 0 + 8 ≤ relaSize by decide)) ?_
  refine Runs.readNat _ rfl (hrels ▸ record_le _ hk (show 8 + 8 ≤ relaSize by decide)) ?_
  change Runs (if _ then _ else _) _
  split_ifs with hnone
  · exact .ret trivial
  · push Not at hnone
    refine Runs.readNat _ rfl (hsyms ▸ record_le 0 hnone.2 (show 0 + 4 ≤ elf64.symSize by decide)) ?_
    split_ifs with hunnamed
    · exact .ret trivial
    · push Not at hunnamed
      exact (cString_runs hstrtab hunnamed.2).bind fun name _ ↦ .ret trivial

theorem readRelocations_runs (b : Buffer) (shdrs : List Shdr) (relShdr : Shdr) :
    Runs (readRelocations b shdrs relShdr) fun _ ↦ True := by
  unfold readRelocations
  split_ifs
  · exact .ret trivial
  · cases shdrs[relShdr.link]? with
    | none => exact .ret trivial
    | some symShdr =>
      dsimp only
      cases shdrs[symShdr.link]? with
      | none => exact .ret trivial
      | some strShdr =>
        dsimp only
        split_ifs
        · exact .ret trivial
        · cases htables : loadTables b elf64.symSize symShdr strShdr with
          | none => exact .ret trivial
          | some tables =>
            cases hrels : readAt b relShdr.offset (relShdr.size / relaSize * relaSize) with
            | none => exact .ret trivial
            | some rels =>
              obtain ⟨hstrtab, hsyms⟩ := loadTables_spec htables
              refine runs_mapM_of_runs fun k hk ↦ ?_
              exact readRelocation_runs hstrtab hsyms (size_of_readAt hrels) (List.mem_range.mp hk)

/-- The jump that is found lies in the entry. -/
theorem findJump_runs {code : Buffer} {off entsz : ℕ} (hentry : off + entsz ≤ code.size) (j : ℕ) :
    Runs (findJump code off entsz j) fun found ↦ ∀ jump ∈ found, jump + 6 ≤ entsz := by
  induction hn : entsz - j using Nat.strong_induction_on generalizing j with
  | h n ih =>
    rw [findJump]
    by_cases hroom : j + 6 ≤ entsz
    · have hnext := @ih (entsz - (j + 1)) (by omega) (j + 1) rfl
      rw [dif_pos hroom]
      refine Runs.readNat _ rfl (by omega) ?_
      split_ifs
      · exact hnext
      · refine Runs.readNat _ rfl (by omega) ?_
        split_ifs
        · exact hnext
        · refine .ret ?_
          rintro jump ⟨⟩
          exact hroom
    · rw [dif_neg hroom]
      exact .ret fun jump hjump ↦ by cases hjump

theorem readPltEntry_runs {code : Buffer} {entsz off : ℕ} (shAddr : ℕ)
    (hentry : off + entsz ≤ code.size) :
    Runs (readPltEntry code shAddr entsz off) fun _ ↦ True := by
  refine (findJump_runs hentry 0).bind fun found hfound ↦ ?_
  cases found with
  | none => exact .ret trivial
  | some j =>
    have hjump := hfound j rfl
    refine Runs.readInt _ rfl (by omega) ?_
    exact .ret trivial

theorem pltLoop_runs (code : Buffer) (shAddr entsz off : ℕ) :
    Runs (pltLoop code shAddr entsz off) fun _ ↦ True := by
  induction hn : code.size - off using Nat.strong_induction_on generalizing off with
  | h n ih =>
    rw [pltLoop]
    split_ifs with hentry
    · refine (readPltEntry_runs shAddr hentry.2).bind fun entry _ ↦ ?_
      refine (@ih (code.size - (off + entsz)) (by omega) (off + entsz) rfl).bind fun rest _ ↦ ?_
      exact .ret trivial
    · exact .ret trivial

theorem readPltSection_runs {names : Buffer} (hnames : Terminated names) (b : Buffer) (sh : Shdr) :
    Runs (readPltSection b names sh) fun _ ↦ True := by
  unfold readPltSection
  by_cases hskip : sh.type ≠ shtProgbits ∨ names.size ≤ sh.name
  · rw [if_pos hskip]
    exact .ret trivial
  · rw [if_neg hskip]
    push Not at hskip
    refine (cString_runs hnames hskip.2).bind fun sname _ ↦ ?_
    by_cases hplt : (!".plt".toList.isPrefixOf sname || !inFile b sh) = true
    · rw [if_pos hplt]
      exact .ret trivial
    · rw [if_neg hplt]
      cases readAt b sh.offset sh.size with
      | none => exact .ret trivial
      | some code => exact pltLoop_runs code sh.addr _ 0

theorem readPlt_runs (b : Buffer) (ehdr : Ehdr) (shdrs : List Shdr)
    (relocations : List ElfRelocation) : Runs (readPlt b ehdr shdrs relocations) fun _ ↦ True := by
  unfold readPlt
  split_ifs
  · cases hnames : sectionNames b ehdr shdrs with
    | none => exact .ret trivial
    | some names =>
      refine (runs_mapM_of_runs fun sh _ ↦ ?_).bind fun entries _ ↦ .ret trivial
      exact readPltSection_runs (sectionNames_spec hnames) b sh
  · exact .ret trivial

end Passes

/-! ### Modules -/

section Modules

variable {fs : FileSystem} {path : Text}

/-- A 64-bit file without full symbol table, in which the walk over the notes overruns. -/
structure NotesLeave (fs : FileSystem) (path : Text) (b header : Buffer) (ehdr : Ehdr)
    (shdrs : List Shdr) : Prop where
  content : fs.content path = some b
  start : readAt b 0 elf64.ehdrSize = some header
  magic : header.bytes 0 4 = [0x7F, 0x45, 0x4C, 0x46]
  fileClass : header.nat 1 4 = 2
  headers : readHeaders elf64 b header = .ok (some (ehdr, shdrs))
  stripped : ¬HasSymtab shdrs
  notes : NotesOverrun fs b shdrs

/-- The file has notes whose walk leaves the buffer. -/
def LeavesNotes (fs : FileSystem) (path : Text) : Prop :=
  ∃ b header ehdr shdrs, NotesLeave fs path b header ehdr shdrs

theorem readElf64_outside (fs : FileSystem) (path : Text) (b : Buffer) (followDebugLink : Bool)
    (ehdr : Ehdr) (shdrs : List Shdr) :
    OutsideIff (followDebugLink = true ∧ ¬HasSymtab shdrs ∧ NotesOverrun fs b shdrs)
      (readElf64 fs path b followDebugLink ehdr shdrs) fun _ ↦ True := by
  refine .bind (readSymtabs_runs fits_elf64 shdrs) fun symtabs hsymtabs ↦ ?_
  have hdebug : OutsideIff (followDebugLink = true ∧ ¬HasSymtab shdrs ∧ NotesOverrun fs b shdrs)
      (separateDebugFile fs path b followDebugLink ehdr shdrs symtabs) fun _ ↦ True := by
    unfold separateDebugFile
    by_cases hfollow : (!symtabs.any ElfSymtab.full && followDebugLink) = true
    · rw [if_pos hfollow]
      rw [Bool.and_eq_true, Bool.not_eq_true', Bool.eq_false_iff, Ne, hsymtabs] at hfollow
      refine (findSeparateDebugFile_outside fs b path ehdr shdrs).congr ?_
      rw [and_iff_right hfollow.2, and_iff_right hfollow.1]
    · rw [if_neg hfollow]
      refine .of_runs (fun h ↦ hfollow ?_) (.ret trivial)
      rw [Bool.and_eq_true, Bool.not_eq_true', Bool.eq_false_iff, Ne, hsymtabs]
      exact ⟨h.2.1, h.1⟩
  refine hdebug.andThen fun separateDebug _ ↦ ?_
  refine (runs_mapM_of_runs fun sh _ ↦ readRelocations_runs b shdrs sh).bind fun relocations _ ↦ ?_
  exact (readPlt_runs b ehdr shdrs relocations.flatten).bind fun plt _ ↦ .ret trivial

theorem readElf32_runs (b : Buffer) : Runs (readElf32 b) fun _ ↦ True := by
  unfold readElf32
  cases hheader : readAt b 0 elf32.ehdrSize with
  | none => exact .ret trivial
  | some header =>
    refine (readHeaders_runs fits_elf32 (size_of_readAt hheader)).bind fun found _ ↦ ?_
    cases found with
    | none => exact .ret trivial
    | some headers =>
      exact (readSymtabs_runs fits_elf32 headers.2).bind fun symtabs _ ↦ .ret trivial

theorem readModule_outside (fs : FileSystem) (path : Text) (followDebugLink : Bool) :
    OutsideIff (followDebugLink = true ∧ LeavesNotes fs path) (readModule fs path followDebugLink)
      fun _ ↦ True := by
  unfold readModule
  cases hcontent : fs.content path with
  | none =>
    refine .of_runs ?_ (.ret trivial)
    rintro ⟨-, b, header, ehdr, shdrs, h⟩
    cases hcontent.symm.trans h.content
  | some b =>
    dsimp only
    cases hheader : readAt b 0 elf64.ehdrSize with
    | none =>
      refine .of_runs ?_ (.ret trivial)
      rintro ⟨-, b', header, ehdr, shdrs, h⟩
      obtain rfl := Option.some.inj (hcontent.symm.trans h.content)
      cases hheader.symm.trans h.start
    | some header =>
      have hsize : header.size = 64 := size_of_readAt hheader
      -- What a file that leaves its notes has in its header.
      have hfound : ∀ {b' header' : Buffer} {ehdr : Ehdr} {shdrs : List Shdr},
          NotesLeave fs path b' header' ehdr shdrs → b' = b ∧ header' = header := by
        intro b' header' ehdr shdrs h
        obtain rfl := Option.some.inj (hcontent.symm.trans h.content)
        exact ⟨rfl, Option.some.inj (h.start.symm.trans hheader)⟩
      refine .read 0 rfl (by omega) ?_
      refine .readNat 4 rfl (by omega) ?_
      refine .test ?_ (.ret trivial) fun hmagic ↦ ?_
      · rintro ⟨-, b', header', ehdr, shdrs, h⟩
        obtain ⟨rfl, rfl⟩ := hfound h
        exact not_not.mpr h.magic
      · refine .test ?_ ((readElf32_runs b).bind fun file _ ↦ .ret trivial) fun h32 ↦ ?_
        · rintro ⟨-, b', header', ehdr, shdrs, h⟩
          obtain ⟨rfl, rfl⟩ := hfound h
          rw [h.fileClass]
          decide
        · refine .test ?_ (.ret trivial) fun h64 ↦ ?_
          · rintro ⟨-, b', header', ehdr, shdrs, h⟩
            obtain ⟨rfl, rfl⟩ := hfound h
            exact not_not.mpr h.fileClass
          · obtain ⟨found, hheaders, -⟩ := readHeaders_runs (b := b) fits_elf64 hsize
            rw [hheaders]
            cases found with
            | none =>
              refine .of_runs ?_ (.ret trivial)
              rintro ⟨-, b', header', ehdr, shdrs, h⟩
              obtain ⟨rfl, rfl⟩ := hfound h
              cases hheaders.symm.trans h.headers
            | some headers =>
              obtain ⟨ehdr, shdrs⟩ := headers
              have himage := readElf64_outside fs path b followDebugLink ehdr shdrs
              refine (himage.andThen fun image _ ↦ .ret trivial).congr (and_congr_right fun _ ↦ ?_)
              constructor
              · rintro ⟨hstripped, hnotes⟩
                exact ⟨b, header, ehdr, shdrs, hcontent, hheader, not_not.mp hmagic, not_not.mp h64,
                  hheaders, hstripped, hnotes⟩
              · rintro ⟨b', header', ehdr', shdrs', h⟩
                obtain ⟨rfl, rfl⟩ := hfound h
                cases hheaders.symm.trans h.headers
                exact ⟨h.stripped, h.notes⟩

theorem parseElfFile_outside (fs : FileSystem) (demangle : Text → Option Text)
    (path moduleName : Text) (baseAddr : ℕ) (s : SymbolResolver) :
    OutsideIff (LeavesNotes fs path) (parseElfFile fs demangle path moduleName baseAddr s)
      fun _ ↦ True := by
  refine ((readModule_outside fs path true).congr (and_iff_right rfl)).andThen fun file _ ↦ ?_
  have hdebug : Runs (readDebugFile fs path file) fun _ ↦ True := by
    unfold readDebugFile
    cases debugFileOf path file with
    | none => exact .ret trivial
    | some dbg => exact (readModule_outside fs dbg false).runs fun h ↦ by cases h.1
  exact hdebug.bind fun debugFile _ ↦ .ret trivial

/-- Reading the file and its debug file keeps to the loaded buffers and comes to an end, exactly if
the notes of the file do not overrun. -/
theorem parseElfFile_inside_iff (fs : FileSystem) (demangle : Text → Option Text)
    (path moduleName : Text) (baseAddr : ℕ) (s : SymbolResolver) :
    (∃ s', parseElfFile fs demangle path moduleName baseAddr s = .ok s') ↔ ¬LeavesNotes fs path := by
  rcases parseElfFile_outside fs demangle path moduleName baseAddr s with
    ⟨hinside, s', hs', -⟩ | ⟨hleaves, hfault⟩
  · exact iff_of_true ⟨s', hs'⟩ hinside
  · refine iff_of_false ?_ (not_not.mpr hleaves)
    rintro ⟨s', hs'⟩
    cases hfault.symm.trans hs'

end Modules

/-- A 64-bit file with one section: a note with a name of `2 ^ 32 - 1` bytes and a build id of two,
which end the file. -/
def shortNote : Buffer :=
  ⟨142, fun i ↦ ([(0, 0x7F), (1, 0x45), (2, 0x4C), (3, 0x46), (4, 2), (40, 64), (60, 1), (68, 7),
    (88, 128), (96, 14), (128, 0xFF), (129, 0xFF), (130, 0xFF), (131, 0xFF), (132, 2), (136, 3),
    (140, 0x47), (141, 0x4E)].lookup i).getD 0⟩

theorem shortNote_headers : ∃ header, readAt shortNote 0 elf64.ehdrSize = some header ∧
    header.bytes 0 4 = [0x7F, 0x45, 0x4C, 0x46] ∧ header.nat 1 4 = 2 ∧
      readHeaders elf64 shortNote header =
        .ok (some (⟨0, 64, 1, 0⟩, [⟨0, shtNote, 0, 128, 14, 0, 0⟩])) :=
  ⟨_, rfl, rfl, rfl, rfl⟩

/-- The three bytes of its owner are compared, of which the last is behind the section. -/
theorem shortNote_overread :
    ¬∃ s', parseElfFile ⟨fun _ ↦ some shortNote, fun _ ↦ false⟩ (fun _ ↦ none) ['a'] ['a'] 0 .new =
      .ok s' := by
  rintro ⟨s', hs'⟩
  obtain ⟨header, hstart, hmagic, hclass, hheaders⟩ := shortNote_headers
  have hover : Overruns ⟨14, fun i ↦ shortNote.byte (128 + i)⟩ 0 :=
    ⟨rfl, by decide, rfl, rfl⟩
  have hleaves : LeavesNotes ⟨fun _ ↦ some shortNote, fun _ ↦ false⟩ ['a'] := by
    refine ⟨shortNote, header, _, _, rfl, hstart, hmagic, hclass, hheaders, ?_, ?_⟩
    · rintro ⟨sh, hsh, htype, -⟩
      rw [List.mem_singleton.mp hsh] at htype
      cases htype
    · exact .here rfl (.here 0) hover
  rcases parseElfFile_outside ⟨fun _ ↦ some shortNote, fun _ ↦ false⟩ (fun _ ↦ none) ['a'] ['a'] 0
    .new with ⟨hinside, -⟩ | ⟨-, hfault⟩
  · exact hinside hleaves
  · cases hfault.symm.trans hs'

end Cecore.Symbols.Elf
