import Cecore.AutoAsm.Check
import Cecore.AutoAsm.StructLayout
import Cecore.Core.Digits

/-!
# Named labels

`autoDeclareNamedLabels` of `core/autoasm.cpp` declares the names of `name:` lines as labels before
the script is parsed. It leaves out the names that the script declares in some other way, but not
those that are registered symbols: a line with such a name binds the new label and the script goes on
where it was (`registeredLine_iff`).
-/

set_option autoImplicit false
set_option relaxedAutoImplicit false

namespace Cecore.AutoAsm

open Platform Emit Library.Effects

/-! ### The pass -/

/-- The directives whose first argument is a name that they declare. -/
def namingDirectives : List Text :=
  ["ALLOC(".toList, "GLOBALALLOC(".toList, "KALLOC(".toList, "DEFINE(".toList,
    "REGISTERSYMBOL(".toList, "AOBSCANMODULE(".toList, "AOBSCANREGION(".toList,
    "AOBSCANALL(".toList, "AOBSCAN(".toList]

/-- `firstArg`. -/
def firstArg (line : Text) (start : ℕ) : Text :=
  trim ((line.drop start).takeWhile fun c ↦ decide (c ≠ ',' ∧ c ≠ ')'))

/-- A name that a label can have: letters, digits and underscores, no digit in front. -/
def isLabelName (name : Text) : Bool :=
  name.head?.any (fun c ↦ isIdentChar c && !isDigit c) && name.all isIdentChar

/-- What a trimmed line declares: the names, or the name of a label definition. -/
inductive NamedLine
  | declares (names : List Text)
  | defines (name : Text)
  | other

def namedLine (line : Text) : NamedLine :=
  let upper := toUpper line
  match namingDirectives.find? fun start ↦ startsWith upper start with
  | some start => .declares [firstArg line start.length]
  | none =>
    if startsWith upper "LABEL(".toList ∧ line.getLast? = some ')' then
      .declares ((getlines ',' (line.drop 6).dropLast).map trim)
    else if isSimpleLabelDefinition line ∧ isLabelName line.dropLast = true ∧
        startsWith line.dropLast "__anon_".toList = false then .defines line.dropLast
    else .other

def namedLines (code : Text) : List NamedLine := (getlines '\n' code).map fun raw ↦ namedLine (trim raw)

def NamedLine.declared : NamedLine → List Text
  | .declares names => names
  | _ => []

def NamedLine.defined : NamedLine → List Text
  | .defines name => [name]
  | _ => []

/-- The names to declare, in the order in which they are defined. -/
def autoDeclared (code : Text) : List Text :=
  ((namedLines code).flatMap NamedLine.defined).eraseDups.filter fun name ↦
    !((namedLines code).flatMap NamedLine.declared).contains name

def labelLine (name : Text) : Text := "label(".toList ++ name ++ [')']

def autoDeclareNamedLabels (code : Text) : Text :=
  ((autoDeclared code).map labelLine).flatMap (fun line ↦ line ++ ['\n']) ++ code

/-! ### The lines of the pass -/

theorem labelLine_eq (name : Text) : labelLine name = "label(".toList ++ name ++ [')'] := rfl

theorem isLabelName_of_mem {code name : Text} (h : name ∈ autoDeclared code) :
    isLabelName name = true := by
  have hdefined := List.mem_eraseDups.mp (List.mem_filter.mp h).1
  obtain ⟨line, hline, hname⟩ := List.mem_flatMap.mp hdefined
  obtain ⟨raw, -, rfl⟩ := List.mem_map.mp hline
  unfold namedLine at hname
  dsimp only at hname
  split at hname
  · cases hname
  · split_ifs at hname with hlabel hdefines
    · cases hname
    · rw [List.mem_singleton.mp hname]
      exact hdefines.2.1
    · cases hname

theorem isIdentChar_of_mem {name : Text} (h : isLabelName name = true) {c : Char} (hc : c ∈ name) :
    isIdentChar c = true :=
  List.all_eq_true.mp (Bool.and_eq_true _ _ |>.mp h).2 c hc

theorem labelName_ne_nil {name : Text} (h : isLabelName name = true) : name ≠ [] := by
  rintro rfl
  exact absurd h (by decide)

theorem labelLine_flat {code line : Text} (hline : line ∈ (autoDeclared code).map labelLine) :
    '\n' ∉ line := by
  obtain ⟨name, hname, rfl⟩ := List.mem_map.mp hline
  have hident := isLabelName_of_mem hname
  rw [labelLine_eq, List.mem_append, List.mem_append, List.mem_singleton, not_or, not_or]
  refine ⟨⟨by decide, fun hc ↦ ?_⟩, by decide⟩
  exact absurd (isIdentChar_of_mem hident hc) (by decide)

/-- The lines that are parsed are those of the pass and then those of the script. -/
theorem getlines_autoDeclareNamedLabels (code : Text) :
    getlines '\n' (autoDeclareNamedLabels code) =
      (autoDeclared code).map labelLine ++ getlines '\n' code :=
  getlines_flatMap_append (fun _ ↦ labelLine_flat) code

/-! ### Parsing the lines of the pass -/

theorem isIdentChar_plain {c : Char} (h : isIdentChar c = true) :
    isBlank c = false ∧ c ≠ ',' ∧ c ≠ '/' ∧ c ≠ singleQuote ∧ c ≠ doubleQuote := by
  have hne : ∀ d : Char, isIdentChar d = false → c ≠ d := by
    rintro d hd rfl
    rw [hd] at h
    exact Bool.noConfusion h
  refine ⟨?_, hne ',' (by decide), hne '/' (by decide), hne singleQuote (by decide),
    hne doubleQuote (by decide)⟩
  have h1 := hne ' ' (by decide)
  have h2 := hne '\t' (by decide)
  have h3 := hne '\r' (by decide)
  have h4 := hne '\n' (by decide)
  simp [isBlank, h1, h2, h3, h4]

theorem beforeComment_plain {line : Text}
    (h : ∀ c ∈ line, c ≠ '/' ∧ c ≠ singleQuote ∧ c ≠ doubleQuote) :
    beforeComment false false line = line := by
  induction line with
  | nil => rfl
  | cons c rest ih =>
    rw [List.forall_mem_cons] at h
    rw [beforeComment, if_neg (fun hc ↦ h.1.2.1 hc.1), if_neg (fun hc ↦ h.1.2.2 hc.1),
      if_neg (fun hc ↦ h.1.1 hc.2.2.1), ih h.2]

theorem getlinesFrom_whole {separator : Char} {text : Text} (h : separator ∉ text)
    {current : Text} (hne : current ≠ []) :
    getlinesFrom separator current text = [current.reverse ++ text] := by
  induction text generalizing current with
  | nil => rw [getlinesFrom, if_neg hne, List.append_nil]
  | cons c rest ih =>
    rw [List.mem_cons, not_or] at h
    rw [getlinesFrom, if_neg (Ne.symm h.1), ih h.2 (List.cons_ne_nil _ _), List.reverse_cons,
      List.append_assoc, List.singleton_append]

theorem getlines_whole {separator : Char} {text : Text} (hne : text ≠ [])
    (h : separator ∉ text) : getlines separator text = [text] := by
  cases text with
  | nil => exact absurd rfl hne
  | cons c rest =>
    rw [List.mem_cons, not_or] at h
    rw [getlines, getlinesFrom, if_neg (Ne.symm h.1),
      getlinesFrom_whole h.2 (List.cons_ne_nil _ _)]
    rfl

theorem trim_labelLine (name : Text) : trim (labelLine name) = labelLine name := by
  refine trim_eq_self rfl ?_
  rw [labelLine_eq, List.getLast?_concat]
  rfl

theorem stripInlineComment_labelLine {name : Text} (h : isLabelName name = true) :
    stripInlineComment (labelLine name) = labelLine name := by
  rw [stripInlineComment, beforeComment_plain, trim_labelLine]
  intro c hc
  simp only [labelLine_eq, List.mem_append, List.mem_singleton] at hc
  rcases hc with (hc | hc) | rfl
  · revert c
    decide
  · obtain ⟨-, -, hslash, hsingle, hdouble⟩ := isIdentChar_plain (isIdentChar_of_mem h hc)
    exact ⟨hslash, hsingle, hdouble⟩
  · decide

theorem toUpper_labelLine (name : Text) :
    toUpper (labelLine name) = "LABEL(".toList ++ toUpper (name ++ [')']) := by
  rw [labelLine_eq, List.append_assoc, toUpper, List.map_append]
  rfl

theorem startsWith_labelLine (name : Text) :
    startsWith (toUpper (labelLine name)) "LABEL(".toList = true := by
  rw [toUpper_labelLine]
  exact List.isPrefixOf_iff_prefix.mpr (List.prefix_append _ _)

/-- A text that is no start of `LABEL(`, nor starts with it, does not start a line of the pass. -/
theorem not_startsWith_labelLine (name : Text) {start : Text}
    (hnot : startsWith "LABEL(".toList start = false)
    (hnot' : startsWith start "LABEL(".toList = false) :
    startsWith (toUpper (labelLine name)) start = false :=
  not_startsWith (startsWith_labelLine name) hnot hnot'

theorem labelLine_ne (name : Text) {text : Text}
    (hnot : startsWith text "LABEL(".toList = false) : toUpper (labelLine name) ≠ text := by
  rintro rfl
  rw [startsWith_labelLine] at hnot
  exact Bool.noConfusion hnot

theorem callArgs_labelLine (name : Text) :
    callArgs "LABEL".toList (labelLine name) (toUpper (labelLine name)) = some name := by
  rw [callArgs, if_pos]
  · rw [labelLine_eq, List.append_assoc]
    change some ((name ++ [')']).dropLast) = some name
    rw [List.dropLast_concat]
  · refine ⟨startsWith_labelLine name, ?_⟩
    rw [labelLine_eq, List.getLast?_concat]

theorem parseDeclaration_labelLine {name : Text} (h : isLabelName name = true) (p : Parsed) :
    parseDeclaration (labelLine name) (toUpper (labelLine name)) p =
      some ({ p with labels := p.labels ++ [⟨name, 0⟩] } : Parsed).next := by
  have hplain (c : Char) (hc : c ∈ name) := isIdentChar_plain (isIdentChar_of_mem h hc)
  have htrim : trim name = name := by
    refine trim_eq_self ?_ ?_
    · rw [Option.all_eq_true]
      exact fun c hc ↦ by rw [(hplain c (List.mem_of_mem_head? hc)).1]; rfl
    · rw [Option.all_eq_true]
      exact fun c hc ↦ by rw [(hplain c (List.mem_of_getLast? hc)).1]; rfl
  have hother (keyword : Text) (hnot : startsWith "LABEL(".toList (keyword ++ ['(']) = false)
      (hnot' : startsWith (keyword ++ ['(']) "LABEL(".toList = false) :
      callArgs keyword (labelLine name) (toUpper (labelLine name)) = none :=
    callArgs_of_not_startsWith (not_startsWith_labelLine name hnot hnot')
  have hunlock := @not_startsWith_labelLine name "UNLOCK ".toList (by decide) (by decide)
  have hbreak : ¬(toUpper (labelLine name) = "BREAK".toList ∨
      startsWith (toUpper (labelLine name)) "BREAK ".toList = true ∨
      startsWith (toUpper (labelLine name)) "BREAK(".toList = true) := by
    rw [@not_startsWith_labelLine name "BREAK ".toList (by decide) (by decide),
      @not_startsWith_labelLine name "BREAK(".toList (by decide) (by decide)]
    rintro (hbreak | hbreak | hbreak)
    · exact labelLine_ne name (by decide) hbreak
    · exact Bool.noConfusion hbreak
    · exact Bool.noConfusion hbreak
  rw [parseDeclaration, hother "ALLOC".toList (by decide) (by decide),
    hother "GLOBALALLOC".toList (by decide) (by decide),
    hother "KALLOC".toList (by decide) (by decide), callArgs_labelLine]
  dsimp only
  rw [if_neg (by rw [hunlock]; exact Bool.false_ne_true), if_neg hbreak,
    getlines_whole (labelName_ne_nil h) fun hc ↦ (hplain _ hc).2.1 rfl, List.map_cons, htrim]
  rfl

/-- A line of the pass declares its name. -/
theorem parseLine_labelLine {env : Environment} {globalSymbols : Text → Option ℕ}
    {proc : Option Target} {fuel includeDepth : ℕ} {name : Text} (h : isLabelName name = true)
    (p : Parsed) :
    parseLine env globalSymbols proc (fuel + 1) includeDepth (labelLine name) p =
      some (true, { p with labels := p.labels ++ [⟨name, 0⟩] }) := by
  have hhead : ¬(labelLine name = [] ∨ (labelLine name).head? = some '/' ∨
      (labelLine name).head? = some ';') := by
    simp [labelLine_eq]
  rw [parseLine_eq]
  dsimp only
  rw [trim_labelLine, if_neg hhead, stripInlineComment_labelLine h,
    if_neg (fun hnil ↦ hhead (.inl hnil)), if_neg (labelLine_ne name (by decide)),
    if_neg (labelLine_ne name (by decide)), if_neg (labelLine_ne name (by decide)),
    parseDeclaration_labelLine h]
  rfl

theorem parseAll_append {parse : Text → Parsed → Option (Bool × Parsed)} {before after : List Text}
    {p p' : Parsed} (h : parseAll parse (before ++ after) p = some (true, p')) :
    ∃ mid, parseAll parse before p = some (true, mid) ∧
      parseAll parse after mid = some (true, p') := by
  induction before generalizing p with
  | nil => exact ⟨p, rfl, h⟩
  | cons line rest ih =>
    rw [List.cons_append, parseAll] at h
    rw [parseAll]
    split at h
    · exact ih h
    · next hstop => exact absurd h (hstop _)

/-- The lines of the pass declare its names, in order. -/
theorem parseAll_labelLines {env : Environment} {globalSymbols : Text → Option ℕ}
    {proc : Option Target} {fuel includeDepth : ℕ} {names : List Text}
    (hnames : ∀ name ∈ names, isLabelName name = true) {p p' : Parsed}
    (h : parseAll (parseLine env globalSymbols proc fuel includeDepth) (names.map labelLine) p =
      some (true, p')) :
    p' = { p with labels := p.labels ++ names.map fun name ↦ ⟨name, 0⟩ } := by
  induction names generalizing p with
  | nil =>
    cases h
    rw [List.map_nil, List.append_nil]
  | cons name rest ih =>
    rw [List.forall_mem_cons] at hnames
    rw [List.map_cons, parseAll] at h
    cases fuel with
    | zero => cases h
    | succ fuel =>
      rw [parseLine_labelLine hnames.1] at h
      rw [ih hnames.2 h, List.map_cons, List.append_assoc, List.singleton_append]

/-! ### Labels are only added -/

theorem addAlloc_labels {p p' : Parsed} {args word logged : Text} {exported : Bool}
    (h : addAlloc p args word logged exported = some (true, p')) : p'.labels = p.labels := by
  unfold addAlloc at h
  split at h
  · cases h
  · cases h
    rfl

theorem parseDeclaration_labels {line upper : Text} {p p' : Parsed}
    (h : parseDeclaration line upper p = some (some (true, p'))) : p.labels <+: p'.labels := by
  unfold parseDeclaration at h
  split at h
  · exact (addAlloc_labels (Option.some.inj h)).symm ▸ List.prefix_refl _
  split at h
  · exact (addAlloc_labels (Option.some.inj h)).symm ▸ List.prefix_refl _
  split at h
  · exact (addAlloc_labels (Option.some.inj h)).symm ▸ List.prefix_refl _
  split at h
  · cases h
    exact List.prefix_refl _
  split at h
  · cases h
  split at h
  · cases h
    exact List.prefix_append _ _
  split at h
  · split at h <;> cases h <;> exact List.prefix_refl _
  split at h
  · cases h
    exact List.prefix_refl _
  · cases h

theorem addScan_labels (p : Parsed) (command name : Text) (found : List ℕ)
    (place notFound : Text) : (p.addScan command name found place notFound).labels = p.labels := by
  cases found <;> rfl

theorem parseScan_labels {env : Environment} {globalSymbols : Text → Option ℕ} {t : Target}
    {line upper : Text} {p p' : Parsed}
    (h : parseScan env globalSymbols t line upper p = some (some (true, p'))) :
    p'.labels = p.labels := by
  have hnext {q : Parsed} (hq : q.next = some (true, p')) (hlabels : q.labels = p.labels) :
      p'.labels = p.labels := by
    cases hq
    exact hlabels
  unfold parseScan at h
  split at h
  · have h := Option.some.inj h
    split at h
    · dsimp only at h
      split_ifs at h
      · exact hnext h rfl
      · exact hnext h (addScan_labels _ _ _ _ _ _)
    · exact hnext h rfl
  split at h
  · have h := Option.some.inj h
    split at h
    · obtain ⟨found, -, h⟩ := Option.bind_eq_some_iff.mp h
      exact hnext h (addScan_labels _ _ _ _ _ _)
    · exact hnext h rfl
  split at h
  · have h := Option.some.inj h
    split at h
    · split at h
      · exact hnext h rfl
      · exact hnext h (addScan_labels _ _ _ _ _ _)
    · exact hnext h rfl
  split at h
  · have h := Option.some.inj h
    split at h
    · obtain ⟨found, -, h⟩ := Option.bind_eq_some_iff.mp h
      exact hnext h (addScan_labels _ _ _ _ _ _)
    · exact hnext h rfl
  · cases h

theorem logAssert_labels (p : Parsed) (args : Text) : (p.logAssert args).labels = p.labels := by
  unfold Parsed.logAssert
  split <;> rfl

theorem parseDeferred_labels {hasProc : Bool} {line upper : Text} {p p' : Parsed}
    (h : parseDeferred hasProc line upper p = some p') : p'.labels = p.labels := by
  unfold parseDeferred at h
  repeat' split at h
  all_goals
    cases h <;> first | rfl | exact logAssert_labels _ _

theorem parseAll_labels {parse : Text → Parsed → Option (Bool × Parsed)}
    (hline : ∀ line p p', parse line p = some (true, p') → p.labels <+: p'.labels)
    {lines : List Text} {p p' : Parsed} (h : parseAll parse lines p = some (true, p')) :
    p.labels <+: p'.labels := by
  induction lines generalizing p with
  | nil =>
    cases h
    exact List.prefix_refl _
  | cons line rest ih =>
    rw [parseAll] at h
    split at h
    · next middle hmiddle => exact (hline _ _ _ hmiddle).trans (ih h)
    · next hstop => exact absurd h (hstop _)

theorem parseRest_labels {env : Environment} {globalSymbols : Text → Option ℕ}
    {proc : Option Target} {fuel : ℕ}
    (hlines : ∀ includeDepth line p p',
      parseLine env globalSymbols proc fuel includeDepth line p = some (true, p') →
      p.labels <+: p'.labels)
    {includeDepth : ℕ} {line : Text} {p p' : Parsed}
    (h : parseRest env globalSymbols proc fuel includeDepth line p = some (true, p')) :
    p.labels <+: p'.labels := by
  unfold parseRest at h
  split at h
  · next outcome hscan =>
    obtain ⟨t, -, hscan⟩ := Option.bind_eq_some_iff.mp hscan
    rw [h] at hscan
    exact (parseScan_labels hscan).symm ▸ List.prefix_refl _
  split at h
  · dsimp only at h
    split_ifs at h
    · cases h
    split at h
    · cases h
      exact List.prefix_refl _
    · split at h
      · next middle hmiddle =>
        have hgrown := parseAll_labels (hlines _) hmiddle
        cases h
        exact hgrown
      · next hstop => exact absurd h (hstop _)
  split at h
  · next q hdeferred =>
    cases h
    exact (parseDeferred_labels hdeferred).symm ▸ List.prefix_refl _
  · dsimp only at h
    split at h
    · cases h
      exact List.prefix_refl _
    · split_ifs at h
      · have hgrown := parseAll_labels (hlines _) h
        exact hgrown
      · cases h
      · cases h

/-- Parsing only adds labels. -/
theorem parseLine_labels {env : Environment} {globalSymbols : Text → Option ℕ}
    {proc : Option Target} (fuel : ℕ) {includeDepth : ℕ} {line : Text} {p p' : Parsed}
    (h : parseLine env globalSymbols proc fuel includeDepth line p = some (true, p')) :
    p.labels <+: p'.labels := by
  induction fuel generalizing includeDepth line p p' with
  | zero => cases h
  | succ fuel ih =>
    rw [parseLine_eq] at h
    dsimp only at h
    split_ifs at h
    · cases h
      exact List.prefix_refl _
    · cases h
      exact List.prefix_refl _
    · cases h
      exact List.prefix_refl _
    · cases h
      exact List.prefix_refl _
    · cases h
      exact List.prefix_refl _
    · split at h
      · next outcome hdeclaration =>
        rw [h] at hdeclaration
        exact parseDeclaration_labels hdeclaration
      · exact parseRest_labels (fun _ _ _ _ ↦ ih) h

/-! ### The names of the labels stay -/

/-- The labels are those of before, at other addresses. -/
def SameNames (s s' : Run) : Prop := s'.labels.map Label.name = s.labels.map Label.name

theorem bindLabel_names (name : Text) (address : ℕ) (labels : List Label) :
    (bindLabel name address labels).map Label.name = labels.map Label.name := by
  induction labels with
  | nil => rfl
  | cons l rest ih =>
    rw [bindLabel]
    split_ifs with hname
    · rw [List.map_cons, List.map_cons, hname]
    · rw [List.map_cons, List.map_cons, ih]

section Emission

variable {env : Environment} {script : Script} {s : Run}

theorem addLog_names (entry : Text) : Along SameNames (addLog entry) s := Along.update rfl

theorem patchMemory_names (addr : ℕ) (bytes : List UInt8) :
    Along SameNames (patchMemory env addr bytes) s := by
  unfold patchMemory
  refine Along.read ?_
  split
  · exact Along.raise _
  · refine Along.updateThen rfl (Along.updateGetThen rfl ?_)
    split_ifs
    · exact Along.ret _
    · refine Along.updateGetThen rfl (Along.updateGetThen rfl ?_)
      split_ifs
      · exact Along.ret _
      · exact Along.raise _

theorem emitHere_names (bytes : List UInt8) : Along SameNames (emitHere env bytes) s := by
  unfold emitHere
  exact Along.read (Along.andThen (patchMemory_names _ _) fun _ _ _ ↦ Along.update rfl)

theorem emitLabel_names (labelName : Text) : Along SameNames (emitLabel script labelName) s := by
  unfold emitLabel
  refine Along.read ?_
  split
  · exact Along.update rfl
  · split
    · split_ifs
      · exact Along.raise _
      · exact Along.update (bindLabel_names _ _ _)
    · dsimp only
      split_ifs
      · exact Along.raise _
      · exact Along.update rfl

theorem emitFullAccess_names (args : Text) :
    Along SameNames (emitFullAccess env script args) s := by
  unfold emitFullAccess
  refine Along.read ?_
  split
  · exact Along.raise _
  · dsimp only
    split
    · exact Along.raise _
    · split_ifs
      · exact Along.raise _
      · refine Along.updateGetThen rfl ?_
        split
        · exact Along.raise _
        · exact addLog_names _

theorem emitAssert_names (args : Text) : Along SameNames (emitAssert script args) s := by
  unfold emitAssert
  refine Along.read ?_
  dsimp only
  split
  · exact Along.raise _
  · exact addLog_names _

theorem emitUnregister_names (names : List Text) : Along SameNames (emitUnregister names) s := by
  induction names generalizing s with
  | nil => exact Along.ret _
  | cons name rest ih =>
    unfold emitUnregister
    exact Along.updateThen rfl (Along.andThen (addLog_names _) fun _ _ _ ↦ ih)

theorem deallocTracked_names (name : Text) (entry : AllocEntry) :
    Along SameNames (deallocTracked env name entry) s := by
  unfold Along
  rw [deallocTracked_eq]
  rcases s.target.free env.kernel entry.address entry.size with ⟨refused, after⟩
  cases refused <;> exact Relation.ReflTransGen.single rfl

theorem emitDealloc_names (names : List Text) : Along SameNames (emitDealloc env names) s := by
  induction names generalizing s with
  | nil => exact Along.ret _
  | cons name rest ih =>
    unfold emitDealloc
    refine Along.read ?_
    split
    · exact Along.andThen (addLog_names _) fun _ _ _ ↦ ih
    · exact Along.andThen (deallocTracked_names _ _) fun _ _ _ ↦ ih

theorem emitCreateThread_names (trimmedLine : Text) (thread : DeferredThread) :
    Along SameNames (emitCreateThread trimmedLine thread) s := by
  unfold emitCreateThread
  exact Along.updateThen rfl (addLog_names _)

theorem emitCreateThreadAndWait_names (trimmedLine args : Text) :
    Along SameNames (emitCreateThreadAndWait trimmedLine args) s := by
  unfold emitCreateThreadAndWait
  split
  · exact Along.raise _
  · exact Along.raise _
  · split
    · exact emitCreateThread_names _ _
    · split
      · exact Along.raise _
      · exact emitCreateThread_names _ _

theorem emitLoadBinary_names (args : Text) :
    Along SameNames (emitLoadBinary env script args) s := by
  unfold emitLoadBinary
  refine Along.read ?_
  split
  · dsimp only
    split_ifs
    · exact Along.raise _
    · split
      · exact Along.raise _
      · split_ifs
        · exact Along.raise _
        · split
          · exact Along.raise _
          · refine Along.updateThen rfl (Along.updateGetThen rfl ?_)
            split_ifs
            · exact addLog_names _
            · exact Along.raise _
  · exact Along.raise _

theorem emitLoadLibrary_names (args : Text) :
    Along SameNames (emitLoadLibrary env args) s := by
  unfold emitLoadLibrary
  dsimp only
  split_ifs
  · exact Along.raise _
  · exact Along.raise _
  · refine Along.updateGetThen rfl ?_
    split
    · exact Along.raise _
    · exact addLog_names _

theorem emitReassemble_names (addrExpr : Text) :
    Along SameNames (emitReassemble env script addrExpr) s := by
  unfold emitReassemble
  refine Along.read ?_
  dsimp only
  split_ifs
  · exact Along.ret _
  · split
    · split
      · split_ifs
        · exact Along.ret _
        · exact emitHere_names _
      · exact Along.ret _
    · exact Along.ret _

theorem emitReadMem_names (args : Text) : Along SameNames (emitReadMem env script args) s := by
  unfold emitReadMem
  refine Along.read ?_
  split
  · exact Along.ret _
  · dsimp only
    split
    · exact Along.raise _
    · split_ifs
      · exact Along.raise _
      · exact Along.ret _
      · split
        · exact Along.raise _
        · exact emitHere_names _

theorem emitFillMem_names (args : Text) : Along SameNames (emitFillMem env script args) s := by
  unfold emitFillMem
  refine Along.read ?_
  split
  · dsimp only
    split
    · split_ifs
      · exact Along.raise _
      · exact Along.raise _
      · exact Along.andThen (patchMemory_names _ _) fun _ _ _ ↦ addLog_names _
    · exact Along.raise _
  · exact Along.raise _

theorem emitNop_names (countExpr : Text) : Along SameNames (emitNop env countExpr) s := by
  unfold emitNop
  split
  · exact Along.raise _
  · exact emitHere_names _

theorem emitDs_names (text : Text) : Along SameNames (emitDs env text) s := by
  unfold emitDs
  split_ifs
  · exact Along.raise _
  · exact emitHere_names _

theorem emitData_names (op values : Text) :
    Along SameNames (emitData env script op values) s := by
  unfold emitData
  refine Along.read ?_
  split
  · exact Along.raise _
  · split_ifs
    · exact Along.ret _
    · exact emitHere_names _

theorem emitAsm_names (trimmedLine code : Text) :
    Along SameNames (emitAsm env script trimmedLine code) s := by
  unfold emitAsm
  refine Along.read ?_
  split
  · exact Along.andThen (addLog_names _) fun _ _ _ ↦ Along.raise _
  · split_ifs
    · exact Along.ret _
    · exact emitHere_names _

theorem emitAtAddress_names (trimmedLine : Text) (kind : Line) :
    Along SameNames (emitAtAddress env script trimmedLine kind) s := by
  cases kind with
  | reassemble addrExpr => exact emitReassemble_names addrExpr
  | readMem args => exact emitReadMem_names args
  | fillMem args => exact emitFillMem_names args
  | nop countExpr => exact emitNop_names countExpr
  | ds text => exact emitDs_names text
  | data op values => exact emitData_names op values
  | asm code => exact emitAsm_names trimmedLine code
  | _ => exact Along.ret _

/-- No line adds, removes or renames a label. -/
theorem emitLine_names (rawLine : Text) (s : Run) :
    Along SameNames (emitLine env script rawLine) s := by
  unfold emitLine
  dsimp only
  split
  · exact emitLabel_names _
  · exact emitFullAccess_names _
  · exact emitAssert_names _
  · exact emitUnregister_names _
  · exact emitDealloc_names _
  · exact emitCreateThread_names _ _
  · exact emitCreateThreadAndWait_names _ _
  · exact emitLoadBinary_names _
  · exact emitLoadLibrary_names _
  · refine Along.read ?_
    split_ifs
    · exact Along.raise _
    · exact emitAtAddress_names _ _

end Emission

/-! ### The names in a run -/

theorem sizeLine_names {env : Environment} {script : Script} {globalSymbols : Text → Option ℕ}
    {t : Target} {s s' : Sizing} {rawLine : Text}
    (h : sizeLine env script globalSymbols t s rawLine = .ok s') :
    s'.labels.map Label.name = s.labels.map Label.name := by
  unfold sizeLine at h
  dsimp only at h
  by_cases hempty : trim rawLine = []
  · rw [if_pos hempty] at h
    cases h
    rfl
  rw [if_neg hempty] at h
  split at h
  · unfold sizeLabel at h
    split at h
    · cases h
      rfl
    split at h
    · split_ifs at h
      · cases h
        rfl
      · cases h
        exact bindLabel_names _ _ _
    · dsimp only at h
      split_ifs at h
      cases h
      rfl
  · split_ifs at h
    · cases h
      rfl
    split at h
    · cases h
    · cases h
      rfl

theorem sizeLines_names {env : Environment} {script : Script} {globalSymbols : Text → Option ℕ}
    {t : Target} {lines : List Text} {s s' : Sizing}
    (h : sizeLines env script globalSymbols t s lines = .ok s') :
    s'.labels.map Label.name = s.labels.map Label.name := by
  induction lines generalizing s with
  | nil =>
    cases h
    rfl
  | cons line rest ih =>
    rw [sizeLines] at h
    split at h
    · cases h
    · next next hnext => exact (ih h).trans (sizeLine_names hnext)

theorem sizingPasses_names {env : Environment} {script : Script}
    {globalSymbols : Text → Option ℕ} {t : Target} {lines : List Text} {passes : ℕ}
    {labels labels' : List Label}
    (h : sizingPasses env script globalSymbols t lines passes labels = .ok labels') :
    labels'.map Label.name = labels.map Label.name := by
  induction passes generalizing labels with
  | zero => cases h
  | succ passes ih =>
    rw [sizingPasses] at h
    split at h
    · cases h
    · next sized hsized =>
      have hnames := sizeLines_names hsized
      split_ifs at h
      · exact (ih h).trans hnames
      · cases h
        exact hnames

theorem prepareLines_names {env : Environment} {script : Script} {labels : List Label}
    {asmLines lines : List Text} {s s' : Run}
    (h : prepareLines env script labels asmLines s = .ok lines s') :
    s'.labels.map Label.name = labels.map Label.name := by
  unfold prepareLines at h
  obtain ⟨run, _, hget, h⟩ := bind_eq_ok h
  cases hget
  dsimp only at h
  obtain ⟨_, logged, hlog, h⟩ := bind_eq_ok h
  cases hlog
  cases hselected : (selectTryExceptBranches (script.symbols labels s.registry.globalSymbols)
    (some s.target) asmLines s.log).1 with
  | error error =>
    rw [hselected] at h
    cases h
  | ok chosen =>
    rw [hselected] at h
    dsimp only at h
    cases hresolved : resolveForwardLabels env script s.registry.globalSymbols s.target chosen
        labels with
    | error error =>
      rw [hresolved] at h
      cases h
    | ok resolved =>
      rw [hresolved] at h
      cases h
      exact sizingPasses_names hresolved

/-- Allocation keeps the names of the blocks. -/
theorem allocateAll_names {env : Environment} {labels : List Label} {defines : List Define}
    {done rest allocs : List Alloc} {s s' : Run}
    (h : allocateAll env labels defines done rest s = .ok allocs s') :
    allocs.map Alloc.name = (done ++ rest).map Alloc.name := by
  induction rest generalizing done s with
  | nil =>
    cases h
    rw [List.append_nil]
  | cons a rest ih =>
    obtain ⟨preferred, hcons⟩ := allocateAll_cons env labels defines done a rest s
    rw [hcons] at h
    split at h
    · cases h
    · rw [ih h]
      simp

/-- The names in a run are those that were parsed. -/
theorem ReachesFrom.names {env : Environment} {is32 : Bool} {parsed : Parsed} {start run : Run}
    {script : Script} {rawLine : Text}
    (h : ReachesFrom env is32 parsed start script rawLine run) :
    run.labels.map Label.name = parsed.labels.map Label.name ∧
      script.allocs.map Alloc.name = parsed.allocs.map Alloc.name := by
  obtain ⟨allocs, allocated, lines, prepared, before, after, halloc, rfl, hprepare, -, hemit⟩ := h
  refine ⟨?_, allocateAll_names halloc⟩
  have hnames := @emitLines_induct env ⟨is32, allocs, parsed.defines⟩
    (fun s ↦ s.labels.map Label.name = parsed.labels.map Label.name) before
    _ (prepareLines_names hprepare) fun _ rawLine _ s _ _ hs ↦
      (emitLine_names rawLine s).preserves (fun _ _ hstep hs ↦ hstep.trans hs) hs
  rw [hemit] at hnames
  exact hnames

/-! ### Structure definitions behind the pass -/

theorem getlinesFrom_append_separator (separator : Char) (text rest current : Text) :
    getlinesFrom separator current (text ++ separator :: rest) =
      getlinesFrom separator current (text ++ [separator]) ++ getlines separator rest := by
  induction text generalizing current with
  | nil =>
    rw [List.nil_append, List.nil_append, getlinesFrom, if_pos rfl, getlinesFrom, if_pos rfl]
    rfl
  | cons c more ih =>
    rw [List.cons_append, List.cons_append, getlinesFrom, getlinesFrom]
    split_ifs
    · rw [ih, List.cons_append]
    · exact ih _

/-- A text of whole lines is read before what follows it. -/
theorem getlines_append {separator : Char} {text : Text}
    (h : text = [] ∨ text.getLast? = some separator) (rest : Text) :
    getlines separator (text ++ rest) = getlines separator text ++ getlines separator rest := by
  rcases h with rfl | h
  · rfl
  · obtain ⟨front, rfl⟩ := List.getLast?_eq_some_iff.mp h
    rw [List.append_assoc, List.singleton_append]
    exact getlinesFrom_append_separator separator front rest []

/-- The text that is generated is one of whole lines. -/
def WholeLines (text : Text) : Prop := text = [] ∨ text.getLast? = some '\n'

theorem wholeLines_append (text front : Text) {back : Text} (h : back.getLast? = some '\n') :
    WholeLines (text ++ (front ++ back)) := by
  refine .inr ?_
  rw [List.getLast?_append, List.getLast?_append, h]
  rfl

theorem WholeLines.append (text name value : Text) :
    WholeLines (text ++ defineLine name value) := by
  have hclose : (")\n".toList).getLast? = some '\n' := by decide +kernel
  unfold defineLine
  exact wholeLines_append text _ hclose

/-- A line of the loop over structures adds to the body, and whole lines to the definitions. -/
theorem structLine_grows {rawLine : Text} {s s' : StructScan} (h : structLine rawLine s = .ok s')
    (hwhole : WholeLines s.generated) : WholeLines s'.generated ∧ s.body <+: s'.body := by
  unfold structLine at h
  dsimp only at h
  cases hname : s.structName with
  | none =>
    rw [hname] at h
    dsimp only at h
    split_ifs at h
    · cases h
      exact ⟨hwhole, List.prefix_refl _⟩
    · cases h
      exact ⟨hwhole, by simp [List.append_assoc]⟩
  | some structName =>
    rw [hname] at h
    dsimp only at h
    by_cases hskip : isSkipped (stripInlineComment rawLine) = true
    · rw [if_pos hskip] at h
      cases h
      exact ⟨hwhole, List.prefix_refl _⟩
    rw [if_neg hskip] at h
    by_cases hend : isStructEnd (toUpper (stripInlineComment rawLine)) = true
    · rw [if_pos hend] at h
      cases h
      exact ⟨.append _ _ _, List.prefix_refl _⟩
    rw [if_neg hend, structMember] at h
    split at h
    · obtain ⟨size, -, rfl⟩ := structData_ok h
      exact ⟨hwhole, List.prefix_refl _⟩
    · split_ifs at h
      · cases h
        refine ⟨?_, List.prefix_refl _⟩
        rw [memberDefines, ← List.append_assoc]
        exact .append _ _ _
      · obtain ⟨size, -, rfl⟩ := structData_ok h
        refine ⟨?_, List.prefix_refl _⟩
        dsimp only
        rw [memberDefines, ← List.append_assoc]
        exact .append _ _ _

theorem structLines_grow {rawLines : List Text} {s s' : StructScan}
    (h : structLines rawLines s = .ok s') (hwhole : WholeLines s.generated) :
    WholeLines s'.generated ∧ s.body <+: s'.body := by
  induction rawLines generalizing s with
  | nil =>
    cases h
    exact ⟨hwhole, List.prefix_refl _⟩
  | cons rawLine rest ih =>
    rw [structLines] at h
    split at h
    · next next hnext =>
      obtain ⟨hgenerated, hbody⟩ := structLine_grows hnext hwhole
      obtain ⟨hgenerated', hbody'⟩ := ih h hgenerated
      exact ⟨hgenerated', hbody.trans hbody'⟩
    · cases h

/-- The lines of the pass stand outside of structures. -/
theorem structLines_labelLines {names : List Text} (hnames : ∀ name ∈ names, isLabelName name = true)
    (rest : List Text) (s : StructScan) (hs : s.structName = none) :
    structLines (names.map labelLine ++ rest) s =
      structLines rest { s with
        body := s.body ++ (names.map labelLine).flatMap fun line ↦ line ++ ['\n'] } := by
  induction names generalizing s with
  | nil => simp
  | cons name more ih =>
    rw [List.forall_mem_cons] at hnames
    have hline : structLine (labelLine name) s =
        .ok { s with body := s.body ++ labelLine name ++ ['\n'] } := by
      have hstruct := @not_startsWith_labelLine name "STRUCT ".toList (by decide) (by decide)
      unfold structLine
      dsimp only
      rw [hs, stripInlineComment_labelLine hnames.1, hstruct, if_neg Bool.false_ne_true]
    rw [List.map_cons, List.cons_append, structLines, hline]
    dsimp only
    rw [ih hnames.2 { s with body := s.body ++ labelLine name ++ ['\n'] } hs, List.flatMap_cons]
    simp only [List.append_assoc]

/-- Without hooks, what is parsed are definitions of structures, the lines of the pass, and the
rest of the script. -/
theorem expandStructDefinitions_autoDeclared {code : Text} {log : List Text}
    (hok : (expandStructDefinitions (autoDeclareNamedLabels code) log).ok = true) :
    ∃ before after,
      getlines '\n' (expandStructDefinitions (autoDeclareNamedLabels code) log).output =
        before ++ ((autoDeclared code).map labelLine ++ after) := by
  rw [expandStructDefinitions, getlines_autoDeclareNamedLabels,
    structLines_labelLines (fun _ ↦ isLabelName_of_mem) _ _ rfl] at hok ⊢
  split at hok
  · cases hok
  next s hlines =>
    obtain ⟨hwhole, added, hbody⟩ := structLines_grow hlines (.inl rfl)
    cases hname : s.structName with
    | some structName =>
      rw [hname] at hok
      cases hok
    | none =>
      dsimp only at hbody ⊢
      rw [getlines_append hwhole, ← hbody, List.nil_append,
        getlines_flatMap_append fun line hline ↦ labelLine_flat hline]
      exact ⟨_, _, rfl⟩

/-! ### Lines with a registered name -/

/-- The address that the defines of a script give a name. -/
def definedAs (defines : List Define) (name : Text) : Option ℕ :=
  defines.findSome? fun d ↦ if d.name = name then parseWholeUnsigned d.value 16 else none

/-- A name that is neither allocated nor a label is looked up among the defines first. -/
theorem Symbols.lookup_undeclared {symbols : Symbols} {name : Text} {address : ℕ}
    (halloc : symbols.allocs.find? (fun a ↦ a.name = name) = none)
    (hlabel : symbols.labels.find? (fun l ↦ l.name = name) = none)
    (hregistered : symbols.globalSymbols name = some address) :
    symbols.lookup name = some ((definedAs symbols.defines name).getD address) := by
  rw [lookup, halloc]
  dsimp only
  rw [hlabel]
  dsimp only
  rw [hregistered, definedAs]
  cases symbols.defines.findSome? _ <;> rfl

/-- A line with a name that is neither allocated nor a label goes on at the address of the define,
or else at the address that is registered. -/
theorem emitLabel_registered {script : Script} {run : Run} {name : Text} {address : ℕ}
    (halloc : ∀ b ∈ script.allocs, b.name ≠ name) (hlabel : ∀ l ∈ run.labels, l.name ≠ name)
    (hregistered : run.registry.globalSymbols name = some address) (haddress : address ≠ 0)
    (htrim : trim name = name) :
    emitLabel script name run = .ok ⟨⟩ { run with currentAddr := address } ↔
      ∀ value, definedAs script.defines name = some value → value = address := by
  have hallocs : script.allocs.find? (fun a ↦ a.name = name) = none :=
    List.find?_eq_none.mpr fun b hb ↦ by simpa using halloc b hb
  have hlabels : run.labels.find? (fun l ↦ l.name = name) = none :=
    List.find?_eq_none.mpr fun l hl ↦ by simpa using hlabel l hl
  have hresolve : (run.symbols script).resolveAddress name =
      (definedAs script.defines name).getD address := by
    rw [Symbols.resolveAddress, htrim, Symbols.lookup_undeclared hallocs hlabels hregistered]
    rfl
  have hemit : emitLabel script name run =
      if (definedAs script.defines name).getD address = 0 then
        fail ("Unresolved auto-assembler target: ".toList ++ name) run
      else .ok ⟨⟩ { run with currentAddr := (definedAs script.defines name).getD address } := by
    unfold emitLabel
    rw [bind_apply, get_apply]
    dsimp only
    rw [hallocs]
    dsimp only
    rw [hlabels]
    dsimp only
    rw [hresolve]
    split_ifs <;> rfl
  rw [hemit]
  cases definedAs script.defines name with
  | none => simp [haddress]
  | some value =>
    rw [Option.getD_some]
    constructor
    · intro h other hother
      cases hother
      split_ifs at h
      · cases h
      · exact congrArg (fun result ↦ (finalState result).currentAddr) h
    · intro h
      rw [h value rfl, if_neg haddress]

/-- A script whose lines are `before`, those of the pass for `code`, and others, declares a name:
there is an allocation of that name, or a label of that name that is not one of the pass. -/
def DeclaresName (env : Environment) (fuel : ℕ) (w : World) (scriptText : Text)
    (before : List Text) (code name : Text) : Prop :=
  let preprocessed := env.preprocessScript (enableSection scriptText)
  ∃ declared parsed,
    parseAll (parseLine env (seeded env w).registry.globalSymbols (some (seeded env w).target) fuel 0)
        before { log := preprocessed.log, error := preprocessed.error } = some (true, declared) ∧
      parseScript env fuel (seeded env w) scriptText = some (true, parsed) ∧
      ((∃ b ∈ parsed.allocs, b.name = name) ∨
        ∃ l ∈ declared.labels ++
          parsed.labels.drop (declared.labels.length + (autoDeclared code).length), l.name = name)

/-- The labels of a parse are those that the script declares and those of the pass. -/
theorem label_iff_autoDeclared {env : Environment} {fuel : ℕ} {w : World} {scriptText : Text}
    {before after : List Text} {code name : Text} {parsed : Parsed}
    (hlines : getlines '\n' (env.preprocessScript (enableSection scriptText)).output =
      before ++ ((autoDeclared code).map labelLine ++ after))
    (hparsed : parseScript env fuel (seeded env w) scriptText = some (true, parsed))
    (hundeclared : ¬DeclaresName env fuel w scriptText before code name) :
    (∀ b ∈ parsed.allocs, b.name ≠ name) ∧
      ((∃ l ∈ parsed.labels, l.name = name) ↔ name ∈ autoDeclared code) := by
  have hparse := hparsed
  unfold parseScript at hparse
  dsimp only at hparse
  by_cases hok : (env.preprocessScript (enableSection scriptText)).ok = true
  case neg =>
    rw [if_neg hok] at hparse
    cases hparse
  rw [if_pos hok, hlines] at hparse
  obtain ⟨declared, hbefore, hparse⟩ := parseAll_append hparse
  obtain ⟨passed, hpass, hafter⟩ := parseAll_append hparse
  have hlabels := parseAll_labelLines (fun _ ↦ isLabelName_of_mem) hpass
  obtain ⟨added, hadded⟩ := parseAll_labels (fun _ _ _ ↦ parseLine_labels fuel) hafter
  rw [hlabels] at hadded
  dsimp only at hadded
  have hdrop : parsed.labels.drop (declared.labels.length + (autoDeclared code).length) = added := by
    rw [← hadded]
    exact List.drop_left' (by simp)
  have hnot (l : Label) (hl : l ∈ declared.labels ++ added) : l.name ≠ name := fun hname ↦
    hundeclared ⟨declared, parsed, hbefore, hparsed, .inr ⟨l, hdrop.symm ▸ hl, hname⟩⟩
  refine ⟨fun b hb hname ↦ hundeclared ⟨declared, parsed, hbefore, hparsed, .inl ⟨b, hb, hname⟩⟩,
    ?_, fun hname ↦ ?_⟩
  · rintro ⟨l, hl, rfl⟩
    rw [← hadded, List.mem_append, List.mem_append] at hl
    rcases hl with (hl | hl) | hl
    · exact absurd rfl (hnot l (List.mem_append_left _ hl))
    · obtain ⟨other, hother, rfl⟩ := List.mem_map.mp hl
      exact hother
    · exact absurd rfl (hnot l (List.mem_append_right _ hl))
  · refine ⟨⟨name, 0⟩, ?_, rfl⟩
    rw [← hadded]
    exact List.mem_append_left _ (List.mem_append_right _ (List.mem_map_of_mem hname))

/-- Where an execution gets to a line with a registered name that the script does not declare, it
goes on at the registered address, without a label of that name, exactly when the pass has not
declared the name, and no define gives it another address. -/
theorem registeredLine_iff {env : Environment} {fuel : ℕ} {w : World} {scriptText : Text}
    {script : Script} {rawLine : Text} {run : Run} {before after : List Text} {code name : Text}
    {address : ℕ}
    (hlines : getlines '\n' (env.preprocessScript (enableSection scriptText)).output =
      before ++ ((autoDeclared code).map labelLine ++ after))
    (hreaches : ReachesLine env fuel w scriptText script rawLine run)
    (hline : classify (trim rawLine) = .label name)
    (hundeclared : ¬DeclaresName env fuel w scriptText before code name)
    (hregistered : run.registry.globalSymbols name = some address) (haddress : address ≠ 0)
    (htrim : trim name = name) :
    ((∀ l ∈ run.labels, l.name ≠ name) ∧
        emitLine env script rawLine run = .ok ⟨⟩ { run with currentAddr := address }) ↔
      name ∉ autoDeclared code ∧
        ∀ value, definedAs script.defines name = some value → value = address := by
  obtain ⟨parsed, hparsed, hreaches⟩ := hreaches
  obtain ⟨hnames, hallocNames⟩ := hreaches.names
  obtain ⟨halloc, hlabel⟩ := label_iff_autoDeclared hlines hparsed hundeclared
  have hlabels : (∀ l ∈ run.labels, l.name ≠ name) ↔ name ∉ autoDeclared code := by
    rw [← hlabel]
    have hmem : name ∈ run.labels.map Label.name ↔ name ∈ parsed.labels.map Label.name := by
      rw [hnames]
    simp only [List.mem_map] at hmem
    rw [← hmem]
    push Not
    exact Iff.rfl
  have hallocs : ∀ b ∈ script.allocs, b.name ≠ name := by
    intro b hb hname
    have hmem : name ∈ parsed.allocs.map Alloc.name :=
      hallocNames ▸ hname ▸ List.mem_map_of_mem hb
    obtain ⟨other, hother, hsame⟩ := List.mem_map.mp hmem
    exact halloc other hother hsame
  have hemit : emitLine env script rawLine run = emitLabel script name run := by
    rw [emitLine, hline]
  rw [hlabels, hemit]
  refine and_congr_right fun hauto ↦ ?_
  exact emitLabel_registered hallocs (hlabels.mpr hauto) hregistered haddress htrim

/-- An environment whose preprocessing is the pass alone. -/
def declaringEnvironment : Environment :=
  { plainEnvironment with preprocessScript := fun code ↦ ⟨true, autoDeclareNamedLabels code, [], []⟩ }

def registeredWorld (name : Text) (address : ℕ) : World :=
  ⟨onePage, { globalSymbols := fun other ↦ if other = name then some address else none }⟩

theorem registeredLine_dotted :
    ∃ (script : Script) (run : Run), emitLine declaringEnvironment script "a.b:".toList run =
      .ok ⟨⟩ { run with currentAddr := 0x1000 } := by
  have hparsed : parseScript declaringEnvironment 5
      (seeded declaringEnvironment (registeredWorld "a.b".toList 0x1000)) "a.b:".toList =
        some (true, { asmLines := ["a.b:".toList] }) := by rfl
  have hreaches : ReachesLine declaringEnvironment 5 (registeredWorld "a.b".toList 0x1000)
      "a.b:".toList ⟨false, [], []⟩ "a.b:".toList
      (startRun (seeded declaringEnvironment (registeredWorld "a.b".toList 0x1000))
        { asmLines := ["a.b:".toList] }) :=
    ⟨_, hparsed, [], _, _, _, [], [], by rfl, rfl, by rfl, rfl, by rfl⟩
  have hundeclared : ¬DeclaresName declaringEnvironment 5 (registeredWorld "a.b".toList 0x1000)
      "a.b:".toList [] "a.b:".toList "a.b".toList := by
    rintro ⟨declared, parsed, hbefore, hparse, hname⟩
    cases hbefore
    cases hparsed.symm.trans hparse
    rcases hname with ⟨b, hb, -⟩ | ⟨l, hl, -⟩
    · cases hb
    · cases hl
  have hiff := @registeredLine_iff declaringEnvironment 5 _ _ _ _ _ [] ["a.b:".toList] _ _ 0x1000
    (by rfl) hreaches (by rfl) hundeclared (by rfl) (by decide) (by rfl)
  exact ⟨_, _, (hiff.mpr ⟨by decide, by rintro _ ⟨⟩⟩).2⟩

/-- The patch behind `tgt:` goes behind the one before it, not to the registered address. -/
theorem registered_name_shadowed :
    ((execute declaringEnvironment 5 (registeredWorld "tgt".toList 0x1800)
        "1000:\ndb 90\ntgt:\ndb CC".toList).map fun done ↦
      (done.2.success, done.1.target.memory 0x1001, done.1.target.memory 0x1800)) =
        some (true, some 0xCC, some 0) := by
  decide +kernel

end Cecore.AutoAsm
